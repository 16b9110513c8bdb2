import WaveDB.Database.SyncWrites

/-!
Acknowledged writes and the log (the `_sync` writes of `Database/database.c`).

The records of batches have the bytes of libcbor, which is a parameter. `behind` is what follows
the empty buffers of the decoders in memory.
-/

namespace WaveDB.Database

open WaveDB.Basis Workers HBTrie List Option

/-! ### Calls -/

inductive WriteCall where
  | put (path : Path) (value : Bytes)
  | delete (path : Path)
  | increment (path : Path) (delta : Int)
  | writeBatch (batch : Batch)

section Calls

variable (cfg : Config) (load : Loader) (s : SyncDb) (env : CallEnv)

def WriteCall.run [Libcbor] : WriteCall → SyncDb × Except Int Int
  | .put path value => databasePutSync cfg load s env path value
  | .delete path => databaseDeleteSync cfg load s env path
  | .increment path delta => databaseIncrementSync cfg load s env path delta
  | .writeBatch batch =>
    ((databaseWriteBatchSync cfg load s env batch).1,
      (databaseWriteBatchSync cfg load s env batch).2.2)

def WriteCall.ops : WriteCall → List TrieOp
  | .put path value => [.insert path value (s.nextId env)]
  | .delete path => [.delete path (s.nextId env)]
  | .increment path delta =>
    [.insert path (formatLld (s.incremented load path delta)) (s.nextId env)]
  | .writeBatch batch => batch.ops.map (BatchOp.call (s.nextId env))

def WriteCall.record [Libcbor] : WriteCall → Option WalRecord
  | .put path value => some (putRecord path value (s.nextId env))
  | .delete path => some (deleteRecord path (s.nextId env))
  | .increment path delta =>
    if s.syncOnly then
      some (putRecord path (formatLld (s.incremented load path delta)) (s.nextId env))
    else none
  | .writeBatch batch => some (batchRecord batch (s.nextId env))

/-- The call returns success and has changed what some key holds. -/
def Acknowledged [Libcbor] (call : WriteCall) : Prop :=
  (∃ value, (call.run cfg load s env).2 = .ok value) ∧
    ∃ key, contentAt load (call.run cfg load s env).1.trie key ≠ contentAt load s.trie key

/-- The record can be read from a file, and replaying it makes these calls. -/
structure Describes [Libcbor] (cs : ChunkSize) (record : WalRecord) (ops : List TrieOp) : Prop where
  readable : readWalFile (encodeWalRecord record) = [record]
  replayed : ∀ behind, decodeRecordOps cs behind record = ops

/-- One record was accepted during the call, and it describes the change. -/
def LoggedExactly [Libcbor] (call : WriteCall) : Prop :=
  ∃ record, (call.run cfg load s env).1.logged.Perm (record :: s.logged) ∧
    Describes cfg.chunkSize record (call.ops load s env)

/-- The path was made with the chunk size of the trie, and no component of it is empty. -/
def PathMade (cs : ChunkSize) (path : Path) : Prop :=
  pathOf cs (path.map identifierToBuffer) = path ∧ ∀ data ∈ path.map identifierToBuffer, data ≠ []

instance (cs : ChunkSize) (path : Path) : Decidable (PathMade cs path) :=
  inferInstanceAs (Decidable (_ ∧ _))

def PathRecorded (cs : ChunkSize) (path : Path) : Prop :=
  PathMade cs path ∧ (path.map identifierToBuffer).length < 256 ^ 2 ∧
    ∀ data ∈ path.map identifierToBuffer, data.length < 256 ^ 2

instance (cs : ChunkSize) (path : Path) : Decidable (PathRecorded cs path) :=
  inferInstanceAs (Decidable (_ ∧ _ ∧ _))

def WriteCall.Recorded (cs : ChunkSize) : WriteCall → Prop
  | .put path value => PathRecorded cs path ∧ 0 < value.length ∧ value.length < 2 ^ 32
  | .delete path => PathRecorded cs path
  | .increment path _ => PathRecorded cs path
  | .writeBatch batch => ∀ op ∈ batch.ops, PathMade cs op.path

instance (cs : ChunkSize) : ∀ call : WriteCall, Decidable (call.Recorded cs)
  | .put _ _ => inferInstanceAs (Decidable (_ ∧ _ ∧ _))
  | .delete path => inferInstanceAs (Decidable (PathRecorded cs path))
  | .increment path _ => inferInstanceAs (Decidable (PathRecorded cs path))
  | .writeBatch batch => inferInstanceAs (Decidable (∀ op ∈ batch.ops, PathMade cs op.path))

/-- The call makes a record of a length below `2 ^ 32`, it is encoded and accepted, and nothing
is lost in it. -/
def logsExactly [Libcbor] (call : WriteCall) : Bool :=
  (call.record load s env).any fun record =>
    decide (record.data.length < 2 ^ 32) && env.encodes && s.walAccepts env record &&
      decide (call.Recorded cfg.chunkSize)

end Calls

/-! ### What is accepted -/

theorem flatMap_set_perm {α β : Type} {f : α → List β} {xs : List α} {i : Nat} {x y : α} {b : β}
    (hx : xs[i]? = some x) (hy : f y = f x ++ [b]) :
    ((xs.set i y).flatMap f).Perm (b :: xs.flatMap f) := by
  induction xs generalizing i with
  | nil => cases hx
  | cons a xs ih =>
    cases i with
    | zero =>
      cases hx
      rw [set_cons_zero, flatMap_cons, flatMap_cons, hy, append_assoc]
      exact perm_middle
    | succ i =>
      exact ((ih hx).append_left (f a)).trans perm_middle

theorem flatMap_set_eq {α β : Type} {f : α → List β} {xs : List α} {i : Nat} {x y : α}
    (hx : xs[i]? = some x) (hy : f y = f x) : (xs.set i y).flatMap f = xs.flatMap f := by
  rw [flatMap_def, map_set_of_eq hx hy, flatMap_def]

variable {s : SyncDb} {trie base : HbtrieNode} {call : WriteCall} {value : Int}

section Log

variable (s : SyncDb) (env : CallEnv)

variable (record : WalRecord)

/-- The log grows by the record if it is accepted, and not at all otherwise. -/
theorem SyncDb.writeWal_logged : (s.writeWal env record).logged.Perm
      (if s.walAccepts env record then record :: s.logged else s.logged) := by
  unfold writeWal walAccepts
  cases hthread : s.threadWal env with
  | none => simp
  | some wal =>
    obtain ⟨manager, twal⟩ := wal
    obtain ⟨manager', hwal, htwal⟩ := bind_eq_some_iff.mp hthread
    obtain ⟨twal', htwal, heq⟩ := map_eq_some_iff.mp htwal
    cases heq
    cases hio : env.walIoFails with
    | true => simp
    | false =>
      obtain ⟨twal', hthreads, haccepted⟩ :=
        threadWalWrite_threads manager env.thread twal record env.second
      have hbefore : s.logged = manager.threads.flatMap ThreadWal.accepted := by
        rw [logged, hwal]
        rfl
      have hafter : ({ s with
          wal := some (threadWalWrite manager env.thread twal record env.second) } :
            SyncDb).logged = (manager.threads.set env.thread twal').flatMap
              ThreadWal.accepted := by
        rw [← hthreads]
        rfl
      simp only [Bool.false_eq_true, if_false, any_some, Bool.not_false, Bool.true_and]
      rw [hafter, hbefore]
      split at haccepted
      · rename_i hyes
        rw [if_pos hyes]
        exact flatMap_set_perm htwal haccepted
      · rename_i hno
        rw [if_neg hno, flatMap_set_eq htwal haccepted]

theorem SyncDb.logEntry_logged : (s.logEntry env record).logged.Perm
      (if env.encodes && s.walAccepts env record then record :: s.logged else s.logged) := by
  unfold logEntry
  cases env.encodes with
  | false => simp
  | true => simpa using s.writeWal_logged env record

/-- Only the log changes. -/
theorem SyncDb.writeWal_frame : (s.writeWal env record).trie = s.trie ∧
    (s.writeWal env record).manager = s.manager ∧
      (s.writeWal env record).syncOnly = s.syncOnly := by
  unfold writeWal
  split
  · exact ⟨rfl, rfl, rfl⟩
  · split <;> exact ⟨rfl, rfl, rfl⟩

theorem SyncDb.logEntry_frame : (s.logEntry env record).trie = s.trie ∧
    (s.logEntry env record).manager = s.manager ∧
      (s.logEntry env record).syncOnly = s.syncOnly := by
  unfold logEntry
  split
  · exact s.writeWal_frame env record
  · exact ⟨rfl, rfl, rfl⟩

theorem SyncDb.apply_logEntry_trie (cfg : Config) (load : Loader) (record : WalRecord)
    (ops : List TrieOp) :
    ((s.logEntry env record).apply cfg load ops).trie = ops.foldl (applyOp cfg load) s.trie := by
  rw [apply, (s.logEntry_frame env record).1]

def SyncDb.loggedAfter (record : Option WalRecord) : List WalRecord :=
  match record with
  | none => s.logged
  | some record => if env.encodes && s.walAccepts env record then record :: s.logged else s.logged

end Log

/-! ### What a call does -/

section Run

variable {cfg : Config} {load : Loader} {s' : SyncDb} {env : CallEnv} {batch batch' : Batch}

def WriteCall.metTrie (load : Loader) (s : SyncDb) : WriteCall → HbtrieNode
  | .increment path _ => hbtrieFindAttach load s.trie (pathSteps path)
  | _ => s.trie

structure Succeeded [Libcbor] (cfg : Config) (load : Loader) (s : SyncDb) (env : CallEnv)
    (call : WriteCall) (s' : SyncDb) : Prop where
  log : s'.logged.Perm (s.loggedAfter env (call.record load s env))
  trie : s'.trie = (call.ops load s env).foldl (applyOp cfg load) (call.metTrie load s)

/-- A batch that reports no error has applied all its operations. -/
theorem applyBatch_eq {txnId : TransactionId} {ops : List BatchOp} {trie' : HbtrieNode}
    (h : applyBatch cfg load txnId trie ops = (trie', true)) :
    trie' = (ops.map (BatchOp.call txnId)).foldl (applyOp cfg load) trie := by
  induction ops generalizing trie with
  | nil =>
    cases h
    rfl
  | cons op ops ih =>
    cases op with
    | put path value =>
      rw [applyBatch] at h
      split at h
      · rename_i next hinsert
        have hnext : next = applyOp cfg load trie (.insert path value txnId) := by
          rw [applyOp, hinsert]
        rw [ih h, hnext]
        rfl
      · cases h
    | delete path => exact ih h

theorem writeEntrySync_ok {record : TransactionId → WalRecord} {op : TransactionId → TrieOp}
    (h : writeEntrySync cfg load s env record op = (s', .ok value)) :
    s'.logged.Perm (s.loggedAfter env (some (record (s.nextId env)))) ∧
      s'.trie = applyOp cfg load s.trie (op (s.nextId env)) := by
  unfold writeEntrySync at h
  split at h
  · cases h
  split at h
  · cases h
    exact ⟨(s.takeId env).logEntry_logged env _,
      (s.takeId env).apply_logEntry_trie env cfg load _ _⟩
  split at h
  · cases h
    exact ⟨(s.begin env).logEntry_logged env _, (s.begin env).apply_logEntry_trie env cfg load _ _⟩
  · cases h

theorem databaseIncrementSync_ok [Libcbor] {path : Path} {delta : Int}
    (h : databaseIncrementSync cfg load s env path delta = (s', .ok value)) :
    Succeeded cfg load s env (.increment path delta) s' := by
  unfold databaseIncrementSync at h
  split at h
  · rename_i hsync
    split at h
    · cases h
      constructor
      · rw [WriteCall.record, if_pos hsync]
        exact ((s.takeId env).lookUp load path).logEntry_logged env _
      · exact ((s.takeId env).lookUp load path).apply_logEntry_trie env cfg load _ _
    · cases h
  · rename_i hsync
    split at h
    · cases h
      constructor
      · rw [WriteCall.record, if_neg hsync]
        exact .refl _
      · rfl
    · cases h

/-- The transaction of a batch, whose begin changes neither trie nor log. -/
theorem writeBatchInTransaction_ok [Libcbor]
    (h : writeBatchInTransaction cfg load (s.begin env) env batch (s.nextId env) =
      (s', .ok value)) : Succeeded cfg load s env (.writeBatch batch) s' := by
  have hlog := (s.begin env).writeWal_logged env (batchRecord batch (s.nextId env))
  have htrie := ((s.begin env).writeWal_frame env (batchRecord batch (s.nextId env))).1
  unfold writeBatchInTransaction finishBatch at h
  split at h
  · cases h
  · rename_i hencodes
    split at h
    · cases h
    split at h
    · rename_i trie hbatch
      cases h
      rw [htrie] at hbatch
      constructor
      · have hyes : env.encodes = true := by simpa using hencodes
        rw [WriteCall.record, SyncDb.loggedAfter, hyes, Bool.true_and]
        exact hlog
      · exact applyBatch_eq hbatch
    · cases h

section WriteBatch

variable [Libcbor] (h : databaseWriteBatchSync cfg load s env batch = (s', batch', .ok value))

include h

/-- How a batch succeeds: at once in sync-only mode, else within its transaction. -/
theorem databaseWriteBatchSync_ok_cases : (s.syncOnly ∧
      s' = ((s.takeId env).logEntry env (batchRecord batch (s.nextId env))).apply cfg load
        (batch.ops.map (BatchOp.call (s.nextId env)))) ∨ (s.syncOnly = false ∧
      writeBatchInTransaction cfg load (s.begin env) env batch (s.nextId env) =
        (s', .ok value)) := by
  unfold databaseWriteBatchSync at h
  split at h
  · cases h
  split at h
  · cases h
  split at h
  · rename_i hsync
    cases h
    exact .inl ⟨hsync, rfl⟩
  · rename_i hsync
    split at h
    · cases h
    split at h
    · obtain ⟨htrie, hrest⟩ := Prod.mk.inj h
      exact .inr ⟨Bool.eq_false_of_not_eq_true hsync, Prod.ext htrie (Prod.mk.inj hrest).2⟩
    · cases h

theorem databaseWriteBatchSync_ok : Succeeded cfg load s env (.writeBatch batch) s' := by
  rcases databaseWriteBatchSync_ok_cases h with ⟨-, rfl⟩ | ⟨-, hok⟩
  · constructor
    · exact (s.takeId env).logEntry_logged env _
    · exact (s.takeId env).apply_logEntry_trie env cfg load _ _
  · exact writeBatchInTransaction_ok hok

end WriteBatch

theorem WriteCall.run_ok [Libcbor] (h : (call.run cfg load s env).2 = .ok value) :
    Succeeded cfg load s env call (call.run cfg load s env).1 := by
  cases call with
  | put path bytes | delete path =>
    obtain ⟨hlog, htrie⟩ := writeEntrySync_ok (Prod.ext rfl h)
    exact ⟨hlog, htrie⟩
  | increment path delta => exact databaseIncrementSync_ok (Prod.ext rfl h)
  | writeBatch batch => exact databaseWriteBatchSync_ok (Prod.ext rfl (Prod.ext rfl h))

end Run

/-! ### What comes back -/

section Decode

variable {cs : ChunkSize} {path : Path} {value : Bytes} {id : TransactionId}

/-- The paths that come back from their bytes, whatever is behind them. -/
theorem pathMade_iff : PathMade cs path ↔ ∀ behind, rebuiltPath cs behind path = path := by
  constructor
  · rintro ⟨hpath, hne⟩ behind
    rw [rebuiltPath, pathOver_of_nonempty cs hne, hpath]
  · intro h
    have hpath : pathOf cs (path.map identifierToBuffer) = path := by
      rw [← pathOver_nil]
      exact h []
    refine ⟨hpath, (pathOver_eq_iff cs _).mp fun behind => ?_⟩
    rw [hpath]
    exact h behind

theorem pathMade_pathOf {components : List Bytes} :
    PathMade cs (pathOf cs components) ↔ ∀ data ∈ components, data ≠ [] := by
  rw [PathMade, map_identifierToBuffer_pathOf]
  exact and_iff_right rfl

theorem pathRecorded_iff : PathRecorded cs path ↔
    ∃ components, path = pathOf cs components ∧ (∀ behind, pathOver cs behind components = path) ∧
      PathFitsWal components := by
  constructor
  · rintro ⟨hmade, hfits⟩
    exact ⟨_, hmade.1.symm, fun behind => pathMade_iff.mp hmade behind, hfits⟩
  · rintro ⟨components, rfl, hover, hfits⟩
    exact ⟨pathMade_pathOf.mpr ((pathOver_eq_iff cs components).mp hover),
      by rwa [map_identifierToBuffer_pathOf]⟩

theorem decodePut_iff : (∀ behind, decodePutEntryOver cs behind (encodePutEntryBinary path value) =
        some (path, some value)) ↔
      PathRecorded cs path ∧ 0 < value.length ∧ value.length < 2 ^ 32 := by
  rw [pathRecorded_iff]
  constructor
  · intro h
    obtain ⟨⟨_, rest⟩, hread, heq⟩ := map_eq_some_iff.mp (h [])
    obtain ⟨path', mid, hpath, hread⟩ := bind_eq_some_reader.mp hread
    obtain ⟨value', rest', -, hpure⟩ := bind_eq_some_reader.mp hread
    cases hpure
    cases heq
    obtain ⟨components, hcomponents⟩ := exists_components_of_readPath hpath
    obtain rfl := hcomponents.trans (pathOver_nil cs components)
    have hzero : decodePutEntryOver cs [] (encodePutEntryBinary (pathOf cs components) value) =
        some (pathOver cs [] components, some value) := by
      rw [← hcomponents]
      exact h []
    obtain ⟨hfits, hpos, hlt⟩ := fits_of_decodePut hzero
    refine ⟨⟨components, rfl, fun behind => ?_, hfits⟩, hpos, hlt⟩
    have hdecode := (decodePut_of_fits hfits hpos hlt).symm.trans (h behind)
    exact (Prod.mk.inj (some.inj hdecode)).1
  · rintro ⟨⟨components, rfl, hover, hfits⟩, hpos, hlt⟩ behind
    rw [decodePut_of_fits hfits hpos hlt, hover]

theorem decodeDelete_iff :
    (∀ behind, decodeDeleteEntryOver cs behind (encodeDeleteEntryBinary path) = some path) ↔
      PathRecorded cs path := by
  rw [pathRecorded_iff]
  constructor
  · intro h
    obtain ⟨⟨_, rest⟩, hread, heq⟩ := map_eq_some_iff.mp (h [])
    cases heq
    obtain ⟨components, hcomponents⟩ := exists_components_of_readPath hread
    obtain rfl := hcomponents.trans (pathOver_nil cs components)
    have hzero : readPathBinary cs [] (encodePathBinary (pathOf cs components) ++ []) =
        some (pathOver cs [] components, rest) := by
      rw [← hcomponents, append_nil]
      exact hread
    have hfits := fits_of_readPath hzero
    refine ⟨components, rfl, fun behind => ?_, hfits⟩
    exact some.inj ((decodeDelete_of_fits hfits).symm.trans (h behind))
  · rintro ⟨components, rfl, hover, hfits⟩ behind
    rw [decodeDelete_of_fits hfits, hover]

section Records

variable [Libcbor]

theorem decodeRecordOps_put_iff :
    (∀ behind, decodeRecordOps cs behind (putRecord path value id) = [.insert path value id]) ↔
      PathRecorded cs path ∧ 0 < value.length ∧ value.length < 2 ^ 32 := by
  have hbatch : walPut ≠ walBatch := by decide
  rw [← decodePut_iff]
  refine forall_congr' fun behind => ?_
  rw [decodeRecordOps, putRecord, if_neg hbatch, decodeRecord, if_pos rfl]
  constructor
  · intro h
    split at h
    · rename_i path' value' hdecode
      obtain ⟨⟨rfl, rfl, -⟩, -⟩ := h
      exact hdecode
    · cases h
  · intro h
    simp only [h, toList_some]

theorem decodeRecordOps_delete_iff :
    (∀ behind, decodeRecordOps cs behind (deleteRecord path id) = [.delete path id]) ↔
      PathRecorded cs path := by
  have hbatch : walDelete ≠ walBatch := by decide
  have hput : walDelete ≠ walPut := by decide
  rw [← decodeDelete_iff]
  refine forall_congr' fun behind => ?_
  rw [decodeRecordOps, deleteRecord, if_neg hbatch, decodeRecord, if_neg hput, if_pos rfl]
  cases decodeDeleteEntryOver cs behind (encodeDeleteEntryBinary path) with
  | none => simp
  | some path' => simp

theorem decodeRecordOps_batch_iff {batch : Batch} :
    (∀ behind, decodeRecordOps cs behind (batchRecord batch id) =
        batch.ops.map (BatchOp.call id)) ↔ ∀ op ∈ batch.ops, PathMade cs op.path := by
  have hop : ∀ behind (op : BatchOp), (op.rebuilt cs behind).call id = op.call id ↔
      rebuiltPath cs behind op.path = op.path := by
    intro behind op
    cases op <;> simp [BatchOp.rebuilt, BatchOp.call, BatchOp.path]
  simp only [decodeRecordOps, batchRecord, if_pos, decodeBatch_serialize, map_inj_left, hop,
    pathMade_iff]
  exact ⟨fun h op hmem behind => h behind op hmem, fun h behind op hmem => h op hmem behind⟩

end Records

end Decode

section Calls

variable [Libcbor] {cfg : Config} {load : Loader} {env : CallEnv} {record : WalRecord}

theorem WriteCall.describes_iff (h : call.record load s env = some record) :
    Describes cfg.chunkSize record (call.ops load s env) ↔
      record.data.length < 2 ^ 32 ∧ call.Recorded cfg.chunkSize := by
  have hparts : ∀ {record : WalRecord} {ops : List TrieOp} {recorded : Prop},
      record.type ≠ walEncryptedMagic →
      ((∀ behind, decodeRecordOps cfg.chunkSize behind record = ops) ↔ recorded) →
      (Describes cfg.chunkSize record ops ↔ record.data.length < 2 ^ 32 ∧ recorded) := by
    intro record ops recorded htype hdecode
    rw [← readWalFile_encode_iff htype, ← hdecode]
    exact ⟨fun ⟨hread, hops⟩ => ⟨hread, hops⟩, fun ⟨hread, hops⟩ => ⟨hread, hops⟩⟩
  have hput : walPut ≠ walEncryptedMagic := by decide
  cases call with
  | put path value =>
    cases h
    exact hparts hput decodeRecordOps_put_iff
  | delete path =>
    cases h
    exact hparts (by decide : walDelete ≠ walEncryptedMagic) decodeRecordOps_delete_iff
  | increment path delta =>
    simp only [WriteCall.record, ite_none_right_eq_some, some.injEq] at h
    obtain ⟨-, rfl⟩ := h
    refine hparts hput (decodeRecordOps_put_iff.trans ?_)
    obtain ⟨hpos, hle⟩ := formatLld_length (s.incremented load path delta)
    exact and_iff_left ⟨hpos, by omega⟩
  | writeBatch batch =>
    cases h
    exact hparts (by decide : walBatch ≠ walEncryptedMagic) decodeRecordOps_batch_iff

theorem logsExactly_iff : logsExactly cfg load s env call ↔
    ∃ record, call.record load s env = some record ∧ record.data.length < 2 ^ 32 ∧
      env.encodes ∧ s.walAccepts env record ∧ call.Recorded cfg.chunkSize := by
  rw [logsExactly]
  cases call.record load s env with
  | none => simp
  | some record => simp [and_assoc]

theorem WriteCall.record_txnId (h : call.record load s env = some record) :
    record.txnId = s.nextId env := by
  cases call with
  | put path value | delete path | writeBatch batch =>
    cases h
    rfl
  | increment path delta =>
    simp only [WriteCall.record, ite_none_right_eq_some, some.injEq] at h
    obtain ⟨-, rfl⟩ := h
    rfl

/-- Under the condition the record of the call is accepted, and describes the change. -/
theorem logged_of_logsExactly (hok : (call.run cfg load s env).2 = .ok value)
    (h : logsExactly cfg load s env call) : ∃ record, call.record load s env = some record ∧
      (call.run cfg load s env).1.logged.Perm (record :: s.logged) ∧
      Describes cfg.chunkSize record (call.ops load s env) := by
  obtain ⟨record, hrecord, hlength, hencodes, haccepts, hrecorded⟩ := logsExactly_iff.mp h
  obtain ⟨hlog, -⟩ := WriteCall.run_ok hok
  refine ⟨record, hrecord, ?_, (WriteCall.describes_iff hrecord).mpr ⟨hlength, hrecorded⟩⟩
  rw [hrecord, SyncDb.loggedAfter, hencodes, haccepts] at hlog
  exact hlog

theorem loggedExactly_iff (hok : (call.run cfg load s env).2 = .ok value) :
    LoggedExactly cfg load s env call ↔ logsExactly cfg load s env call = true := by
  obtain ⟨hlog, -⟩ := WriteCall.run_ok hok
  constructor
  · rintro ⟨record, hperm, hdescribes⟩
    have hgrown := hlog.symm.trans hperm
    have hlonger : ¬ s.logged.Perm (record :: s.logged) := fun h => by
      have hlength := h.length_eq
      rw [length_cons] at hlength
      omega
    cases hrecord : call.record load s env with
    | none =>
      rw [hrecord] at hgrown
      exact absurd hgrown hlonger
    | some made =>
      rw [hrecord, SyncDb.loggedAfter] at hgrown
      split at hgrown
      · rename_i haccepted
        obtain ⟨hencodes, haccepts⟩ := Bool.and_eq_true_iff.mp haccepted
        obtain rfl : made = record := by
          by_contra hne
          have hcount := hgrown.count_eq made
          rw [count_cons_self, count_cons_of_ne (Ne.symm hne)] at hcount
          omega
        obtain ⟨hlength, hrecorded⟩ := (WriteCall.describes_iff hrecord).mp hdescribes
        exact logsExactly_iff.mpr ⟨made, hrecord, hlength, hencodes, haccepts, hrecorded⟩
      · exact absurd hgrown hlonger
  · intro h
    obtain ⟨record, -, hlogged⟩ := logged_of_logsExactly hok h
    exact ⟨record, hlogged⟩

end Calls

/-! ### Runs -/

def opsSplitSafely (cfg : Config) (load : Loader) : HbtrieNode → List TrieOp → Bool
  | _, [] => true
  | trie, op :: ops =>
    opSplitsSafely cfg load trie op && opsSplitSafely cfg load (applyOp cfg load trie op) ops

def recordedOps [Libcbor] (cs : ChunkSize) (behind : Bytes) (records : List WalRecord) :
    List TrieOp :=
  records.flatMap (decodeRecordOps cs behind)

def replayOnto [Libcbor] (cfg : Config) (load : Loader) (behind : Bytes) (base : HbtrieNode)
    (records : List WalRecord) : HbtrieNode :=
  (recordedOps cfg.chunkSize behind records).foldl (applyOp cfg load) base

def WriteCall.batchAccepted (cfg : Config) : WriteCall → Bool
  | .writeBatch batch => batch.ops.all fun op => pathAccepted cfg op.path
  | _ => true

/-- The call is logged exactly, with an id above those of the log, on paths with a final
position, and splits no leaf at or below its separator. -/
def replaySafe [Libcbor] (cfg : Config) (load : Loader) (s : SyncDb)
    (action : CallEnv × WriteCall) : Bool :=
  logsExactly cfg load s action.1 action.2 && action.2.batchAccepted cfg &&
    (s.logged.all (·.txnId < s.nextId action.1)) &&
    ((action.2.ops load s action.1).all fun op => decide (ValidPath op.path)) &&
    opsSplitSafely cfg load (action.2.metTrie load s) (action.2.ops load s action.1)

def callStep [Libcbor] (cfg : Config) (load : Loader) (s : SyncDb)
    (action : CallEnv × WriteCall) : Option SyncDb :=
  some (action.2.run cfg load s action.1).1

section Runs

variable {cfg : Config} {load : Loader}

theorem foldl_applyOp_content {ops : List TrieOp} (hok : TrieOk load trie)
    (hvalid : ∀ op ∈ ops, ValidPath op.path) (hsafe : opsSplitSafely cfg load trie ops) :
    TrieOk load (ops.foldl (applyOp cfg load) trie) ∧
      ∀ key, contentAt load (ops.foldl (applyOp cfg load) trie) key =
        (history (pathAccepted cfg) ops key).foldl Write.apply (contentAt load trie key) := by
  induction ops generalizing trie with
  | nil => exact ⟨hok, fun _ => rfl⟩
  | cons op ops ih =>
    obtain ⟨hfirst, hrest⟩ := Bool.and_eq_true_iff.mp hsafe
    obtain ⟨hok', hcontent⟩ := applyOp_spec hok (hvalid op mem_cons_self) hfirst
    obtain ⟨hok'', hcontents⟩ := ih hok' (fun o ho => hvalid o (mem_cons_of_mem _ ho)) hrest
    refine ⟨hok'', fun key => ?_⟩
    simp only [foldl_cons, hcontents, hcontent, history, filterMap_cons]
    cases op.writeTo (pathAccepted cfg) key with
    | none => rfl
    | some w => rfl

theorem applyBatch_accepted {ops : List BatchOp} {txnId : TransactionId} (hok : TrieOk load trie)
    (haccepted : ∀ path value, .put path value ∈ ops → pathAccepted cfg path)
    (hvalid : ∀ op ∈ ops.map (BatchOp.call txnId), ValidPath op.path)
    (hsafe : opsSplitSafely cfg load trie (ops.map (BatchOp.call txnId))) :
    (applyBatch cfg load txnId trie ops).2 = true := by
  induction ops generalizing trie with
  | nil => rfl
  | cons op ops ih =>
    rw [map_cons, opsSplitSafely, Bool.and_eq_true] at hsafe
    have hrest := ih (applyOp_spec hok (hvalid _ mem_cons_self) hsafe.1).1
      (fun path value ho => haccepted path value (mem_cons_of_mem _ ho))
      (fun o ho => hvalid o (mem_cons_of_mem _ ho)) hsafe.2
    cases op with
    | put path value =>
      have hvalidPath : ValidPath path := hvalid _ mem_cons_self
      have hinsert : (hbtrieInsert cfg load trie path value txnId).2 = true := by
        obtain ⟨-, haccept, -⟩ :=
          @hbtrieInsert_effect cfg load trie path value txnId hok hvalidPath hsafe.1
        rw [haccept, stepsAccepted_pathSteps]
        exact haccepted _ _ mem_cons_self
      rw [applyBatch]
      split
      · rename_i trie' heq
        have htrie : trie' = applyOp cfg load trie (.insert path value txnId) := by
          rw [applyOp, heq]
        rw [htrie]
        exact hrest
      · rename_i trie' heq
        rw [heq] at hinsert
        cases hinsert
    | delete path => exact hrest

/-- What holds in every state of a run: some order of the log by id gives every key what it
holds. -/
structure ReplayInv [Libcbor] (cfg : Config) (load : Loader) (behind : Bytes) (base : HbtrieNode)
    (s : SyncDb) : Prop where
  trie : TrieOk load s.trie
  log : ∃ records : List WalRecord, records.Perm s.logged ∧
    (records.Pairwise fun a b => a.txnId < b.txnId) ∧
    (∀ op ∈ recordedOps cfg.chunkSize behind records, ValidPath op.path) ∧
    ∀ key, contentAt load s.trie key =
      (history (pathAccepted cfg) (recordedOps cfg.chunkSize behind records) key).foldl
        Write.apply (contentAt load base key)

section Step

variable {s' : SyncDb} {env : CallEnv} {code : Int}

theorem WriteCall.metTrie_spec (call : WriteCall) (h : TrieOk load s.trie) :
    TrieOk load (call.metTrie load s) ∧
      ∀ key, contentAt load (call.metTrie load s) key = contentAt load s.trie key := by
  cases call with
  | increment path delta => exact hbtrieFindAttach_spec h
  | put path value | delete path | writeBatch batch => exact ⟨h, fun _ => rfl⟩

theorem writeEntrySync_error {record : TransactionId → WalRecord} {op : TransactionId → TrieOp}
    (h : writeEntrySync cfg load s env record op = (s', .error code)) : s' = s := by
  unfold writeEntrySync at h
  split at h
  · cases h
    rfl
  split at h
  · cases h
  split at h
  · cases h
  · cases h
    rfl

theorem databaseIncrementSync_error {path : Path} {delta : Int}
    (h : databaseIncrementSync cfg load s env path delta = (s', .error code)) :
    s'.wal = s.wal ∧ s'.trie = hbtrieFindAttach load s.trie (pathSteps path) := by
  unfold databaseIncrementSync at h
  split at h
  · split at h
    · cases h
    · cases h
      exact ⟨rfl, rfl⟩
  · split at h
    · cases h
    · cases h
      exact ⟨rfl, rfl⟩

/-- A batch that is recorded, accepted and applied as a whole fails before its transaction. -/
theorem databaseWriteBatchSync_error [Libcbor] {batch batch' : Batch} (hencodes : env.encodes)
    (haccepts : s.walAccepts env (batchRecord batch (s.nextId env)))
    (happlied : (applyBatch cfg load (s.nextId env) s.trie batch.ops).2)
    (h : databaseWriteBatchSync cfg load s env batch = (s', batch', .error code)) : s' = s := by
  have hbegun : (writeBatchInTransaction cfg load (s.begin env) env batch (s.nextId env)).2 =
      .ok 0 := by
    have haccepts' : (s.begin env).walAccepts env (batchRecord batch (s.nextId env)) = true :=
      haccepts
    have htrie := ((s.begin env).writeWal_frame env (batchRecord batch (s.nextId env))).1
    unfold writeBatchInTransaction finishBatch
    simp only [hencodes, haccepts', Bool.not_true, Bool.and_false, Bool.false_eq_true, if_false]
    split
    · rfl
    · rename_i trie heq
      rw [htrie] at heq
      have hfalse : (applyBatch cfg load (s.nextId env) s.trie batch.ops).2 = false :=
        congrArg Prod.snd heq
      rw [happlied] at hfalse
      cases hfalse
  unfold databaseWriteBatchSync at h
  split at h
  · cases h
    rfl
  split at h
  · cases h
    rfl
  split at h
  · cases h
  split at h
  · cases h
    rfl
  split at h
  · rw [hbegun] at h
    cases h
  · cases h
    rfl

variable [Libcbor] {behind : Bytes} (h : ReplayInv cfg load behind base s)
  (hallowed : replaySafe cfg load s (env, call) = true)

include h hallowed

theorem ReplayInv.ok (hok : (call.run cfg load s env).2 = .ok value) :
    ReplayInv cfg load behind base (call.run cfg load s env).1 := by
  simp only [replaySafe, Bool.and_eq_true, List.all_eq_true, decide_eq_true_eq] at hallowed
  obtain ⟨⟨⟨⟨hlogs, -⟩, hids⟩, hvalid⟩, hsafe⟩ := hallowed
  obtain ⟨record, hrecord, hgrown, hdescribes⟩ := logged_of_logsExactly hok hlogs
  obtain ⟨-, htrie⟩ := WriteCall.run_ok hok
  obtain ⟨hmet, hmetContent⟩ := call.metTrie_spec h.trie
  obtain ⟨htrieOk, hcontent⟩ := foldl_applyOp_content hmet hvalid hsafe
  rw [← htrie] at htrieOk hcontent
  obtain ⟨records, hperm, hascending, hvalids, hkeys⟩ := h.log
  have hops : recordedOps cfg.chunkSize behind (records ++ [record]) =
      recordedOps cfg.chunkSize behind records ++ call.ops load s env := by
    rw [recordedOps, flatMap_append, flatMap_singleton, hdescribes.replayed]
    rfl
  refine ⟨htrieOk, records ++ [record], ?_, ?_, fun op hop => ?_, fun key => ?_⟩
  · exact (perm_append_singleton record records).trans ((hperm.cons record).trans hgrown.symm)
  · refine pairwise_append.mpr ⟨hascending, pairwise_singleton _ _, fun r hr r' hr' => ?_⟩
    rw [mem_singleton.mp hr', WriteCall.record_txnId hrecord]
    exact hids r (hperm.mem_iff.mp hr)
  · rw [hops] at hop
    rcases mem_append.mp hop with hop | hop
    · exact hvalids op hop
    · exact hvalid op hop
  · rw [hops, history, filterMap_append, foldl_append, ← history, ← hkeys key, ← hmetContent key]
    exact hcontent key

theorem ReplayInv.step : ReplayInv cfg load behind base (call.run cfg load s env).1 := by
  cases hresult : (call.run cfg load s env).2 with
  | ok value => exact h.ok hallowed hresult
  | error code =>
    cases call with
    | put path value | delete path =>
      rw [← writeEntrySync_error (Prod.ext rfl hresult)] at h
      exact h
    | increment path delta =>
      obtain ⟨hwal, htrie⟩ := databaseIncrementSync_error (Prod.ext rfl hresult)
      obtain ⟨hok, hcontent⟩ := @hbtrieFindAttach_spec (pathSteps path) load s.trie h.trie
      rw [← htrie] at hok hcontent
      obtain ⟨records, hperm, hids, hvalid, hkeys⟩ := h.log
      rw [SyncDb.logged, ← hwal] at hperm
      exact ⟨hok, records, hperm, hids, hvalid, fun key => (hcontent key).trans (hkeys key)⟩
    | writeBatch batch =>
      simp only [replaySafe, Bool.and_eq_true, List.all_eq_true, decide_eq_true_eq] at hallowed
      obtain ⟨⟨⟨⟨hlogs, haccepted⟩, -⟩, hvalid⟩, hsafe⟩ := hallowed
      obtain ⟨record, hrecord, -, hencodes, haccepts, -⟩ := logsExactly_iff.mp hlogs
      cases hrecord
      have happlied := applyBatch_accepted h.trie
        (fun path value hop => all_eq_true.mp haccepted (.put path value) hop) hvalid hsafe
      have hsame : (WriteCall.run cfg load s env (.writeBatch batch)).1 = s :=
        databaseWriteBatchSync_error hencodes haccepts happlied
          (Prod.ext rfl (Prod.ext rfl hresult))
      rwa [hsame]

end Step

/-- The log in any order by id is the one that the invariant has. -/
theorem ReplayInv.find_eq [Libcbor] {behind : Bytes}
    (h : ReplayInv cfg load behind base s) (hbase : TrieOk load base)
    {sorted : List WalRecord} (hperm : sorted.Perm s.logged)
    (hsorted : sorted.Pairwise fun a b => a.txnId ≤ b.txnId)
    (hsafe : opsSplitSafely cfg load base (recordedOps cfg.chunkSize behind sorted)) {q : Path}
    (hq : ValidPath q) :
    hbtrieFindUnsafe load (replayOnto cfg load behind base sorted) q =
      hbtrieFindUnsafe load s.trie q := by
  obtain ⟨records, hrecords, hids, hvalid, hkeys⟩ := h.log
  have hnodup : (records.map WalRecord.txnId).Nodup := pairwise_map.mpr (hids.imp fun hlt => hlt.ne)
  have hsame := hperm.trans hrecords.symm
  obtain rfl : sorted = records := by
    refine hsame.eq_of_pairwise ?_ hsorted (hids.imp fun hlt => hlt.le)
    intro a b ha hb hab hba
    exact inj_on_of_nodup_map hnodup (hsame.mem_iff.mp ha) hb (le_antisymm hab hba)
  obtain ⟨-, hcontent⟩ := foldl_applyOp_content hbase hvalid hsafe
  rw [hbtrieFindUnsafe_eq load _ hq, hbtrieFindUnsafe_eq load _ hq, hkeys, ← hcontent]
  rfl

end Runs

/-- A call that succeeds is logged exactly when it makes a record that is encoded and accepted and
loses nothing; the log of such calls replays to the newest values. -/
theorem acknowledged_writes_logged [Libcbor] (cfg : Config) (load : Loader) :
    (∀ s env call, Acknowledged cfg load s env call →
      (LoggedExactly cfg load s env call ↔ logsExactly cfg load s env call = true)) ∧
    ∀ s₀ s : SyncDb, TrieOk load s₀.trie → s₀.logged = [] →
      Reaches (callStep cfg load) (replaySafe cfg load) s₀ s →
      ∀ (behind : Bytes) (sorted : List WalRecord), sorted.Perm s.logged →
        (sorted.Pairwise fun a b => a.txnId ≤ b.txnId) →
        opsSplitSafely cfg load s₀.trie (recordedOps cfg.chunkSize behind sorted) = true →
        ∀ q, ValidPath q → hbtrieFindUnsafe load (replayOnto cfg load behind s₀.trie sorted) q =
          hbtrieFindUnsafe load s.trie q := by
  constructor
  · rintro s env call ⟨⟨value, hok⟩, -⟩
    exact loggedExactly_iff hok
  · intro s₀ s htrie hlog hrun behind sorted hperm hsorted hsafe q hq
    have hinv : ReplayInv cfg load behind s₀.trie s := by
      refine hrun.invariant (ReplayInv cfg load behind s₀.trie)
        ⟨htrie, [], by rw [hlog], .nil, forall_mem_nil _, fun _ => rfl⟩ ?_
      rintro s ⟨env, call⟩ s' hinv hallowed hstep
      obtain rfl := some.inj hstep
      exact hinv.step hallowed
    exact hinv.find_eq htrie hperm hsorted hsafe hq

/-! ### Calls that are not logged -/

def oneThreadWal : WalManager :=
  (walStep (walManagerCreate ⟨1000, 10, true⟩ emptyDisk) (.create 1)).getD
    (walManagerCreate ⟨1000, 10, true⟩ emptyDisk)

def freshDb (syncOnly : Bool) : SyncDb :=
  { syncOnly, generator := firstId, manager := txManagerCreate, trie := hbtrieNodeCreate
    wal := some oneThreadWal }

def calmEnv : CallEnv :=
  { clock := stoppedClock, second := 1, thread := 0, vacuum := 0, allocates := true
    begins := true, encodes := true, walIoFails := false }

section Fresh

attribute [local instance] headCbor

theorem acknowledged_of_isSome {syncOnly : Bool} {env : CallEnv} (value : Int) (key : List Chunk)
    (hok : (call.run defaultConfig noLoader (freshDb syncOnly) env).2 = .ok value)
    (hsome : (contentAt noLoader (call.run defaultConfig noLoader (freshDb syncOnly) env).1.trie
      key).isSome) : Acknowledged defaultConfig noLoader (freshDb syncOnly) env call := by
  refine ⟨⟨value, hok⟩, key, fun heq => ?_⟩
  rw [heq, show (freshDb syncOnly).trie = hbtrieNodeCreate from rfl, contentAt_create] at hsome
  cases hsome

def logsInOrder (s : SyncDb) : Bool :=
  decide (s.logged.Pairwise fun a b => a.txnId ≤ b.txnId) &&
    opsSplitSafely defaultConfig noLoader hbtrieNodeCreate
      (recordedOps defaultConfig.chunkSize [] s.logged) &&
    decide (hbtrieFindUnsafe noLoader s.trie (bytePath 1) = some [57])

/-- A put of the text 2, and an increment of it by 7 in sync-only mode. -/
theorem acknowledged_writes_logged_fresh :
    LoggedExactly defaultConfig noLoader (freshDb true) calmEnv (.put (bytePath 1) [50]) ∧
    ∃ s, Reaches (callStep defaultConfig noLoader) (replaySafe defaultConfig noLoader)
        (freshDb true) s ∧
      hbtrieFindUnsafe noLoader s.trie (bytePath 1) = some [57] ∧
      hbtrieFindUnsafe noLoader (replayOnto defaultConfig noLoader [] hbtrieNodeCreate s.logged)
        (bytePath 1) = some [57] := by
  obtain ⟨hlogged, hreplay⟩ := acknowledged_writes_logged defaultConfig noLoader
  constructor
  · refine (hlogged (freshDb true) calmEnv (.put (bytePath 1) [50]) ?_).mpr (by decide +kernel)
    exact acknowledged_of_isSome 0 (pathChunks (bytePath 1)) rfl (by decide +kernel)
  · obtain ⟨s, hs, hp⟩ : ∃ s, Reaches (callStep defaultConfig noLoader)
        (replaySafe defaultConfig noLoader) (freshDb true) s ∧ logsInOrder s = true :=
      exists_reaches [(calmEnv, .put (bytePath 1) [50]), (calmEnv, .increment (bytePath 1) 7)]
        (by decide +kernel)
    simp only [logsInOrder, Bool.and_eq_true, decide_eq_true_eq] at hp
    obtain ⟨⟨hsorted, hsafe⟩, hvalue⟩ := hp
    refine ⟨s, hs, hvalue, ?_⟩
    rw [← hvalue]
    exact hreplay (freshDb true) s (.create noLoader) (by decide) hs [] s.logged (.refl _)
      hsorted hsafe (bytePath 1) (by decide)

theorem not_loggedExactly {env : CallEnv}
    (h : (call.run defaultConfig noLoader s env).1.logged = s.logged) :
    ¬ LoggedExactly defaultConfig noLoader s env call := by
  rintro ⟨record, hperm, -⟩
  have hlength := hperm.length_eq
  rw [h, length_cons] at hlength
  omega

/-- An increment in concurrent mode, and a put whose record cannot be allocated: both return
success, and a replay of the log knows nothing of them. -/
theorem increment_not_logged :
    (Acknowledged defaultConfig noLoader (freshDb false) calmEnv (.increment (bytePath 1) 7) ∧
      ¬ LoggedExactly defaultConfig noLoader (freshDb false) calmEnv (.increment (bytePath 1) 7)) ∧
    Acknowledged defaultConfig noLoader (freshDb true) { calmEnv with encodes := false }
        (.put (bytePath 1) [50]) ∧
      ¬ LoggedExactly defaultConfig noLoader (freshDb true) { calmEnv with encodes := false }
        (.put (bytePath 1) [50]) := by
  refine ⟨⟨?_, not_loggedExactly rfl⟩, ?_, not_loggedExactly rfl⟩
  · exact acknowledged_of_isSome 7 (pathChunks (bytePath 1)) (by rfl) (by decide +kernel)
  · exact acknowledged_of_isSome 0 (pathChunks (bytePath 1)) rfl (by decide +kernel)

end Fresh

end WaveDB.Database
