import WaveDB.Database.Concurrent
import WaveDB.Database.WalCodec
import WaveDB.Database.WalRecover
import WaveDB.HBTrie.GcCutoff
import WaveDB.HBTrie.SnapshotRead

/-!
Replaying the log (`wal_manager_recover` in `Database/wal_manager.c`, the concurrent paths of
`database_put_sync` and `database_delete_sync` in `Database/database.c`).

A writer takes an id, appends its record, applies its call to the trie under the write lock
and commits. Recovery sorts all records by id and applies them to an empty trie, so that the
order of the ids takes the place of the order of the locks. A decoder copies every component into
a buffer of its own; `behind` is what follows those of length 0.
-/

namespace WaveDB.Database

open WaveDB.Basis Workers HBTrie List Option

/-! ### Recovery -/

variable (cs : ChunkSize) (behind : Bytes)

/-- The call that `wal_manager_recover` makes for a record of a put or a delete; `none` where it
breaks out of the case. An insert without a value returns -1. -/
def decodeRecord (record : WalRecord) : Option TrieOp :=
  if record.type = walPut then
    match decodePutEntryOver cs behind record.data with
    | some (path, some value) => some (.insert path value record.txnId)
    | _ => none
  else if record.type = walDelete then
    (decodeDeleteEntryOver cs behind record.data).map fun path => .delete path record.txnId
  else none

def replayedOps (entries : List RecoveryEntry) : List TrieOp :=
  entries.filterMap fun entry => decodeRecord cs behind entry.record

/-- `qsort` leaves the entries in some order by transaction id. -/
structure SortedEntries (entries sorted : List RecoveryEntry) : Prop where
  perm : sorted.Perm entries
  sorted : sorted.Pairwise fun a b => a.record.txnId ≤ b.record.txnId

/-- The trie and `last_committed` after recovery into an empty trie. -/
structure Recovered where
  trie : HbtrieNode
  lastCommittedTxnId : TransactionId

def replayEntries (cfg : Config) (load : Loader) (behind : Bytes)
    (sorted : List RecoveryEntry) : Recovered :=
  { trie := runOps cfg load (replayedOps cfg.chunkSize behind sorted)
    lastCommittedTxnId := maxTxnId sorted }

/-! ### Writers with a log -/

/-- The put (a value) or the delete of a transaction. -/
structure LoggedCall where
  txnId : TransactionId
  components : List Bytes
  value : Option Bytes
deriving DecidableEq

def LoggedCall.op (call : LoggedCall) : TrieOp :=
  match call.value with
  | some value => .insert (pathOf cs call.components) value call.txnId
  | none => .delete (pathOf cs call.components) call.txnId

def LoggedCall.record (call : LoggedCall) : WalRecord :=
  match call.value with
  | some value => ⟨walPut, call.txnId, encodePutEntryBinary (pathOf cs call.components) value⟩
  | none => ⟨walDelete, call.txnId, encodeDeleteEntryBinary (pathOf cs call.components)⟩

/-- The database, the records in the WAL files of all threads, the calls that are logged and not
applied, those that are applied (in this order), and the ids of those that are applied and not
committed. -/
structure LoggedState where
  db : DbState
  log : List LoggedCall
  waiting : List LoggedCall
  applied : List LoggedCall
  uncommitted : List TransactionId

def LoggedState.initial (generator : IdGenerator) : LoggedState :=
  { db := .initial generator hbtrieNodeCreate, log := [], waiting := [], applied := []
    uncommitted := [] }

inductive LoggedAction where
  | takeId (clock : ClockReading)
  | register (id : TransactionId)
  | append (call : LoggedCall)
  | apply (call : LoggedCall)
  | commit (id : TransactionId)

def loggedStep (cfg : Config) (load : Loader) (s : LoggedState) : LoggedAction → Option LoggedState
  | .takeId clock => (dbStep cfg load s.db (.takeId clock)).map fun db => { s with db }
  | .register id => (dbStep cfg load s.db (.register id)).map fun db => { s with db }
  | .append call =>
    if s.db.mvcc.manager.isActive call.txnId then
      some { s with log := s.log ++ [call], waiting := s.waiting ++ [call] }
    else none
  | .apply call =>
    if call ∈ s.waiting then
      (dbStep cfg load s.db (.apply (call.op cfg.chunkSize))).map fun db =>
        { s with
          db
          waiting := s.waiting.erase call
          applied := s.applied ++ [call]
          uncommitted := s.uncommitted ++ [call.txnId] }
    else none
  | .commit id =>
    if id ∈ s.uncommitted then
      (dbStep cfg load s.db (.commit id)).map fun db =>
        { s with db, uncommitted := s.uncommitted.erase id }
    else none

def LoggedState.Quiescent (s : LoggedState) : Prop := s.waiting = [] ∧ s.uncommitted = []

instance (s : LoggedState) : Decidable s.Quiescent := inferInstanceAs (Decidable (_ ∧ _))

/-- The record can be read back: path and value fit their fields, and neither the value nor a
component is empty. -/
def LoggedCall.Fits (call : LoggedCall) : Prop :=
  (call.components ≠ [] ∧ ∀ data ∈ call.components, data ≠ []) ∧
    (call.components.length < 256 ^ 2 ∧ ∀ data ∈ call.components, data.length < 256 ^ 2) ∧
    ∀ value ∈ call.value, 0 < value.length ∧ value.length < 256 ^ 4

instance (call : LoggedCall) : Decidable call.Fits :=
  inferInstanceAs (Decidable ((_ ∧ _) ∧ (_ ∧ _) ∧ _))

/-- Records fit, and a call is applied only after those with smaller ids on the same chunks and
without splitting a leaf at or below its separator. -/
def appliesInIdOrder (cfg : Config) (load : Loader) (s : LoggedState) : LoggedAction → Bool
  | .append call => call.Fits
  | .apply call =>
    opSplitsSafely cfg load s.db.trie (call.op cfg.chunkSize) &&
      s.applied.all fun earlier =>
        pathChunks (pathOf cfg.chunkSize earlier.components) ≠
          pathChunks (pathOf cfg.chunkSize call.components) ∨ earlier.txnId < call.txnId
  | _ => true

/-! ### Records of calls -/

section Records

variable {cs : ChunkSize} {call : LoggedCall}

@[simp] theorem LoggedCall.op_txnId : (call.op cs).txnId = call.txnId := by
  unfold op
  split <;> rfl

@[simp] theorem LoggedCall.op_path : (call.op cs).path = pathOf cs call.components := by
  unfold op
  split <;> rfl

theorem decodeRecord_record (h : call.Fits) (behind : Bytes) :
    decodeRecord cs behind (call.record cs) = some (call.op cs) := by
  obtain ⟨⟨-, hne⟩, hpath, hvalue⟩ := h
  have hover := pathOver_of_nonempty cs hne behind
  cases hv : call.value with
  | some value =>
    obtain ⟨hpos, hlt⟩ := hvalue value hv
    simp only [decodeRecord, LoggedCall.record, LoggedCall.op, hv,
      decodePut_of_fits hpath hpos hlt, hover, if_pos]
  | none =>
    have hne : walDelete ≠ walPut := by decide
    simp only [decodeRecord, LoggedCall.record, LoggedCall.op, hv, decodeDelete_of_fits hpath,
      hover, if_neg hne, if_pos, map_some]

end Records

/-! ### The live database -/

/-- What holds in every state of a run: the log is what was applied and what waits, each key
holds what the applied calls left there, the calls on a key are in order, and committed calls
are not above `last_committed`. -/
structure LogInv (cfg : Config) (load : Loader) (s : LoggedState) : Prop where
  logged : s.log.Perm (s.applied ++ s.waiting)
  fits : ∀ call ∈ s.log, call.Fits
  trie : TrieOk load s.db.trie
  content : ∀ key, contentAt load s.db.trie key =
    contentOf (history (pathAccepted cfg) (s.applied.map (LoggedCall.op cfg.chunkSize)) key)
  ordered : s.applied.Pairwise fun a b => pathChunks (pathOf cfg.chunkSize a.components) =
    pathChunks (pathOf cfg.chunkSize b.components) → a.txnId < b.txnId
  committed : ∀ call ∈ s.applied,
    call.txnId ≤ s.db.mvcc.manager.lastCommittedTxnId ∨ call.txnId ∈ s.uncommitted

section Steps

variable {cfg : Config} {load : Loader} {s s' : LoggedState} {call : LoggedCall}

theorem LogInv.initial (generator : IdGenerator) :
    LogInv cfg load (LoggedState.initial generator) where
  logged := List.Perm.refl _
  fits := nofun
  trie := TrieOk.create load
  content := contentAt_create load
  ordered := List.Pairwise.nil
  committed := nofun

variable (h : LogInv cfg load s)

include h

/-- Steps that only change the transaction manager, and keep `last_committed`. -/
theorem LogInv.manager {mvcc : MvccState}
    (hlast : mvcc.manager.lastCommittedTxnId = s.db.mvcc.manager.lastCommittedTxnId) :
    LogInv cfg load { s with db := { s.db with mvcc } } :=
  { h with
    committed := fun call hcall => by
      rw [hlast]
      exact h.committed call hcall }

theorem LogInv.append (hfits : call.Fits) :
    LogInv cfg load { s with log := s.log ++ [call], waiting := s.waiting ++ [call] } :=
  { h with
    logged := by
      rw [← append_assoc]
      exact h.logged.append_right [call]
    fits := fun c hc => by
      rcases mem_append.mp hc with hc | hc
      · exact h.fits c hc
      · rw [mem_singleton.mp hc]
        exact hfits }

theorem LogInv.apply (hwaiting : call ∈ s.waiting)
    (hallowed : appliesInIdOrder cfg load s (.apply call))
    (hstep : loggedStep cfg load s (.apply call) = some s') : LogInv cfg load s' := by
  simp only [appliesInIdOrder, Bool.and_eq_true, List.all_eq_true, decide_eq_true_eq] at hallowed
  simp only [loggedStep, if_pos hwaiting, dbStep] at hstep
  obtain ⟨db, hdb, rfl⟩ := map_eq_some_iff.mp hstep
  obtain ⟨-, ⟨⟩⟩ := ite_none_right_eq_some.mp hdb
  have hlog : call ∈ s.log := h.logged.mem_iff.mpr (mem_append_right _ hwaiting)
  have hvalid : ValidPath (call.op cfg.chunkSize).path := by
    rw [LoggedCall.op_path]
    exact pathOf_valid _ (h.fits call hlog).1.1
  obtain ⟨htrie, hcontent⟩ := applyOp_spec h.trie hvalid hallowed.1
  constructor
  · refine h.logged.trans ?_
    rw [append_assoc]
    exact (perm_cons_erase hwaiting).append_left s.applied
  · exact h.fits
  · exact htrie
  · intro key
    rw [hcontent, map_append, map_singleton, contentOf_history_concat, h.content]
  · refine pairwise_append.mpr ⟨h.ordered, pairwise_singleton _ _, ?_⟩
    intro earlier hearlier later hlater hkey
    rw [mem_singleton.mp hlater] at hkey ⊢
    exact (hallowed.2 earlier hearlier).resolve_left fun hne => hne hkey
  · intro c hc
    rcases mem_append.mp hc with hc | hc
    · exact (h.committed c hc).imp_right fun hid => mem_append_left _ hid
    · rw [mem_singleton.mp hc]
      exact .inr (mem_append_right _ mem_cons_self)

theorem LogInv.commit {id : TransactionId} (hstep : loggedStep cfg load s (.commit id) = some s') :
    LogInv cfg load s' := by
  obtain ⟨-, hstep⟩ := ite_none_right_eq_some.mp hstep
  obtain ⟨db, hdb, rfl⟩ := map_eq_some_iff.mp hstep
  obtain ⟨mvcc, hmvcc, rfl⟩ := map_eq_some_iff.mp hdb
  obtain ⟨-, ⟨⟩⟩ := ite_none_right_eq_some.mp hmvcc
  have hraise := le_raiseLastCommitted s.db.mvcc.manager id
  refine { h with committed := ?_ }
  intro call hcall
  rcases h.committed call hcall with hle | hmem
  · exact .inl (hle.trans hraise.1)
  · by_cases heq : call.txnId = id
    · rw [heq]
      exact .inl hraise.2
    · exact .inr ((mem_erase_of_ne heq).mpr hmem)

theorem LogInv.step {action : LoggedAction} (hallowed : appliesInIdOrder cfg load s action)
    (hstep : loggedStep cfg load s action = some s') : LogInv cfg load s' := by
  cases action with
  | takeId clock =>
    simp only [loggedStep, dbStep] at hstep
    obtain ⟨db, hdb, rfl⟩ := map_eq_some_iff.mp hstep
    obtain ⟨mvcc, ⟨⟩, rfl⟩ := map_eq_some_iff.mp hdb
    exact h.manager rfl
  | register id =>
    obtain ⟨db, hdb, rfl⟩ := map_eq_some_iff.mp hstep
    obtain ⟨mvcc, hmvcc, rfl⟩ := map_eq_some_iff.mp hdb
    obtain ⟨-, ⟨⟩⟩ := ite_none_right_eq_some.mp hmvcc
    exact h.manager rfl
  | append call =>
    obtain ⟨-, ⟨⟩⟩ := ite_none_right_eq_some.mp hstep
    exact h.append (of_decide_eq_true hallowed)
  | apply call =>
    have hwaiting := (ite_none_right_eq_some.mp hstep).1
    exact h.apply hwaiting hallowed hstep
  | commit id => exact h.commit hstep

end Steps

/-! ### Recovered and live -/

theorem le_newerTxnId (max : TransactionId) (entry : RecoveryEntry) :
    max ≤ newerTxnId max entry ∧ entry.record.txnId ≤ newerTxnId max entry := by
  rw [newerTxnId]
  split
  · next hgt => exact ⟨((transactionIdCompare_gt ..).mp hgt).le, le_rfl⟩
  · rename_i hgt
    rw [transactionIdCompare_gt, not_lt] at hgt
    exact ⟨le_rfl, hgt⟩

theorem le_foldl_newerTxnId (entries : List RecoveryEntry) (start : TransactionId) :
    start ≤ entries.foldl newerTxnId start ∧
      ∀ entry ∈ entries, entry.record.txnId ≤ entries.foldl newerTxnId start := by
  induction entries generalizing start with
  | nil => exact ⟨le_rfl, nofun⟩
  | cons entry entries ih =>
    obtain ⟨hstart, hrest⟩ := ih (newerTxnId start entry)
    obtain ⟨hmax, hentry⟩ := le_newerTxnId start entry
    refine ⟨hmax.trans hstart, ?_⟩
    exact forall_mem_cons.mpr ⟨hentry.trans hstart, hrest⟩

theorem mem_replayedOps {cs : ChunkSize} {behind : Bytes} {log : List LoggedCall}
    {entries : List RecoveryEntry}
    (hfits : ∀ call ∈ log, call.Fits) (hlog : ∀ record, record ∈ entries.map RecoveryEntry.record ↔
      record ∈ log.map (LoggedCall.record cs)) (op : TrieOp) :
    op ∈ replayedOps cs behind entries ↔ op ∈ log.map (LoggedCall.op cs) := by
  rw [replayedOps, mem_filterMap, List.mem_map]
  constructor
  · rintro ⟨entry, hentry, hdecode⟩
    obtain ⟨call, hcall, heq⟩ := mem_map.mp ((hlog entry.record).mp (mem_map_of_mem hentry))
    rw [← heq, decodeRecord_record (hfits call hcall)] at hdecode
    exact ⟨call, hcall, some.inj hdecode⟩
  · rintro ⟨call, hcall, rfl⟩
    obtain ⟨entry, hentry, heq⟩ := mem_map.mp ((hlog (call.record cs)).mpr (mem_map_of_mem hcall))
    refine ⟨entry, hentry, ?_⟩
    rw [heq]
    exact decodeRecord_record (hfits call hcall) behind

theorem decodeRecord_txnId {cs : ChunkSize} {behind : Bytes} {record : WalRecord} {op : TrieOp}
    (h : decodeRecord cs behind record = some op) : op.txnId = record.txnId := by
  unfold decodeRecord at h
  split at h
  · split at h <;> cases h
    rfl
  · split at h
    · obtain ⟨path, -, rfl⟩ := map_eq_some_iff.mp h
      rfl
    · cases h

theorem replayedOps_sorted {cs : ChunkSize} {behind : Bytes} {sorted : List RecoveryEntry}
    (h : sorted.Pairwise fun a b => a.record.txnId ≤ b.record.txnId) :
    (replayedOps cs behind sorted).Pairwise fun a b => a.txnId ≤ b.txnId := by
  rw [replayedOps, pairwise_filterMap]
  refine h.imp ?_
  intro a b hle op hop op' hop'
  rw [decodeRecord_txnId hop, decodeRecord_txnId hop']
  exact hle

theorem pathChunks_of_writeTo {accept : Path → Bool} {key : List Chunk} {op : TrieOp}
    (h : (op.writeTo accept key).isSome) : pathChunks op.path = key := by
  cases op with
  | insert path value txnId =>
    simp only [TrieOp.writeTo] at h
    split at h
    · next hkey => exact hkey.1
    · cases h
  | delete path txnId =>
    simp only [TrieOp.writeTo] at h
    split at h
    · next hkey => exact hkey
    · cases h

theorem hbtrieFind_lastWrite {load : Loader} {trie : HbtrieNode} {accept : Path → Bool}
    {ops : List TrieOp} {q : Path} {readTxnId : TransactionId}
    (hcontent : ∀ key, contentAt load trie key = contentOf (history accept ops key))
    (hq : ValidPath q) (hread : ∀ op ∈ ops, op.txnId ≤ readTxnId) :
    hbtrieFind load trie q readTxnId = lastWrite (history accept ops (pathChunks q)) := by
  rw [hbtrieFind_eq load _ hq, hcontent]
  refine contentOf_visible _ fun w hw => ?_
  obtain ⟨op, hop, hwrite⟩ := mem_filterMap.mp hw
  exact TrieOp.writeTo_txnId hwrite ▸ hread op hop

/-- A replay of the log: recovery collects exactly the logged records, each at least once, and
sorts them by id; no insert of the replay splits a leaf at or below its separator. -/
structure Replays (cfg : Config) (load : Loader) (behind : Bytes) (log : List LoggedCall)
    (manifest : Bytes) (dir : WalDirectory) (sorted : List RecoveryEntry) : Prop where
  collected : ∀ record, record ∈ (collectEntries manifest dir).map RecoveryEntry.record ↔
    record ∈ log.map (LoggedCall.record cfg.chunkSize)
  order : SortedEntries (collectEntries manifest dir) sorted
  safe : SafeRun cfg load (replayedOps cfg.chunkSize behind sorted)

section Final

variable {cfg : Config} {load : Loader} {s : LoggedState} {behind manifest : Bytes}
  {dir : WalDirectory} {sorted : List RecoveryEntry}

variable (hinv : LogInv cfg load s) (hquiet : s.Quiescent)
  (hreplay : Replays cfg load behind s.log manifest dir sorted)

include hinv hquiet hreplay

theorem mem_applied_iff_replayed (op : TrieOp) : op ∈ s.applied.map (LoggedCall.op cfg.chunkSize) ↔
      op ∈ replayedOps cfg.chunkSize behind sorted := by
  have hlog : s.log.Perm s.applied := by
    have hlogged := hinv.logged
    rwa [hquiet.1, append_nil] at hlogged
  have hrecords : ∀ record, record ∈ sorted.map RecoveryEntry.record ↔
      record ∈ s.log.map (LoggedCall.record cfg.chunkSize) := by
    intro record
    rw [(hreplay.order.perm.map RecoveryEntry.record).mem_iff]
    exact hreplay.collected record
  rw [mem_replayedOps hinv.fits hrecords, (hlog.map _).mem_iff]

theorem lastWrite_applied_eq_replayed (accept : Path → Bool) (key : List Chunk) :
    lastWrite (history accept (s.applied.map (LoggedCall.op cfg.chunkSize)) key) =
      lastWrite (history accept (replayedOps cfg.chunkSize behind sorted) key) := by
  have hordered : (s.applied.map (LoggedCall.op cfg.chunkSize)).Pairwise fun a b =>
      (a.writeTo accept key).isSome → (b.writeTo accept key).isSome → a.txnId < b.txnId := by
    rw [pairwise_map]
    refine hinv.ordered.imp ?_
    intro a b hlt ha hb
    rw [LoggedCall.op_txnId, LoggedCall.op_txnId]
    apply hlt
    rw [← LoggedCall.op_path, ← LoggedCall.op_path, pathChunks_of_writeTo ha,
      pathChunks_of_writeTo hb]
  have hlast := getLast?_filterMap_eq (mem_applied_iff_replayed hinv hquiet hreplay) hordered
    (replayedOps_sorted hreplay.order.sorted)
  rw [lastWrite, lastWrite, history, history, hlast]

end Final

/-- In every quiescent state of a run that applies the calls on each key in the order of their ids,
recovery gives every path the newest visible value of the live trie. -/
theorem recovered_eq_live (cfg : Config) (load : Loader) (generator : IdGenerator) (s : LoggedState)
    (hrun : Reaches (loggedStep cfg load) (appliesInIdOrder cfg load) (.initial generator) s)
    (hquiet : s.Quiescent) (behind manifest : Bytes) (dir : WalDirectory)
    (sorted : List RecoveryEntry) (hreplay : Replays cfg load behind s.log manifest dir sorted)
    (components : List Bytes) :
    hbtrieFind load (replayEntries cfg load behind sorted).trie (pathOf cfg.chunkSize components)
        (replayEntries cfg load behind sorted).lastCommittedTxnId =
      hbtrieFind load s.db.trie (pathOf cfg.chunkSize components)
        s.db.mvcc.manager.lastCommittedTxnId := by
  have hinv : LogInv cfg load s := hrun.invariant (LogInv cfg load) (.initial generator)
    fun _ _ _ h hallowed hstep => h.step hallowed hstep
  cases components with
  | nil => rfl
  | cons data components =>
    have hvalid := pathOf_valid cfg.chunkSize (cons_ne_nil data components)
    have hlive : ∀ op ∈ s.applied.map (LoggedCall.op cfg.chunkSize),
        op.txnId ≤ s.db.mvcc.manager.lastCommittedTxnId := by
      intro op hop
      obtain ⟨call, hcall, rfl⟩ := mem_map.mp hop
      rw [LoggedCall.op_txnId]
      refine (hinv.committed call hcall).resolve_right ?_
      rw [hquiet.2]
      exact not_mem_nil
    have hreplayed : ∀ op ∈ replayedOps cfg.chunkSize behind sorted,
        op.txnId ≤ maxTxnId sorted := by
      intro op hop
      obtain ⟨entry, hentry, hdecode⟩ := mem_filterMap.mp hop
      rw [decodeRecord_txnId hdecode]
      exact (le_foldl_newerTxnId sorted ⟨0, 0, 0⟩).2 entry hentry
    rw [hbtrieFind_lastWrite hinv.content hvalid hlive,
      lastWrite_applied_eq_replayed hinv hquiet hreplay]
    exact hbtrieFind_lastWrite (contentAt_runOps hreplay.safe).2 hvalid hreplayed

/-! ### Two writers -/

def putCount (count : UInt8) : LoggedCall :=
  { txnId := ⟨0, 0, count.toUInt64⟩, components := [[1]], value := some [count] }

/-- Transactions 1 and 2 log their puts; `first` is applied before `second`. -/
def loggedWriters (first second : UInt8) : List LoggedAction :=
  [.takeId stoppedClock, .takeId stoppedClock, .register ⟨0, 0, 1⟩, .register ⟨0, 0, 2⟩,
    .append (putCount 1), .append (putCount 2), .apply (putCount first), .apply (putCount second),
    .commit ⟨0, 0, first.toUInt64⟩, .commit ⟨0, 0, second.toUInt64⟩]

def writersRecords : List WalRecord :=
  [putCount 1, putCount 2].map (LoggedCall.record defaultChunkSize)

def writersFile : WalDirectory where
  location := ascii ['d']
  files := [(threadPath, writersRecords.flatMap encodeWalRecord)]
  distinct := List.nodup_singleton _

def writersManifest : Bytes := manifestFile [manifestEntry 1 threadPath .active ⟨0, 0, 0⟩]

def writersEntries : List RecoveryEntry := recoveryEntries threadPath 0 writersRecords

theorem collectEntries_writers : collectEntries writersManifest writersFile = writersEntries := by
  have hread : readWalFile (writersRecords.flatMap encodeWalRecord) = writersRecords :=
    readWalFile_encode (by decide)
  rw [collectEntries, writersManifest, filesRead_eq (manifestEntries_manifestFile _)]
  change recoveryEntries threadPath 0 (readWalFile (writersRecords.flatMap encodeWalRecord)) ++ [] =
    _
  rw [hread, append_nil, writersEntries]

theorem writersEntries_replays :
    Replays defaultConfig noLoader [] [putCount 1, putCount 2] writersManifest writersFile
      writersEntries := by
  constructor
  · intro record
    rw [collectEntries_writers]
    exact Iff.rfl
  · rw [collectEntries_writers]
    exact ⟨List.Perm.refl _, by decide⟩
  · exact ⟨by decide +kernel, by decide +kernel⟩

/-- Two writers of one key. -/
theorem recovered_eq_live_writers :
    ∃ s, Reaches (loggedStep defaultConfig noLoader) (appliesInIdOrder defaultConfig noLoader)
        (.initial firstId) s ∧
      hbtrieFind noLoader (replayEntries defaultConfig noLoader [] writersEntries).trie
          (pathOf defaultChunkSize [[1]])
          (replayEntries defaultConfig noLoader [] writersEntries).lastCommittedTxnId =
        hbtrieFind noLoader s.db.trie (pathOf defaultChunkSize [[1]])
          s.db.mvcc.manager.lastCommittedTxnId := by
  obtain ⟨s, hs, hlog, hquiet⟩ : ∃ s, Reaches (loggedStep defaultConfig noLoader)
      (appliesInIdOrder defaultConfig noLoader) (.initial firstId) s ∧
        s.log = [putCount 1, putCount 2] ∧ s.Quiescent :=
    exists_reaches (loggedWriters 1 2) (by decide +kernel)
  refine ⟨s, hs, recovered_eq_live defaultConfig noLoader firstId s hs hquiet [] writersManifest
    writersFile writersEntries ?_ [[1]]⟩
  rw [hlog]
  exact writersEntries_replays

/-- The writer with id 2 takes the lock first: the live trie has the value of 1 and the recovered
one that of 2. -/
theorem recovered_differs_from_live :
    ∃ s, Reaches (loggedStep defaultConfig noLoader) always (.initial firstId) s ∧ s.Quiescent ∧
      Replays defaultConfig noLoader [] s.log writersManifest writersFile writersEntries ∧
      hbtrieFind noLoader s.db.trie (pathOf defaultChunkSize [[1]])
        s.db.mvcc.manager.lastCommittedTxnId = some [1] ∧
      hbtrieFind noLoader (replayEntries defaultConfig noLoader [] writersEntries).trie
        (pathOf defaultChunkSize [[1]])
        (replayEntries defaultConfig noLoader [] writersEntries).lastCommittedTxnId = some [2] := by
  obtain ⟨s, hs, hlog, hquiet, hlive⟩ : ∃ s, Reaches (loggedStep defaultConfig noLoader) always
      (.initial firstId) s ∧ s.log = [putCount 1, putCount 2] ∧ s.Quiescent ∧
        hbtrieFind noLoader s.db.trie (pathOf defaultChunkSize [[1]])
          s.db.mvcc.manager.lastCommittedTxnId = some [1] :=
    exists_reaches (loggedWriters 2 1) (by decide +kernel)
  refine ⟨s, hs, hquiet, ?_, hlive, by decide +kernel⟩
  rw [hlog]
  exact writersEntries_replays

end WaveDB.Database
