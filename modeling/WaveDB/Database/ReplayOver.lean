import WaveDB.Database.LoggedWrites
import WaveDB.Database.VersionOrder
import WaveDB.HBTrie.Stored

/-!
Replaying the log over a trie that was read from the page file (`wal_manager_recover` in
`Database/wal_manager.c`).

Recovery applies every record it collects with `hbtrie_insert` and `hbtrie_delete` at the
record's own id, and both push a version at the head of the chain whatever is there already. A page
keeps the ids of a chain and not that of a single value, which comes back with id 0.
-/

namespace WaveDB.Database

open WaveDB.Basis Workers HBTrie List Option RecoveryEntry

/-! ### Writes that enter the chain -/

def effective (writes : List Write) : List Write := writes.dropWhile Write.isDelete

def Ascends (writes : List Write) : Prop := writes.Pairwise fun a b => a.txnId < b.txnId

abbrev InIdOrder (records : List WalRecord) : Prop :=
  records.Pairwise fun a b => a.txnId < b.txnId

variable {w : Write} {path : Path} {trie : HbtrieNode} {records : List WalRecord}

section Writes

variable {writes before again after : List Write}

theorem ascends_iff_pairwise_ne (hsorted : writes.Pairwise fun a b => a.txnId ≤ b.txnId) :
    Ascends writes ↔ writes.Pairwise fun a b => a.txnId ≠ b.txnId :=
  ⟨fun h => h.imp fun hlt => hlt.ne,
    fun h => hsorted.imp₂ (fun _ _ hle hne => lt_of_le_of_ne hle hne) h⟩

theorem effective_eq_nil_iff : effective writes = [] ↔ ∀ w ∈ writes, w.isDelete = true :=
  dropWhile_eq_nil_iff

theorem effective_append_of_ne_nil (h : effective before ≠ []) :
    effective (before ++ after) = effective before ++ after := by
  rw [effective, dropWhile_append, if_neg]
  · rfl
  · simpa [effective] using h

theorem effective_append_of_nil (h : effective before = []) :
    effective (before ++ after) = effective after := by
  rw [effective, dropWhile_append, if_pos]
  · rfl
  · simpa [effective] using h

theorem ordered_contentOf_iff : (∀ content, contentOf writes = some content → Ordered content) ↔
      Ascends (effective writes) := by
  rcases contentOf_shape writes with ⟨hdrop, hcontent⟩ | ⟨w, value, hdrop, -, hcontent⟩ |
    ⟨w, w', rest, hdrop, hcontent⟩
  · rw [effective, hdrop, hcontent]
    simp [Ascends]
  · rw [effective, hdrop, hcontent]
    simp [Ascends, Ordered]
  · rw [effective, hdrop, hcontent]
    simp only [some.injEq, forall_eq', Ordered, Descending, pairwise_map,
      pairwise_reverse, Ascends, Write.version]

theorem effective_effective_append :
    effective (effective before ++ after) = effective (before ++ after) := by
  by_cases h : effective before = []
  · rw [h, effective_append_of_nil h, nil_append]
  · have hidem : effective (effective before) = effective before := dropWhile_idempotent _ before
    rw [effective_append_of_ne_nil h, effective_append_of_ne_nil (hidem.symm ▸ h), hidem]

/-- The writes that a page keeps: those of a chain, or the one of a single value without its id. -/
def keptWrites (writes : List Write) : List Write :=
  match effective writes with
  | [w] => [{ w with txnId := ⟨0, 0, 0⟩ }]
  | kept => kept

theorem keptWrites_single (h : effective writes = [w]) :
    keptWrites writes = [{ w with txnId := ⟨0, 0, 0⟩ }] := by
  rw [keptWrites, h]

theorem keptWrites_of_length (h : (effective writes).length ≠ 1) :
    keptWrites writes = effective writes := by
  unfold keptWrites
  split
  · next hone => simp [hone] at h
  · rfl

theorem mem_keptWrites (h : w ∈ keptWrites writes) : w.txnId = ⟨0, 0, 0⟩ ∨ w ∈ writes := by
  unfold keptWrites at h
  split at h
  · exact .inl (congrArg Write.txnId (mem_singleton.mp h))
  · exact .inr ((dropWhile_sublist _).mem h)

theorem contentOf_effective (writes : List Write) :
    contentOf (effective writes) = contentOf writes := by
  induction writes with
  | nil => rfl
  | cons w writes ih =>
    cases hw : w.isDelete with
    | false => rw [effective, dropWhile_cons_of_neg (by simp [hw])]
    | true =>
      have hvalue : w.value = none := by simpa [Write.isDelete] using hw
      have hnothing : w.apply none = none := by simp [Write.apply, hvalue]
      rw [effective, dropWhile_cons_of_pos hw, ← effective, ih, contentOf, contentOf, foldl_cons,
        hnothing]

theorem contentOf_keptWrites (writes : List Write) :
    contentOf (keptWrites writes) = (contentOf writes).map Content.stored := by
  rcases contentOf_shape writes with ⟨hdrop, hcontent⟩ | ⟨w, value, hdrop, hvalue, hcontent⟩ |
    ⟨w, w', rest, hdrop, hcontent⟩
  · rw [keptWrites, effective, hdrop, hcontent]
    rfl
  · rw [keptWrites_single hdrop, hcontent]
    simp [contentOf, Write.apply, hvalue, Content.write, Content.stored]
  · have hlength : (effective writes).length ≠ 1 := by simp [effective, hdrop]
    rw [keptWrites_of_length hlength, contentOf_effective, hcontent]
    rfl

theorem getLast?_of_suffix {whole : List Write} (hsuffix : again <:+ whole) (hne : again ≠ []) :
    again.getLast? = whole.getLast? := by
  obtain ⟨pre, rfl⟩ := hsuffix
  rw [getLast?_append_of_ne_nil _ hne]

theorem getLast?_effective (h : effective writes ≠ []) :
    (effective writes).getLast? = writes.getLast? :=
  getLast?_of_suffix (dropWhile_suffix Write.isDelete) h

theorem lastWrite_keptWrites (before after : List Write) :
    lastWrite (keptWrites before ++ after) = lastWrite (before ++ after) := by
  by_cases hafter : after = []
  · rw [hafter, append_nil, append_nil, lastWrite, lastWrite]
    by_cases hone : (effective before).length = 1
    · obtain ⟨w, hw⟩ := length_eq_one_iff.mp hone
      have hlast : before.getLast? = some w := by
        rw [← getLast?_effective (by simp [hw] : effective before ≠ []), hw]
        rfl
      rw [keptWrites_single hw, hlast]
      rfl
    · rw [keptWrites_of_length hone]
      by_cases hnil : effective before = []
      · -- only deletes: neither leaves a value
        have hlast : before.getLast?.bind Write.value = none := by
          refine bind_eq_none_iff.mpr fun w hw => ?_
          simpa [Write.isDelete] using effective_eq_nil_iff.mp hnil w (mem_of_getLast? hw)
        rw [hnil, hlast]
        rfl
      · rw [getLast?_effective hnil]
  · rw [lastWrite, lastWrite, getLast?_append_of_ne_nil _ hafter,
      getLast?_append_of_ne_nil _ hafter]

/-- The last write is among those in the chain, if any is. -/
theorem mem_effective_of_getLast? (h : writes.getLast? = some w)
    (heffective : effective writes ≠ []) : w ∈ effective writes :=
  mem_of_getLast? ((getLast?_effective heffective).trans h)

/-- Writes that end as the chain does cannot be added to it in order. -/
theorem not_ascends_append (hbefore : before.getLast? = some w) (hagain : w ∈ again)
    (heffective : effective before ≠ []) : ¬ Ascends (effective before ++ again ++ after) := by
  intro hascends
  have hmem := mem_effective_of_getLast? hbefore heffective
  obtain ⟨hfirst, -, -⟩ := pairwise_append.mp hascends
  exact absurd ((pairwise_append.mp hfirst).2.2 w hmem w hagain) (lt_irrefl _)

/-- What a replay adds to the writes that are already there. -/
theorem ascends_again_iff (hlast : again ≠ [] → again.getLast? = before.getLast?)
    (hdeletes : effective before = [] → effective again = []) :
    Ascends (effective (before ++ again ++ after)) ↔
      Ascends (effective (before ++ after)) ∧ (again ≠ [] → effective before = []) := by
  by_cases hagain : again = []
  · subst hagain
    simp
  by_cases heffective : effective before = []
  · have hboth : effective (before ++ again) = [] := by
      rw [effective_append_of_nil heffective, hdeletes heffective]
    rw [effective_append_of_nil hboth, effective_append_of_nil heffective]
    simp [heffective]
  · have hne : effective (before ++ again) ≠ [] := by
      rw [effective_append_of_ne_nil heffective]
      simp [heffective]
    obtain ⟨w, hw⟩ : ∃ w, again.getLast? = some w := ⟨_, getLast?_eq_some_getLast hagain⟩
    have hnot := @not_ascends_append w before again after ((hlast hagain).symm.trans hw)
      (mem_of_getLast? hw) heffective
    rw [effective_append_of_ne_nil hne, effective_append_of_ne_nil heffective]
    simp only [hnot, heffective, false_iff, not_and, Classical.not_imp]
    exact fun _ => ⟨hagain, not_false⟩

end Writes

/-! ### Recovery over a trie -/

section Paths

variable {cs : ChunkSize} {behind bytes rest : Bytes} {item : CborItem} {op : TrieOp}
  {record : WalRecord}

def HasChunks (path : Path) : Prop := ∀ identifier ∈ path, identifier.chunks ≠ []

theorem forall_mem_readMany {α : Type} {reader : Reader α} {P : α → Prop}
    (hreader : ∀ bytes a rest, reader bytes = some (a, rest) → P a) {n : Nat} {as : List α}
    (h : readMany reader n bytes = some (as, rest)) : ∀ a ∈ as, P a := by
  induction n generalizing bytes as with
  | zero =>
    cases h
    exact nofun
  | succ n ih =>
    cases as with
    | nil => exact nofun
    | cons a as =>
      obtain ⟨mid, hfirst, hrest⟩ := readMany_cons_eq_some.mp h
      exact forall_mem_cons.mpr ⟨hreader bytes a mid hfirst, ih hrest⟩

theorem readPathBinary_chunks (h : readPathBinary cs behind bytes = some (path, rest)) :
    HasChunks path := by
  obtain ⟨magic, afterMagic, -, h⟩ := bind_eq_some_reader.mp h
  split at h
  · obtain ⟨pathCount, afterCount, -, h⟩ := bind_eq_some_reader.mp h
    obtain ⟨pathLen, afterLen, -, h⟩ := bind_eq_some_reader.mp h
    obtain ⟨path', afterPath, hmany, h⟩ := bind_eq_some_reader.mp h
    split at h
    · cases h
      refine forall_mem_readMany (fun _ _ _ hread => ?_) hmany
      obtain ⟨length, mid, -, hread⟩ := bind_eq_some_reader.mp hread
      obtain ⟨data, -, rfl⟩ := map_eq_some_reader.mp hread
      exact identifierCreateOver_chunks_ne_nil cs behind data
    · cases h
  · cases h

theorem forall₂_of_mapM {α β : Type} {f : α → Option β} {as : List α} {bs : List β}
    (h : as.mapM f = some bs) : List.Forall₂ (fun a b => f a = some b) as bs := by
  induction as generalizing bs with
  | nil =>
    cases h
    exact .nil
  | cons a as ih =>
    rw [mapM_cons, bind_eq_bind, bind_eq_some_iff] at h
    obtain ⟨b, hfirst, h⟩ := h
    obtain ⟨bs', hrest, h⟩ := bind_eq_some_iff.mp h
    cases h
    exact .cons hfirst (ih hrest)

theorem cborToIdentifier_chunks {identifier : Identifier}
    (h : cborToIdentifier cs behind item = some identifier) : identifier.chunks ≠ [] := by
  cases item with
  | uint n => cases h
  | bytes data =>
    cases h
    exact identifierCreateOver_chunks_ne_nil cs behind data
  | array items =>
    rw [cborToIdentifier, cborToIdentifierOld] at h
    split at h
    · cases h
      exact identifierCreate_chunks_ne_nil cs []
    · rename_i hne
      obtain ⟨chunks, hchunks, rfl⟩ := map_eq_some_iff.mp h
      have hlength := (forall₂_of_mapM hchunks).length_eq
      intro hnil
      rw [map_eq_nil_iff.mp hnil, length_nil] at hlength
      exact hne (length_eq_zero_iff.mp hlength)

theorem cborToPath_chunks (h : cborToPath cs behind item = some path) : HasChunks path := by
  cases item with
  | uint n => cases h
  | bytes data => cases h
  | array items =>
    intro identifier hid
    have hparts := forall₂_of_mapM h
    obtain ⟨i, hi, rfl⟩ := mem_iff_getElem.mp hid
    exact cborToIdentifier_chunks (hparts.get (hparts.length_eq ▸ hi) hi)

theorem decodeBatchOp_spec {txnId : TransactionId}
    (h : decodeBatchOp cs behind txnId item = some op) : HasChunks op.path ∧ op.txnId = txnId := by
  unfold decodeBatchOp at h
  split at h
  · obtain ⟨path, hpath, h⟩ := bind_eq_some_iff.mp h
    split at h
    · obtain ⟨value, -, rfl⟩ := map_eq_some_iff.mp h
      exact ⟨cborToPath_chunks hpath, rfl⟩
    · cases h
      exact ⟨cborToPath_chunks hpath, rfl⟩
  · cases h

theorem decodeRecord_chunks (h : decodeRecord cs behind record = some op) : HasChunks op.path := by
  unfold decodeRecord at h
  split at h
  · split at h
    · rename_i path value hput
      cases h
      obtain ⟨⟨⟨path', value'⟩, rest⟩, hread, heq⟩ := map_eq_some_iff.mp hput
      cases heq
      obtain ⟨first, mid, hpath, hread⟩ := bind_eq_some_reader.mp hread
      obtain ⟨second, mid', -, hread⟩ := bind_eq_some_reader.mp hread
      cases hread
      exact readPathBinary_chunks hpath
    · cases h
  · split at h
    · obtain ⟨path, hdelete, rfl⟩ := map_eq_some_iff.mp h
      obtain ⟨⟨path', rest⟩, hread, rfl⟩ := map_eq_some_iff.mp hdelete
      exact readPathBinary_chunks hread
    · cases h

/-- The calls of a record: recovery only builds identifiers with chunks, and all calls have the
record's id. -/
theorem decodeRecordOps_spec [Libcbor] (h : op ∈ decodeRecordOps cs behind record) :
    HasChunks op.path ∧ op.txnId = record.txnId := by
  unfold decodeRecordOps at h
  split at h
  · unfold decodeBatch at h
    split at h
    · obtain ⟨item, -, hitem⟩ := mem_filterMap.mp h
      exact decodeBatchOp_spec hitem
    · exact absurd h not_mem_nil
  · have hdecode := mem_toList.mp h
    exact ⟨decodeRecord_chunks hdecode, decodeRecord_txnId hdecode⟩

/-- What recovery does for the record does not depend on what follows its buffers. So it is for
the records that describe their calls (`Describes.replayed`). -/
def Determined [Libcbor] (cs : ChunkSize) (record : WalRecord) : Prop :=
  ∀ behind, decodeRecordOps cs behind record = decodeRecordOps cs [] record

theorem recordedOps_of_determined [Libcbor] (h : ∀ record ∈ records, Determined cs record) :
    recordedOps cs behind records = recordedOps cs [] records :=
  flatMap_congr fun record hrecord => h record hrecord behind

end Paths

section Replay

variable {cfg : Config} {load : Loader} {op : TrieOp}

theorem applyOp_nil (trie : HbtrieNode) (h : op.path = []) : applyOp cfg load trie op = trie := by
  cases op with
  | insert path value txnId | delete path txnId =>
    cases h
    rfl

theorem writeTo_nil {accept : Path → Bool} {key : List Chunk} (h : op.path = []) (hkey : key ≠ []) :
    op.writeTo accept key = none := by
  cases op with
  | insert path value txnId =>
    cases h
    exact if_neg fun hwrite => hkey hwrite.1.symm
  | delete path txnId =>
    cases h
    exact if_neg fun hwrite => hkey hwrite.symm

/-- Each key sees its own writes; calls without a component are refused. -/
theorem foldl_applyOp_nonempty {ops : List TrieOp} (hok : TrieOk load trie)
    (hchunks : ∀ op ∈ ops, HasChunks op.path) (hsafe : opsSplitSafely cfg load trie ops) :
    TrieOk load (ops.foldl (applyOp cfg load) trie) ∧
      ∀ key ≠ [], contentAt load (ops.foldl (applyOp cfg load) trie) key =
        (history (pathAccepted cfg) ops key).foldl Write.apply (contentAt load trie key) := by
  induction ops generalizing trie with
  | nil => exact ⟨hok, fun _ _ => rfl⟩
  | cons op ops ih =>
    obtain ⟨hfirst, hrest⟩ := Bool.and_eq_true_iff.mp hsafe
    have hothers : ∀ o ∈ ops, HasChunks o.path := fun o ho =>
      hchunks o (mem_cons_of_mem _ ho)
    by_cases hpath : op.path = []
    · rw [applyOp_nil trie hpath] at hrest
      rw [foldl_cons, applyOp_nil trie hpath]
      obtain ⟨hok', hcontent⟩ := ih hok hothers hrest
      refine ⟨hok', fun key hkey => ?_⟩
      rw [hcontent key hkey, history, history, filterMap_cons_none (writeTo_nil hpath hkey)]
    · have hvalid : ValidPath op.path := ⟨hpath, hchunks op mem_cons_self⟩
      obtain ⟨hok', hcontent⟩ := applyOp_spec hok hvalid hfirst
      obtain ⟨hok'', hcontents⟩ := ih hok' hothers hrest
      refine ⟨hok'', fun key hkey => ?_⟩
      rw [foldl_cons, hcontents key hkey, hcontent, history, history, filterMap_cons]
      cases op.writeTo (pathAccepted cfg) key with
      | none => rfl
      | some w => rfl

/-- A trie with the content of these writes under every key. -/
structure Holds (load : Loader) (writes : List Chunk → List Write) (trie : HbtrieNode) : Prop where
  ok : TrieOk load trie
  content : ∀ key ≠ [], contentAt load trie key = contentOf (writes key)

variable [Libcbor]

def writesTo (cfg : Config) (records : List WalRecord) (key : List Chunk) : List Write :=
  history (pathAccepted cfg) (recordedOps cfg.chunkSize [] records) key

theorem writesTo_append (before after : List WalRecord) (key : List Chunk) :
    writesTo cfg (before ++ after) key = writesTo cfg before key ++ writesTo cfg after key := by
  rw [writesTo, recordedOps, flatMap_append, history, filterMap_append]
  rfl

theorem writesTo_sorted (hids : InIdOrder records) (key : List Chunk) :
    (writesTo cfg records key).Pairwise fun a b => a.txnId ≤ b.txnId := by
  have hops : (recordedOps cfg.chunkSize [] records).Pairwise fun a b => a.txnId ≤ b.txnId := by
    apply pairwise_flatMap.mpr
    constructor
    · intro record _
      refine pairwise_of_forall_mem_list fun op hop op' hop' => ?_
      rw [(decodeRecordOps_spec hop).2, (decodeRecordOps_spec hop').2]
    · refine hids.imp fun {a b} hlt op hop op' hop' => ?_
      rw [(decodeRecordOps_spec hop).2, (decodeRecordOps_spec hop').2]
      exact hlt.le
  refine List.Pairwise.filterMap _ ?_ hops
  intro a b hle wa hwa wb hwb
  rw [← TrieOp.writeTo_txnId hwa, ← TrieOp.writeTo_txnId hwb]
  exact hle

/-- The trie that the page file holds: under every key what a page keeps of that which the records
make of it. -/
structure Persisted (cfg : Config) (load : Loader) (records : List WalRecord)
    (trie : HbtrieNode) : Prop where
  ok : TrieOk load trie
  content : ∀ key ≠ [], contentAt load trie key =
    (contentOf (writesTo cfg records key)).map Content.stored

theorem Persisted.holds (h : Persisted cfg load records trie) :
    Holds load (fun key => keptWrites (writesTo cfg records key)) trie where
  ok := h.ok
  content := fun key hkey => by rw [h.content key hkey, contentOf_keptWrites]

variable {writes : List Chunk → List Write} {behind : Bytes}

/-- A replay adds the writes of its records. -/
theorem Holds.append {more : List WalRecord} (h : Holds load writes trie)
    (hmore : ∀ record ∈ more, Determined cfg.chunkSize record)
    (hsafe : opsSplitSafely cfg load trie (recordedOps cfg.chunkSize behind more)) :
    Holds load (fun key => writes key ++ writesTo cfg more key)
      (replayOnto cfg load behind trie more) := by
  have hchunks : ∀ op ∈ recordedOps cfg.chunkSize behind more, HasChunks op.path := by
    intro op hop
    obtain ⟨record, -, hrecord⟩ := mem_flatMap.mp hop
    exact (decodeRecordOps_spec hrecord).1
  obtain ⟨hok, hcontent⟩ := foldl_applyOp_nonempty h.ok hchunks hsafe
  refine ⟨hok, fun key hkey => ?_⟩
  rw [contentOf, foldl_append, ← contentOf, ← h.content key hkey, writesTo,
    ← recordedOps_of_determined hmore]
  exact hcontent key hkey

end Replay

/-! ### Rounds -/

/-- One run of recovery: the entries it collects are those of the records from `start` on, `qsort`
leaves them in some order by id, and `behind` follows its buffers. -/
structure Round (records : List WalRecord) where
  start : Nat
  sorted : List RecoveryEntry
  behind : Bytes
  perm : (sorted.map record).Perm (records.drop start)
  order : sorted.Pairwise fun a b => a.record.txnId ≤ b.record.txnId

/-- With distinct ids the order is that of the history. -/
theorem Round.records_eq (round : Round records) (hids : InIdOrder records) :
    round.sorted.map record = records.drop round.start := by
  have hdrop := hids.sublist (drop_sublist round.start records)
  have hnodup : ((records.drop round.start).map WalRecord.txnId).Nodup :=
    pairwise_map.mpr (hdrop.imp fun hlt => hlt.ne)
  refine round.perm.eq_of_pairwise ?_ (pairwise_map.mpr round.order) (hdrop.imp fun hlt => hlt.le)
  intro a b ha hb hab hba
  exact inj_on_of_nodup_map hnodup (round.perm.mem_iff.mp ha) hb (le_antisymm hab hba)

def recoverRounds [Libcbor] (cfg : Config) (load : Loader) {records : List WalRecord} :
    HbtrieNode → List (Round records) → HbtrieNode :=
  List.foldl fun trie round => replayOnto cfg load round.behind trie (round.sorted.map record)

def roundsSplitSafely [Libcbor] (cfg : Config) (load : Loader) {records : List WalRecord} :
    HbtrieNode → List (Round records) → Bool
  | _, [] => true
  | trie, round :: rounds =>
    opsSplitSafely cfg load trie
        (recordedOps cfg.chunkSize round.behind (round.sorted.map record)) &&
      roundsSplitSafely cfg load
        (replayOnto cfg load round.behind trie (round.sorted.map record)) rounds

def replayedRecords {records : List WalRecord} (rounds : List (Round records)) : List WalRecord :=
  rounds.flatMap fun round => records.drop round.start

theorem Holds.rounds [Libcbor] {cfg : Config} {load : Loader} {writes : List Chunk → List Write}
    (hids : InIdOrder records)
    (hrecords : ∀ record ∈ records, Determined cfg.chunkSize record)
    {rounds : List (Round records)} (h : Holds load writes trie)
    (hsafe : roundsSplitSafely cfg load trie rounds) :
    Holds load (fun key => writes key ++ writesTo cfg (replayedRecords rounds) key)
      (recoverRounds cfg load trie rounds) := by
  induction rounds generalizing writes trie with
  | nil =>
    have hnone : ∀ key, writes key ++ writesTo cfg (replayedRecords ([] : List (Round records))) key
        = writes key := fun key => append_nil _
    simp only [hnone]
    exact h
  | cons round rounds ih =>
    obtain ⟨hfirst, hrest⟩ := Bool.and_eq_true_iff.mp hsafe
    rw [round.records_eq hids] at hfirst hrest
    have hround := h.append (fun record hrecord => hrecords record (mem_of_mem_drop hrecord)) hfirst
    have hrounds := ih hround hrest
    have hwrites : ∀ key, writesTo cfg (replayedRecords (round :: rounds)) key =
        writesTo cfg (records.drop round.start) key ++
          writesTo cfg (replayedRecords rounds) key := by
      intro key
      rw [replayedRecords, flatMap_cons, writesTo_append]
      rfl
    rw [recoverRounds, foldl_cons, ← recoverRounds, round.records_eq hids]
    simpa only [hwrites, append_assoc] using hrounds

/-! ### Writes made again -/

/-- The writes end like those of the whole history, and the key has been put in both or in
none. -/
structure SameEnd (writes whole : List Write) : Prop where
  last : writes.getLast? = whole.getLast?
  unput : effective writes = [] ↔ effective whole = []

section Again

variable {before again after whole writes : List Write}

theorem effective_nil_of_suffix (hsuffix : again <:+ whole) (h : effective whole = []) :
    effective again = [] :=
  effective_eq_nil_iff.mpr fun w hw => effective_eq_nil_iff.mp h w (hsuffix.mem hw)

theorem effective_append_eq_nil_iff :
    effective (before ++ after) = [] ↔ effective before = [] ∧ effective after = [] := by
  simp only [effective_eq_nil_iff, forall_mem_append]

/-- A round over what is already there changes neither. -/
theorem SameEnd.append (h : SameEnd writes whole) (hsuffix : again <:+ whole) :
    SameEnd (writes ++ again) whole := by
  constructor
  · by_cases hagain : again = []
    · rw [hagain, append_nil, h.last]
    · rw [getLast?_append_of_ne_nil _ hagain, getLast?_of_suffix hsuffix hagain]
  · rw [effective_append_eq_nil_iff, h.unput]
    exact ⟨And.left, fun hnil => ⟨hnil, effective_nil_of_suffix hsuffix hnil⟩⟩

/-- Neither does the first round, which brings the history to its end. -/
theorem SameEnd.first (hsuffix : again <:+ before) :
    SameEnd (before ++ again ++ after) (before ++ after) := by
  have hbefore : SameEnd (before ++ again) before := append ⟨rfl, Iff.rfl⟩ hsuffix
  constructor
  · by_cases hafter : after = []
    · rw [hafter, append_nil, append_nil, hbefore.last]
    · rw [getLast?_append_of_ne_nil _ hafter, getLast?_append_of_ne_nil _ hafter]
  · rw [effective_append_eq_nil_iff, hbefore.unput, effective_append_eq_nil_iff]

/-- Later rounds keep the ids in order exactly when none of them writes to a key that has been
put. -/
theorem ascends_rounds_iff {rounds : List (List Write)}
    (hsuffix : ∀ again ∈ rounds, again <:+ whole) (h : SameEnd writes whole) :
    Ascends (effective (writes ++ rounds.flatten)) ↔
      Ascends (effective writes) ∧ ∀ again ∈ rounds, again ≠ [] → effective whole = [] := by
  induction rounds generalizing writes with
  | nil => simp
  | cons again rounds ih =>
    obtain ⟨hfirst, hrest⟩ := forall_mem_cons.mp hsuffix
    have hround := @ascends_again_iff writes again []
      (fun hne => (getLast?_of_suffix hfirst hne).trans h.last.symm)
      (fun hnil => effective_nil_of_suffix hfirst (h.unput.mp hnil))
    rw [append_nil, append_nil, h.unput] at hround
    rw [flatten_cons, ← append_assoc, ih hrest (h.append hfirst), hround,
      forall_mem_cons, and_assoc]

end Again

/-- A single value that a page keeps without its id: the rounds add their writes in order exactly
when only one of them makes any, with ids that differ from one another and from 0. -/
theorem ascends_single_iff {whole : List Write} {rounds : List (List Write)} {w : Write}
    (hsuffix : ∀ again ∈ rounds, again <:+ whole)
    (hsorted : whole.Pairwise fun a b => a.txnId ≤ b.txnId) :
    Ascends ({ w with txnId := ⟨0, 0, 0⟩ } :: rounds.flatten) ↔
      (∀ again ∈ rounds, (again.Pairwise fun a b => a.txnId ≠ b.txnId) ∧
        ∀ w ∈ again, w.txnId ≠ ⟨0, 0, 0⟩) ∧
      rounds.Pairwise fun again again' => again = [] ∨ again' = [] := by
  have hnonzero : ∀ id : TransactionId, (⟨0, 0, 0⟩ : TransactionId) < id ↔ id ≠ ⟨0, 0, 0⟩ :=
    fun id => (zero_le_txnId id).lt_iff_ne'
  have hround : ∀ again ∈ rounds, Ascends again ↔ again.Pairwise fun a b => a.txnId ≠ b.txnId :=
    fun again hagain => ascends_iff_pairwise_ne (hsorted.sublist (hsuffix again hagain).sublist)
  have hcross : ∀ again ∈ rounds, ∀ again' ∈ rounds,
      (∀ a ∈ again, ∀ b ∈ again', a.txnId < b.txnId) ↔ again = [] ∨ again' = [] := by
    intro again hagain again' hagain'
    constructor
    · intro hlt
      by_contra hnone
      obtain ⟨hne, hne'⟩ := not_or.mp hnone
      obtain ⟨a, ha⟩ : ∃ a, again.getLast? = some a := ⟨_, getLast?_eq_some_getLast hne⟩
      have ha' : again'.getLast? = some a := by
        rw [getLast?_of_suffix (hsuffix again' hagain') hne',
          ← getLast?_of_suffix (hsuffix again hagain) hne, ha]
      exact lt_irrefl _ (hlt a (mem_of_getLast? ha) a (mem_of_getLast? ha'))
    · rintro (rfl | rfl)
      · exact nofun
      · exact fun _ _ => nofun
  rw [Ascends, pairwise_cons, pairwise_flatten]
  simp only [mem_flatten, hnonzero]
  constructor
  · rintro ⟨hzero, hrounds, hpairs⟩
    refine ⟨fun again hagain => ⟨(hround again hagain).mp (hrounds again hagain),
      fun w hw => hzero w ⟨again, hagain, hw⟩⟩, ?_⟩
    exact hpairs.imp_of_mem fun ha hb h => (hcross _ ha _ hb).mp h
  · rintro ⟨hrounds, hpairs⟩
    refine ⟨?_, fun again hagain => (hround again hagain).mpr (hrounds again hagain).1, ?_⟩
    · rintro w ⟨again, hagain, hw⟩
      exact (hrounds again hagain).2 w hw
    · exact hpairs.imp_of_mem fun ha hb h => (hcross _ ha _ hb).mpr h

/-! ### The condition -/

section Condition

variable [Libcbor]

/-- The chains are in order and every path has the value of its last write, for all reads that
are not before the last record. -/
structure ReplayedWell (cfg : Config) (load : Loader) (records : List WalRecord)
    (trie : HbtrieNode) : Prop where
  values : ∀ path, ValidPath path → ∀ readTxnId, (∀ record ∈ records, record.txnId ≤ readTxnId) →
    hbtrieFind load trie path readTxnId = lastWrite (writesTo cfg records (pathChunks path))
  chains : ∀ key ≠ [], ∀ content, contentAt load trie key = some content → Ordered content

def Unput (cfg : Config) (records : List WalRecord) (key : List Chunk) : Prop :=
  ∀ w ∈ writesTo cfg records key, w.isDelete = true

/-- The page holds a single value under the key: the records make one write to it from their first
put on. -/
def SingleValue (cfg : Config) (records : List WalRecord) (key : List Chunk) : Prop :=
  (effective (writesTo cfg records key)).length = 1

/-- Nothing is written twice to a key that holds something: not by one batch, not by the first
round to what the page file holds, and not by a later round. -/
structure ChainOnce (cfg : Config) {records : List WalRecord} (k : Nat) (first : Round records)
    (rest : List (Round records)) (key : List Chunk) : Prop where
  batch : (effective (writesTo cfg records key)).Pairwise fun a b => a.txnId ≠ b.txnId
  persisted : writesTo cfg ((records.take k).drop first.start) key ≠ [] →
    Unput cfg (records.take k) key
  again : ∀ round ∈ rest, writesTo cfg (records.drop round.start) key ≠ [] → Unput cfg records key

/-- Of all rounds at most one writes to the key, each of its records once, and none with id 0. -/
structure SingleOnce (cfg : Config) {records : List WalRecord} (rounds : List (Round records))
    (key : List Chunk) : Prop where
  batch : ∀ round ∈ rounds,
    (writesTo cfg (records.drop round.start) key).Pairwise fun a b => a.txnId ≠ b.txnId
  nonzero : ∀ round ∈ rounds, ∀ w ∈ writesTo cfg (records.drop round.start) key,
    w.txnId ≠ ⟨0, 0, 0⟩
  again : rounds.Pairwise fun round round' => writesTo cfg (records.drop round.start) key = [] ∨
    writesTo cfg (records.drop round'.start) key = []

/-- The id of a single value is lost on its page, so that the value may be written once more. -/
structure WritesOnce (cfg : Config) {records : List WalRecord} (k : Nat) (first : Round records)
    (rest : List (Round records)) (key : List Chunk) : Prop where
  chain : ¬ SingleValue cfg (records.take k) key → ChainOnce cfg k first rest key
  single : SingleValue cfg (records.take k) key → SingleOnce cfg (first :: rest) key

section Final

variable {cfg : Config} {load : Loader} {records : List WalRecord} {k : Nat} {trie : HbtrieNode}
  {first : Round records} {rest : List (Round records)}

theorem writesTo_drop_suffix (records : List WalRecord) (n : Nat) (key : List Chunk) :
    writesTo cfg (records.drop n) key <:+ writesTo cfg records key := by
  refine ⟨writesTo cfg (records.take n) key, ?_⟩
  rw [← writesTo_append, take_append_drop]

theorem writesTo_replayedRecords (rounds : List (Round records)) (key : List Chunk) :
    writesTo cfg (replayedRecords rounds) key =
      (rounds.map fun round => writesTo cfg (records.drop round.start) key).flatten := by
  induction rounds with
  | nil => rfl
  | cons round rounds ih =>
    rw [replayedRecords, flatMap_cons, writesTo_append, ← replayedRecords, ih]
    rfl

theorem suffix_of_mem_rounds {rounds : List (Round records)} {key : List Chunk} :
    ∀ again ∈ rounds.map fun round => writesTo cfg (records.drop round.start) key,
      again <:+ writesTo cfg records key := by
  intro again hagain
  obtain ⟨round, -, rfl⟩ := mem_map.mp hagain
  exact writesTo_drop_suffix records round.start key

theorem writesTo_rounds (hstart : first.start ≤ k) (key : List Chunk) :
    writesTo cfg (records.take k ++ replayedRecords (first :: rest)) key =
      writesTo cfg (records.take k) key ++ writesTo cfg ((records.take k).drop first.start) key ++
        writesTo cfg (records.drop k) key ++
        (rest.map fun round => writesTo cfg (records.drop round.start) key).flatten := by
  have hdrop := calc records.drop first.start = (records.drop first.start).take (k - first.start) ++
        (records.drop first.start).drop (k - first.start) := (take_append_drop ..).symm
    _ = (records.take k).drop first.start ++ records.drop k := by
        rw [drop_take, drop_drop, Nat.add_sub_cancel' hstart]
  rw [replayedRecords, flatMap_cons, ← replayedRecords, hdrop, writesTo_append,
    writesTo_append, writesTo_append, writesTo_replayedRecords]
  simp only [append_assoc]

theorem sameEnd_first (key : List Chunk) : SameEnd (writesTo cfg (records.take k) key ++
        writesTo cfg ((records.take k).drop first.start) key ++
        writesTo cfg (records.drop k) key) (writesTo cfg records key) := by
  have hfirst := @SameEnd.first _ _ (writesTo cfg (records.drop k) key)
    (@writesTo_drop_suffix _ cfg (records.take k) first.start key)
  rwa [← writesTo_append (records.take k) (records.drop k), take_append_drop] at hfirst

theorem sameEnd_rounds (hstart : first.start ≤ k) (key : List Chunk) :
    SameEnd (writesTo cfg (records.take k ++ replayedRecords (first :: rest)) key)
      (writesTo cfg records key) := by
  rw [writesTo_rounds hstart]
  induction rest using reverseRecOn with
  | nil => simpa using sameEnd_first key
  | append_singleton rest round ih =>
    rw [map_append, flatten_append, ← append_assoc, map_singleton, flatten_singleton]
    exact ih.append (writesTo_drop_suffix records round.start key)

def writesAfter (cfg : Config) (k : Nat) (rounds : List (Round records)) (key : List Chunk) :
    List Write :=
  keptWrites (writesTo cfg (records.take k) key) ++ writesTo cfg (replayedRecords rounds) key

theorem replay_keeps_values
    (hholds : Holds load (writesAfter cfg k (first :: rest)) trie) (hstart : first.start ≤ k)
    (hpath : ValidPath path) {readTxnId : TransactionId}
    (hread : ∀ record ∈ records, record.txnId ≤ readTxnId) :
    hbtrieFind load trie path readTxnId = lastWrite (writesTo cfg records (pathChunks path)) := by
  have hkey : pathChunks path ≠ [] := by
    rw [← stepChunks_pathSteps]
    exact hpath.endsInChunk.stepChunks_ne_nil
  have hend := @sameEnd_rounds _ cfg records k first rest hstart (pathChunks path)
  have hids : ∀ {more : List WalRecord}, (∀ record ∈ more, record ∈ records) →
      ∀ w ∈ writesTo cfg more (pathChunks path), w.txnId ≤ readTxnId := by
    intro more hmore w hw
    obtain ⟨op, hop, hwrite⟩ := mem_filterMap.mp hw
    obtain ⟨record, hrecord, hdecoded⟩ := mem_flatMap.mp hop
    rw [← TrieOp.writeTo_txnId hwrite, (decodeRecordOps_spec hdecoded).2]
    exact hread record (hmore record hrecord)
  rw [hbtrieFind_eq load _ hpath, hholds.content _ hkey, contentOf_visible, writesAfter,
    lastWrite_keptWrites, ← writesTo_append, lastWrite, hend.last, lastWrite]
  intro w hw
  rcases mem_append.mp hw with hkept | hreplayed
  · rcases mem_keptWrites hkept with hzero | hw
    · rw [hzero]
      exact zero_le_txnId readTxnId
    · exact hids (fun _ => mem_of_mem_take) w hw
  · refine hids (fun record hrecord => ?_) w hreplayed
    obtain ⟨round, -, hdrop⟩ := mem_flatMap.mp hrecord
    exact mem_of_mem_drop hdrop

/-- Without a single value the chain of a key is in order exactly when nothing is written twice to
it. -/
theorem ascends_iff_chainOnce (hids : InIdOrder records)
    (hstart : first.start ≤ k) (key : List Chunk) :
    Ascends (effective (writesTo cfg (records.take k ++ replayedRecords (first :: rest)) key)) ↔
      ChainOnce cfg k first rest key := by
  have hfirst := @ascends_again_iff (writesTo cfg (records.take k) key)
    (writesTo cfg ((records.take k).drop first.start) key) (writesTo cfg (records.drop k) key)
    (getLast?_of_suffix (writesTo_drop_suffix _ _ key))
    (effective_nil_of_suffix (writesTo_drop_suffix _ _ key))
  rw [← writesTo_append (records.take k) (records.drop k), take_append_drop] at hfirst
  have hbatch := ascends_iff_pairwise_ne ((@writesTo_sorted records cfg _ hids key).sublist
    (dropWhile_sublist Write.isDelete))
  rw [writesTo_rounds hstart, ascends_rounds_iff suffix_of_mem_rounds (sameEnd_first key), hfirst]
  constructor
  · rintro ⟨⟨honce, hpersisted⟩, hagain⟩
    refine ⟨hbatch.mp honce, fun hne => effective_eq_nil_iff.mp (hpersisted hne),
      fun round hround hne => ?_⟩
    exact effective_eq_nil_iff.mp (hagain _ (mem_map_of_mem hround) hne)
  · rintro ⟨honce, hpersisted, hagain⟩
    refine ⟨⟨hbatch.mpr honce, fun hne => effective_eq_nil_iff.mpr (hpersisted hne)⟩, ?_⟩
    intro again hmem hne
    obtain ⟨round, hround, rfl⟩ := mem_map.mp hmem
    exact effective_eq_nil_iff.mpr (hagain round hround hne)

theorem ascends_iff_writesOnce (hids : InIdOrder records)
    (hstart : first.start ≤ k) (key : List Chunk) :
    Ascends (effective (writesAfter cfg k (first :: rest) key)) ↔
      WritesOnce cfg k first rest key := by
  by_cases hsingle : SingleValue cfg (records.take k) key
  · obtain ⟨w, hw⟩ := length_eq_one_iff.mp hsingle
    have hput : w.isDelete = false := by
      have hhead := head?_dropWhile_not Write.isDelete (writesTo cfg (records.take k) key)
      rw [show (writesTo cfg (records.take k) key).dropWhile Write.isDelete = [w] from hw] at hhead
      simpa using hhead
    have heffective : effective (writesAfter cfg k (first :: rest) key) =
        { w with txnId := ⟨0, 0, 0⟩ } ::
        ((first :: rest).map fun round => writesTo cfg (records.drop round.start) key).flatten := by
      rw [writesAfter, keptWrites_single hw, writesTo_replayedRecords, singleton_append, effective,
        dropWhile_cons_of_neg]
      exact Bool.eq_false_iff.mp hput
    rw [heffective, ascends_single_iff suffix_of_mem_rounds (writesTo_sorted hids key),
      List.forall_mem_map, pairwise_map]
    constructor
    · rintro ⟨hrounds, hagain⟩
      refine ⟨fun hchain => absurd hsingle hchain, fun _ => ⟨?_, ?_, hagain⟩⟩
      · exact fun round hround => (hrounds round hround).1
      · exact fun round hround => (hrounds round hround).2
    · intro honce
      obtain ⟨hbatch, hnonzero, hagain⟩ := honce.single hsingle
      exact ⟨fun round hround => ⟨hbatch round hround, hnonzero round hround⟩, hagain⟩
  · rw [writesAfter, keptWrites_of_length hsingle, effective_effective_append, ← writesTo_append,
      ascends_iff_chainOnce hids hstart]
    exact ⟨fun hchain => ⟨fun _ => hchain, fun h => absurd h hsingle⟩, fun h => h.chain hsingle⟩

end Final

/-- The page file holds the trie after the first `k` records and recovery is run once or more
often, each time from a record not after the `k`th: all values are those of the whole history and
all chains are in order exactly when nothing is written twice to a key that holds something, except
for a single value whose id its page has lost. -/
theorem replay_idempotent_iff (cfg : Config) (load : Loader) (records : List WalRecord)
    (hids : InIdOrder records)
    (hrecords : ∀ record ∈ records, Determined cfg.chunkSize record) (k : Nat) (trie : HbtrieNode)
    (hpersisted : Persisted cfg load (records.take k) trie) (first : Round records)
    (rest : List (Round records)) (hstart : ∀ round ∈ first :: rest, round.start ≤ k)
    (hsafe : roundsSplitSafely cfg load trie (first :: rest) = true) :
    ReplayedWell cfg load records (recoverRounds cfg load trie (first :: rest)) ↔
      ∀ key ≠ [], WritesOnce cfg k first rest key := by
  have hfirst := hstart first mem_cons_self
  have hholds : Holds load (writesAfter cfg k (first :: rest))
      (recoverRounds cfg load trie (first :: rest)) :=
    hpersisted.holds.rounds hids hrecords hsafe
  have hchain : ∀ key ≠ [], (∀ content,
      contentAt load (recoverRounds cfg load trie (first :: rest)) key = some content →
        Ordered content) ↔ WritesOnce cfg k first rest key := by
    intro key hkey
    rw [hholds.content key hkey, ordered_contentOf_iff, ascends_iff_writesOnce hids hfirst]
  constructor
  · intro hwell key hkey
    exact (hchain key hkey).mp (hwell.chains key hkey)
  · intro honce
    constructor
    · intro path hpath readTxnId hread
      exact replay_keeps_values hholds hfirst hpath hread
    · intro key hkey
      exact (hchain key hkey).mpr (honce key hkey)

end Condition

/-! ### Runs -/

def wholeRound (records : List WalRecord) (hids : InIdOrder records) : Round records where
  start := 0
  sorted := records.map fun record => ⟨record, threadPath, 0⟩
  behind := []
  perm := by
    rw [List.map_map, List.drop_zero]
    exact (List.map_id records).symm ▸ List.Perm.refl _
  order := List.pairwise_map.mpr (hids.imp fun hlt => hlt.le)

section Runs

attribute [local instance] headCbor

theorem decodeRecordOps_record {cs : ChunkSize} {call : LoggedCall} (h : call.Fits)
    (behind : Bytes) : decodeRecordOps cs behind (call.record cs) = [call.op cs] := by
  have hbatch : (call.record cs).type ≠ walBatch := by
    unfold LoggedCall.record
    split
    · exact (by decide : walPut ≠ walBatch)
    · exact (by decide : walDelete ≠ walBatch)
  rw [decodeRecordOps, if_neg hbatch, decodeRecord_record h]
  rfl

def putAs (put : UInt64 × UInt8) : LoggedCall :=
  { txnId := ⟨0, 0, put.1⟩, components := [[1]], value := some [put.2] }

def putsOf (puts : List (UInt64 × UInt8)) : List WalRecord :=
  puts.map fun put => (putAs put).record defaultChunkSize

theorem putAs_fits (put : UInt64 × UInt8) : (putAs put).Fits := by
  simp [LoggedCall.Fits, putAs]

theorem putsOf_determined (puts : List (UInt64 × UInt8)) :
    ∀ record ∈ putsOf puts, Determined defaultChunkSize record := by
  intro record hrecord behind
  obtain ⟨put, -, rfl⟩ := mem_map.mp hrecord
  rw [decodeRecordOps_record (putAs_fits put), decodeRecordOps_record (putAs_fits put)]

theorem writesTo_putsOf (puts : List (UInt64 × UInt8)) (key : List Chunk) :
    writesTo defaultConfig (putsOf puts) key =
      if pathChunks (bytePath 1) = key then
        puts.map fun put => ⟨⟨0, 0, put.1⟩, some [put.2]⟩
      else [] := by
  have haccepted : pathAccepted defaultConfig (bytePath 1) = true := by decide
  have hops : recordedOps defaultConfig.chunkSize [] (putsOf puts) =
      puts.map fun put => .insert (bytePath 1) [put.2] ⟨0, 0, put.1⟩ := by
    rw [recordedOps, putsOf, flatMap_map, ← flatMap_singleton' (map _ _), flatMap_map]
    exact flatMap_congr fun put _ => decodeRecordOps_record (putAs_fits put) []
  rw [writesTo, hops, history, filterMap_map]
  split
  · next hkey =>
    rw [← filterMap_eq_map]
    exact filterMap_congr fun put _ => if_pos ⟨hkey, haccepted⟩
  · next hkey => exact filterMap_eq_nil_iff.mpr fun put _ => if_neg fun h => hkey h.1

def putsTrie (puts : List (UInt64 × UInt8)) : HbtrieNode :=
  replayOnto defaultConfig noLoader [] hbtrieNodeCreate (putsOf puts)

theorem putsTrie_holds {puts : List (UInt64 × UInt8)}
    (hsafe : opsSplitSafely defaultConfig noLoader hbtrieNodeCreate
      (recordedOps defaultChunkSize [] (putsOf puts))) :
    Holds noLoader (writesTo defaultConfig (putsOf puts)) (putsTrie puts) := by
  have hempty : Holds noLoader (fun _ => []) hbtrieNodeCreate :=
    ⟨.create noLoader, fun key _ => contentAt_create noLoader key⟩
  exact hempty.append (putsOf_determined puts) hsafe

def onePut : List WalRecord := putsOf [(1, 1)]

def twoPuts : List WalRecord := putsOf [(1, 1), (2, 2)]

def replayOne : Round onePut := wholeRound onePut (by decide)

def replayTwo : Round twoPuts := wholeRound twoPuts (by decide)

/-- The page file holds a single put, and everything is replayed: the value comes back from its
page with id 0 and the replayed one is above it. -/
theorem replayed_put_over_page : ReplayedWell defaultConfig noLoader onePut
      (recoverRounds defaultConfig noLoader (putsTrie [(0, 1)]) [replayOne]) := by
  have hholds := @putsTrie_holds [(0, 1)] (by decide +kernel)
  have hpersisted : Persisted defaultConfig noLoader (onePut.take 1) (putsTrie [(0, 1)]) := by
    refine ⟨hholds.ok, fun key hkey => ?_⟩
    rw [hholds.content key hkey, show onePut.take 1 = putsOf [(1, 1)] from rfl, writesTo_putsOf,
      writesTo_putsOf]
    split <;> rfl
  refine (replay_idempotent_iff defaultConfig noLoader onePut (by decide) (putsOf_determined _) 1 _
    hpersisted replayOne [] ?_ (by decide +kernel)).mpr ?_
  · intro round hround
    cases mem_singleton.mp hround
    exact Nat.zero_le 1
  · intro key _
    have hwrites : writesTo defaultConfig onePut key = _ := writesTo_putsOf [(1, 1)] key
    constructor
    · intro hchain
      have hnone : writesTo defaultConfig onePut key = [] := by
        split at hwrites
        · exact absurd (congrArg (fun writes => (effective writes).length) hwrites) hchain
        · exact hwrites
      refine ⟨?_, fun h => absurd hnone h, nofun⟩
      rw [hnone]
      exact .nil
    · intro _
      have honce : (writesTo defaultConfig onePut key).Pairwise (fun a b => a.txnId ≠ b.txnId) ∧
          ∀ w ∈ writesTo defaultConfig onePut key, w.txnId ≠ ⟨0, 0, 0⟩ := by
        rw [hwrites]
        split <;> decide
      refine ⟨fun round hround => ?_, fun round hround => ?_, pairwise_singleton _ _⟩
      · rw [mem_singleton.mp hround]
        exact honce.1
      · rw [mem_singleton.mp hround]
        exact honce.2

def chainOf (puts : List (UInt64 × UInt8)) : Content :=
  .versions (puts.map fun put => ⟨⟨0, 0, put.1⟩, some [put.2], false⟩)

/-- The page file holds two puts of a key and recovery replays them; or recovery is run twice over
a single one: ids are in the chain twice. -/
theorem replayed_put_repeats_id :
    (Persisted defaultConfig noLoader (twoPuts.take 2) (putsTrie [(1, 1), (2, 2)]) ∧
      contentAt noLoader (recoverRounds defaultConfig noLoader (putsTrie [(1, 1), (2, 2)])
        [replayTwo]) (pathChunks (bytePath 1)) =
        some (chainOf [(2, 2), (1, 1), (2, 2), (1, 1)]) ∧
      ¬ ReplayedWell defaultConfig noLoader twoPuts
        (recoverRounds defaultConfig noLoader (putsTrie [(1, 1), (2, 2)]) [replayTwo])) ∧
    ¬ ReplayedWell defaultConfig noLoader onePut
      (recoverRounds defaultConfig noLoader hbtrieNodeCreate [replayOne, replayOne]) := by
  have hholds := @putsTrie_holds [(1, 1), (2, 2)] (by decide +kernel)
  have hkey : pathChunks (bytePath 1) ≠ [] := by decide
  refine ⟨⟨⟨hholds.ok, fun key hkey => ?_⟩, by decide +kernel, fun hwell => ?_⟩, fun hwell => ?_⟩
  · rw [hholds.content key hkey, show twoPuts.take 2 = putsOf [(1, 1), (2, 2)] from rfl,
      writesTo_putsOf]
    split <;> rfl
  · have hordered : Descending _ :=
      hwell.chains _ hkey (chainOf [(2, 2), (1, 1), (2, 2), (1, 1)]) (by decide +kernel)
    exact absurd hordered (by decide)
  · have hordered : Descending _ :=
      hwell.chains _ hkey (chainOf [(1, 1), (1, 1)]) (by decide +kernel)
    exact absurd hordered (by decide)

end Runs

end WaveDB.Database
