import WaveDB.Database.Concurrent
import WaveDB.HBTrie.GcCutoff
import WaveDB.HBTrie.SnapshotRead

/-!
The order of version chains under concurrent writers.

`version_chains_descending`: chains descend strictly from their head as long as each write
carries an id above the newest id stored at its path.
`gc_invisible_iff`: when a collection changes what a reader from the cutoff on sees.
-/

namespace WaveDB.Database

open WaveDB.Basis Workers HBTrie List Option

/-! ### Descending chains -/

def Descending (chain : List VersionEntry) : Prop :=
  chain.Pairwise fun newer older => older.txnId < newer.txnId

instance (chain : List VersionEntry) : Decidable (Descending chain) :=
  inferInstanceAs (Decidable (chain.Pairwise _))

/-- The version is the greatest of the chain that is not above the read id. -/
def GreatestVisible (chain : List VersionEntry) (readTxnId : TransactionId) (v : VersionEntry) :
    Prop :=
  v ∈ chain ∧ v.txnId ≤ readTxnId ∧ ∀ a ∈ chain, a.txnId ≤ readTxnId → a.txnId ≤ v.txnId

theorem Descending.findVisible {chain : List VersionEntry} (h : Descending chain)
    {readTxnId : TransactionId} {v : VersionEntry} (hv : GreatestVisible chain readTxnId v) :
    versionEntryFindVisible chain readTxnId = if !v.isDeleted then some v else none := by
  obtain ⟨hmem, hle, hgreatest⟩ := hv
  obtain ⟨newer, older, rfl⟩ := append_of_mem hmem
  have hfind : (newer ++ v :: older).find? (·.txnId ≤ readTxnId) = some v := by
    rw [find?_append, find?_eq_none.mpr, none_or, find?_cons_of_pos]
    · exact decide_eq_true hle
    · intro a ha hvisible
      have hlt := (pairwise_append.mp h).2.2 a ha v (by simp)
      exact absurd (hgreatest a (by simp [ha]) (of_decide_eq_true hvisible)) (not_le.mpr hlt)
  rw [versionEntryFindVisible_eq, hfind]
  rfl

/-- Removal from the end while `p` removes all of `p` when `p` is closed towards the
end. -/
theorem rdropWhile_eq_filter {α : Type} {p : α → Bool} {l : List α}
    (h : l.Pairwise fun a b => p a → p b) : l.rdropWhile p = l.filter fun a => !p a := by
  induction l using reverseRecOn with
  | nil => rfl
  | append_singleton l x ih =>
    obtain ⟨hl, -, hx⟩ := pairwise_append.mp h
    by_cases hp : p x
    · rw [rdropWhile_concat_pos p l x hp, ih hl, filter_append]
      simp [hp]
    · have hall : ∀ a ∈ l ++ [x], (!p a) = true := by
        intro a ha
        rcases mem_append.mp ha with ha | ha
        · simpa using fun hpa => hp (hx a ha x (by simp) hpa)
        · simpa [mem_singleton.mp ha] using hp
      rw [rdropWhile_concat_neg p l x hp, filter_eq_self.mpr hall]

def NewestFirst (chain : List VersionEntry) : Prop :=
  chain.Pairwise fun newer older => older.txnId ≤ newer.txnId

instance (chain : List VersionEntry) : Decidable (NewestFirst chain) :=
  inferInstanceAs (Decidable (chain.Pairwise _))

theorem olderThan_iff {minActive : TransactionId} {v : VersionEntry} :
    olderThan minActive v ↔ v.txnId < minActive := by
  rw [olderThan, decide_eq_true_eq, transactionIdCompare_lt]

variable {older : List VersionEntry} {content : Content} {trie : HbtrieNode}

theorem NewestFirst.gc {newest : VersionEntry} (h : NewestFirst (newest :: older))
    (minActive : TransactionId) : (versionEntryGc (newest :: older) minActive).1 =
      newest :: older.filter fun v => !olderThan minActive v := by
  change newest :: older.rdropWhile (olderThan minActive) = _
  rw [rdropWhile_eq_filter]
  refine (pairwise_cons.mp h).2.imp ?_
  intro a b hle hold
  rw [olderThan_iff] at hold ⊢
  exact hle.trans_lt hold

/-! ### What readers see of a collection -/

/-- The head is visible at the read id, or some version from the cutoff up to the read id, or the
newest version below the cutoff is a tombstone, if there is one. -/
def gcKeepsVisible (chain : List VersionEntry) (minActive readTxnId : TransactionId) : Bool :=
  (chain.head?.all fun newest => newest.txnId ≤ readTxnId) ||
    (chain.any fun v => minActive ≤ v.txnId && v.txnId ≤ readTxnId) ||
    (chain.find? (olderThan minActive)).all VersionEntry.isDeleted

theorem NewestFirst.findVisibleFrom_kept (h : NewestFirst older)
    {minActive readTxnId : TransactionId} (hread : minActive ≤ readTxnId) :
    findVisibleFrom readTxnId (older.filter fun v => !olderThan minActive v) =
        findVisibleFrom readTxnId older ↔
      (older.any fun v => minActive ≤ v.txnId && v.txnId ≤ readTxnId) ∨
        (older.find? (olderThan minActive)).all VersionEntry.isDeleted = true := by
  induction older with
  | nil => simp
  | cons v rest ih =>
    obtain ⟨hlater, hrest⟩ := pairwise_cons.mp h
    by_cases hold : v.txnId < minActive
    · -- this version and all behind it are removed
      have hall : ∀ w ∈ v :: rest, w.txnId < minActive :=
        forall_mem_cons.mpr ⟨hold, fun w hw => (hlater w hw).trans_lt hold⟩
      have hany : ¬ ((v :: rest).any fun w =>
          minActive ≤ w.txnId && w.txnId ≤ readTxnId) = true := by
        rw [List.any_eq_true]
        rintro ⟨w, hw, hwithin⟩
        exact absurd (of_decide_eq_true (Bool.and_eq_true_iff.mp hwithin).1)
          (not_le.mpr (hall w hw))
      have hnil : ((v :: rest).filter fun w => !olderThan minActive w) = [] :=
        filter_eq_nil_iff.mpr fun w hw => by simp [olderThan_iff.mpr (hall w hw)]
      rw [hnil, or_iff_right hany]
      cases hv : v.isDeleted <;>
        simp [findVisibleFrom, transactionIdCompare_le, hold.le.trans hread, olderThan_iff.mpr hold]
    · have hkept : olderThan minActive v = false := Bool.eq_false_of_not_eq_true fun hv =>
        hold (olderThan_iff.mp hv)
      by_cases hvisible : v.txnId ≤ readTxnId
      · simp [findVisibleFrom, transactionIdCompare_le, hkept, hvisible, not_lt.mp hold]
      · simpa [findVisibleFrom, transactionIdCompare_le, hkept, hvisible] using ih hrest

/-- A collection leaves what a reader from the cutoff on sees exactly in these cases. -/
theorem gc_invisible_iff {chain : List VersionEntry} (h : NewestFirst chain)
    {minActive readTxnId : TransactionId} (hread : minActive ≤ readTxnId) :
    versionEntryFindVisible (versionEntryGc chain minActive).1 readTxnId =
        versionEntryFindVisible chain readTxnId ↔
      gcKeepsVisible chain minActive readTxnId = true := by
  cases chain with
  | nil => simp [versionEntryGc, gcKeepsVisible]
  | cons newest older =>
    simp only [h.gc, versionEntryFindVisible, transactionIdCompare_le]
    by_cases hhead : newest.txnId ≤ readTxnId
    · simp [hhead, gcKeepsVisible]
    · have hnew : olderThan minActive newest = false := Bool.eq_false_of_not_eq_true fun hlt =>
        hhead ((olderThan_iff.mp hlt).le.trans hread)
      rw [if_neg hhead, if_neg hhead, NewestFirst.findVisibleFrom_kept (pairwise_cons.mp h).2 hread]
      simp [gcKeepsVisible, hhead, hnew]

def countedChain (counts : List UInt64) : List VersionEntry :=
  counts.map fun count => ⟨⟨0, 0, count⟩, some [], false⟩

/-- The chain has a version with the id of the cutoff. -/
theorem gc_invisible_cutoff_stored :
    versionEntryFindVisible (versionEntryGc (countedChain [3, 2, 1]) ⟨0, 0, 2⟩).1 ⟨0, 0, 2⟩ =
      versionEntryFindVisible (countedChain [3, 2, 1]) ⟨0, 0, 2⟩ :=
  (gc_invisible_iff (by decide) (by decide)).mpr (by decide)

/-- The reader at the cutoff itself loses the version it sees. -/
theorem gc_takes_visible_version : NewestFirst (countedChain [3, 1]) ∧
    versionEntryFindVisible (countedChain [3, 1]) ⟨0, 0, 2⟩ = some ⟨⟨0, 0, 1⟩, some [], false⟩ ∧
    versionEntryFindVisible (versionEntryGc (countedChain [3, 1]) ⟨0, 0, 2⟩).1 ⟨0, 0, 2⟩ =
      none := by
  decide

/-! ### Writes that keep the order -/

/-- A version chain is in order; a single value always is. -/
def Ordered : Content → Prop
  | .legacy _ _ => True
  | .versions chain => Descending chain

def newestTxnId (content : Content) : Option TransactionId :=
  content.upgraded.head?.map VersionEntry.txnId

theorem Ordered.upgraded (h : Ordered content) : Descending content.upgraded := by
  cases content with
  | legacy value txnId => exact pairwise_singleton _ _
  | versions chain => exact h

theorem Ordered.add {txnId : TransactionId} {value : Option Bytes} {isDeleted : Bool}
    (h : Ordered content)
    (hnewest : (newestTxnId content).all (fun newest => decide (newest < txnId))) :
    Ordered (.versions (versionEntryAdd content.upgraded txnId value isDeleted)) := by
  have hchain := h.upgraded
  unfold newestTxnId at hnewest
  refine pairwise_cons.mpr ⟨fun v hv => ?_, hchain⟩
  cases hlist : content.upgraded with
  | nil => simp [hlist] at hv
  | cons newest older =>
    rw [hlist] at hv hchain hnewest
    have hlt : newest.txnId < txnId := of_decide_eq_true hnewest
    rcases mem_cons.mp hv with rfl | hv
    · exact hlt
    · exact ((pairwise_cons.mp hchain).1 v hv).trans hlt

def storedAt (load : Loader) (trie : HbtrieNode) (path : Path) : Option Content :=
  (hbtrieFindEntry load trie (pathSteps path)).bind BnodeEntry.content

def writesInIdOrder (load : Loader) (s : DbState) : DbAction → Bool
  | .apply call =>
    ((storedAt load s.trie call.path).bind newestTxnId).all fun newest =>
      decide (newest < call.txnId)
  | _ => true

theorem storedAt_holdsAll {P : Content → Prop} {load : Loader}
    (hload : LoadsAll (ContentsOf P) load) {path : Path} (h : trie.btree.HoldsAll P)
    (hstored : storedAt load trie path = some content) : P content := by
  obtain ⟨e, he, hcontent⟩ := bind_eq_some_iff.mp hstored
  obtain ⟨leaf, hleaf, hmem, -⟩ := hbtrieFindEntry_below hload h he
  exact hleaf e hmem content hcontent

section Runs

variable {cfg : Config} {load : Loader}

/-- A write above the newest stored id keeps every chain of the trie in order. -/
theorem applyOp_ordered (hload : LoadsAll (ContentsOf Ordered) load) {call : TrieOp}
    (h : trie.btree.HoldsAll Ordered)
    (hnewest : ((storedAt load trie call.path).bind newestTxnId).all
      (fun newest => decide (newest < call.txnId))) :
    (applyOp cfg load trie call).btree.HoldsAll Ordered := by
  have hold : ∀ content, storedAt load trie call.path = some content → Ordered content ∧
      (newestTxnId content).all (fun newest => decide (newest < call.txnId)) = true := by
    intro content hstored
    rw [hstored] at hnewest
    exact ⟨storedAt_holdsAll hload h hstored, hnewest⟩
  cases call with
  | insert path value txnId =>
    refine hbtrieInsert_everywhere (contentsOf_rule Ordered) hload cfg h ?_
    change Ordered (.write (storedAt load trie path) value txnId)
    cases hstored : storedAt load trie path with
    | none => trivial
    | some content => exact (hold content hstored).1.add (hold content hstored).2
  | delete path txnId =>
    refine hbtrieDeleteSteps_everywhere (contentsOf_rule Ordered) hload h ?_
    exact fun content hstored => (hold content hstored).1.add (hold content hstored).2

theorem dbStep_ordered (hload : LoadsAll (ContentsOf Ordered) load) {s s' : DbState} {a : DbAction}
    (h : s.trie.btree.HoldsAll Ordered) (hallowed : writesInIdOrder load s a)
    (hs : dbStep cfg load s a = some s') : s'.trie.btree.HoldsAll Ordered := by
  cases a with
  | takeId clock | register id | commit id =>
    simp only [dbStep, map_eq_some_iff] at hs
    obtain ⟨mvcc, -, rfl⟩ := hs
    exact h
  | apply call =>
    simp only [dbStep, ite_none_right_eq_some, some.injEq] at hs
    obtain ⟨-, rfl⟩ := hs
    exact applyOp_ordered hload h hallowed
  | takeSnapshot =>
    obtain rfl := some.inj hs
    exact h
  | find index path =>
    simp only [dbStep, map_eq_some_iff] at hs
    obtain ⟨snapshot, -, rfl⟩ := hs
    exact hbtrieFindAttach_everywhere (contentsOf_rule Ordered) hload
      (fun _ _ _ hleaf he => hleaf.setEntry he) h

end Runs

/-- Every version chain in the trie descends from its head, in every state of a run
whose writes come in the order of their ids at each path; reads and collection see the
chain as they expect it. -/
theorem version_chains_descending (cfg : Config) (load : Loader) (generator : IdGenerator)
    (root : HbtrieNode) (hload : LoadsAll (ContentsOf Ordered) load)
    (hroot : root.btree.HoldsAll Ordered) (s : DbState)
    (h : Reaches (dbStep cfg load) (writesInIdOrder load) (.initial generator root) s)
    (chain : List VersionEntry) (hchain : s.trie.btree.Holds (.versions chain)) :
    Descending chain ∧
      (∀ readTxnId v, GreatestVisible chain readTxnId v →
        versionEntryFindVisible chain readTxnId = if !v.isDeleted then some v else none) ∧
      ∀ minActive, (versionEntryGc chain minActive).1 =
        chain.take 1 ++ (chain.drop 1).filter fun v => !olderThan minActive v := by
  have hall : s.trie.btree.HoldsAll Ordered :=
    h.invariant (fun s => s.trie.btree.HoldsAll Ordered) hroot
      fun _ _ _ hi => dbStep_ordered hload hi
  have hdesc : Descending chain := Bnode.holdsAll_iff.mp hall _ hchain
  refine ⟨hdesc, fun _ _ => hdesc.findVisible, fun minActive => ?_⟩
  cases chain with
  | nil => rfl
  | cons newest older => exact NewestFirst.gc (hdesc.imp le_of_lt) minActive

/-- Without a page file, what a lookup finds is stored in the trie. -/
theorem holds_of_storedAt {path : Path} (h : storedAt noLoader trie path = some content) :
    trie.btree.Holds content :=
  storedAt_holdsAll loadsAll_noLoader (Bnode.holdsAll_iff.mpr fun _ hc => hc) h

/-- Two writers to one path: `first` applies before `second`. -/
def twoWriters (first second : TransactionId) : List DbAction :=
  [.takeId stoppedClock, .takeId stoppedClock, .register ⟨0, 0, 1⟩, .register ⟨0, 0, 2⟩,
    .apply (.insert (bytePath 1) [first.count.toUInt8] first),
    .apply (.insert (bytePath 1) [second.count.toUInt8] second)]

def afterTwoWriters (first second : TransactionId) (s : DbState) : Bool :=
  decide (storedAt noLoader s.trie (bytePath 1) = some (.versions
    [⟨second, some [second.count.toUInt8], false⟩, ⟨first, some [first.count.toUInt8], false⟩]))

theorem version_chains_descending_two_writers :
    Descending [⟨⟨0, 0, 2⟩, some [2], false⟩, ⟨⟨0, 0, 1⟩, some [1], false⟩] := by
  obtain ⟨s, hs, hp⟩ : ∃ s, Reaches (dbStep defaultConfig noLoader) (writesInIdOrder noLoader)
      (.initial firstId hbtrieNodeCreate) s ∧ afterTwoWriters ⟨0, 0, 1⟩ ⟨0, 0, 2⟩ s = true :=
    exists_reaches (twoWriters ⟨0, 0, 1⟩ ⟨0, 0, 2⟩) (by decide +kernel)
  exact (version_chains_descending defaultConfig noLoader firstId hbtrieNodeCreate
    loadsAll_noLoader (Bnode.everywhere_create (contentsOf_create 1)) s hs _
    (holds_of_storedAt (of_decide_eq_true hp))).1

/-- The writer with id 2 applies before the one with id 1: the chain ascends, and a read
at id 2 misses the version with id 2. -/
theorem version_chain_out_of_order :
    ∃ s, Reaches (dbStep defaultConfig noLoader) always (.initial firstId hbtrieNodeCreate) s ∧
      ∃ chain, s.trie.btree.Holds (.versions chain) ∧ ¬ Descending chain ∧
        GreatestVisible chain ⟨0, 0, 2⟩ ⟨⟨0, 0, 2⟩, some [2], false⟩ ∧
        versionEntryFindVisible chain ⟨0, 0, 2⟩ = some ⟨⟨0, 0, 1⟩, some [1], false⟩ := by
  obtain ⟨s, hs, hp⟩ : ∃ s, Reaches (dbStep defaultConfig noLoader) always
      (.initial firstId hbtrieNodeCreate) s ∧ afterTwoWriters ⟨0, 0, 2⟩ ⟨0, 0, 1⟩ s = true :=
    exists_reaches (twoWriters ⟨0, 0, 2⟩ ⟨0, 0, 1⟩) (by decide +kernel)
  refine ⟨s, hs, _, holds_of_storedAt (of_decide_eq_true hp), by decide, ?_, by decide⟩
  unfold GreatestVisible
  decide

end WaveDB.Database
