import WaveDB.HBTrie.Gc
import WaveDB.HBTrie.NodeShape
import WaveDB.HBTrie.SnapshotRead

/-!
What garbage collection does to the current state.

The proof of `hbtrieGc_preserves_iff` needs only the shape of the bnodes (`Shaped`): leaves
are sorted and internal nodes hold child bnodes. Whether separators bound their children does
not matter, since collection leaves internal keys alone.
-/

namespace WaveDB.HBTrie

open WaveDB.Basis Workers List Option BnodeEntry Content

/-! ### What runs keep -/

theorem runOps_everywhere {P : Content → Prop} {Q : Bnode → Prop} (rule : EntryRule P Q)
    (cfg : Config) {ops : List TrieOp}
    (hinsert : ∀ op ∈ ops, ∀ (old : Option Content) value, (∀ c, old = some c → P c) →
      P (.write old value op.txnId))
    (hdelete : ∀ op ∈ ops, ∀ content : Content, P content → P (content.delete op.txnId)) :
    (runOps cfg noLoader ops).btree.Everywhere Q := by
  induction ops using reverseRecOn with
  | nil => exact Bnode.everywhere_create rule.create
  | append_singleton ops op ih =>
    have h := ih (fun op hop => hinsert op (mem_append_left _ hop))
      fun op hop => hdelete op (mem_append_left _ hop)
    have hold : ∀ c, (hbtrieFindEntry noLoader (runOps cfg noLoader ops) (pathSteps op.path)).bind
        content = some c → P c := by
      intro c hc
      obtain ⟨e, he, hcontent⟩ := bind_eq_some_iff.mp hc
      obtain ⟨leaf, hleaf, hmem, -⟩ := hbtrieFindEntry_below loadsAll_noLoader h he
      exact rule.contents hleaf hmem hcontent
    rw [runOps_concat]
    cases op with
    | insert path value txnId =>
      exact hbtrieInsert_everywhere rule loadsAll_noLoader cfg h
        (hinsert (.insert path value txnId) (by simp) _ value hold)
    | delete path txnId =>
      exact hbtrieDeleteSteps_everywhere rule loadsAll_noLoader h fun content hc =>
        hdelete (.delete path txnId) (by simp) content (hold content hc)

theorem runOps_shaped (cfg : Config) (ops : List TrieOp) :
    (runOps cfg noLoader ops).btree.Everywhere Shaped :=
  runOps_everywhere shaped_rule cfg (fun _ _ _ _ _ => trivial) fun _ _ _ _ => trivial

def NotAfter (readTxnId : TransactionId) (content : Content) : Prop :=
  ∀ v ∈ content.upgraded, v.txnId ≤ readTxnId

theorem runOps_notAfter (cfg : Config) {ops : List TrieOp} {readTxnId : TransactionId}
    (h : ∀ op ∈ ops, op.txnId ≤ readTxnId) :
    (runOps cfg noLoader ops).btree.HoldsAll (NotAfter readTxnId) := by
  refine runOps_everywhere (contentsOf_rule _) cfg (fun op hop old value hold => ?_)
    fun op hop content hcontent => ?_
  · cases old with
    | none => simpa [NotAfter, write, upgraded] using h op hop
    | some content =>
      rintro v hv
      rcases mem_cons.mp hv with rfl | hv
      · exact h op hop
      · exact hold content rfl v hv
  · rintro v hv
    rcases mem_cons.mp hv with rfl | hv
    · exact h op hop
    · exact hcontent v hv

/-! ### Lookups in one B+tree -/

section Btree

variable (mode : GcMode) {node : Bnode}

def gcInternal (e : BnodeEntry) : BnodeEntry := ((gcEntry mode e).kept).getD e

theorem gcInternal_key (e : BnodeEntry) : (gcInternal mode e).key = e.key := by
  unfold gcInternal
  cases h : (gcEntry mode e).kept with
  | none => rfl
  | some e' => exact gcEntry_key mode h

theorem Shaped.gc_entries (h : Shaped node) (hlevel : 1 < node.level) :
    (gcBnode mode node).kept.entries = node.entries.map (gcInternal mode) := by
  rw [gcBnode_entries, ← filterMap_eq_map]
  refine filterMap_congr fun e he => ?_
  obtain ⟨child, hchild⟩ := h.internal hlevel e he
  simp [gcInternal, gcEntry_childBnode mode hchild]

theorem loadedBnode_gcInternal {e : BnodeEntry} {child : Option Bnode}
    (h : e.slot = .childBnode child) : (gcInternal mode e).loadedBnode noLoader =
      (e.loadedBnode noLoader).map fun b => (gcBnode mode b).kept := by
  obtain ⟨key, slot, offset⟩ := e
  cases h
  rw [gcInternal, gcEntry_childBnode mode rfl]
  cases child with
  | none => simp [loadedBnode, noLoader]
  | some b => rfl

theorem Shaped.gc_bnodeFind (h : Shaped node) (hlevel : 1 < node.level) (key : Chunk) :
    bnodeFind (gcBnode mode node).kept key =
      ((bnodeFind node key).1.map (gcInternal mode), (bnodeFind node key).2) := by
  have hentries := h.gc_entries mode hlevel
  have hsearch : bnodeSearch (gcBnode mode node).kept key = bnodeSearch node key := by
    refine bnodeSearch_congr key ?_
    rw [hentries, List.map_map]
    exact map_congr_left fun e _ => gcInternal_key mode e
  simp only [bnodeFind, hsearch, hentries, getElem?_map]
  cases node.entries[bnodeSearch node key]? with
  | none => rfl
  | some e =>
    by_cases hkey : bnodeEntryCompare e.key key = 0
    · simp [Option.filter, gcInternal_key]
    · simp [Option.filter, gcInternal_key]

theorem Shaped.gc_nextChild (h : Shaped node) (hlevel : 1 < node.level) (key : Chunk) :
    btreeNextChild noLoader (gcBnode mode node).kept key =
      (btreeNextChild noLoader node key).map fun next => (next.1, (gcBnode mode next.2).kept) := by
  have hload : ∀ e ∈ node.entries, (gcInternal mode e).loadedBnode noLoader =
      (e.loadedBnode noLoader).map fun b => (gcBnode mode b).kept := by
    intro e he
    obtain ⟨child, hchild⟩ := h.internal hlevel e he
    exact loadedBnode_gcInternal mode hchild
  have hat : ∀ i, childBnodeAt noLoader (gcBnode mode node).kept i =
      (childBnodeAt noLoader node i).map fun next => (next.1, (gcBnode mode next.2).kept) := by
    intro i
    simp only [childBnodeAt, h.gc_entries mode hlevel, getElem?_map]
    cases hi : node.entries[i]? with
    | none => rfl
    | some e =>
      simp only [map_some, bind_some, hload e (mem_of_getElem? hi), Option.map_map]
      rfl
  have hfound : ((bnodeFind node key).1.map (gcInternal mode)).bind
      (fun e => e.loadedBnode noLoader) =
      ((bnodeFind node key).1.bind fun e => e.loadedBnode noLoader).map
        fun b => (gcBnode mode b).kept := by
    cases hf : (bnodeFind node key).1 with
    | none => rfl
    | some e => exact hload e (mem_of_bnodeFind hf)
  simp only [btreeNextChild, h.gc_bnodeFind mode hlevel, hfound, hat]
  cases (bnodeFind node key).1.bind fun e => e.loadedBnode noLoader with
  | some child => rfl
  | none =>
    simp only [map_none]
    split <;> rfl

/-- The descent after the walk ends in the collected leaf. -/
theorem gc_descend (key : Chunk) (fuel : Nat) (h : node.Everywhere Shaped) :
    (btreeDescendLoop noLoader key fuel (gcBnode mode node).kept).2 =
      (gcBnode mode (btreeDescendLoop noLoader key fuel node).2).kept := by
  induction fuel generalizing node with
  | zero => rfl
  | succ fuel ih =>
    rw [btreeDescendLoop, btreeDescendLoop, gcBnode_level]
    split
    · rename_i hlevel
      rw [(h _ .self).gc_nextChild mode hlevel]
      cases hnext : btreeNextChild noLoader node key with
      | none => rfl
      | some next => exact ih (h.nextChild loadsAll_noLoader hnext)
    · rfl

theorem Shaped.gc_find (h : Shaped node) (key : Chunk) :
    (bnodeFind (gcBnode mode node).kept key).1 =
      (bnodeFind node key).1.bind fun e => (gcEntry mode e).kept := by
  by_cases hlevel : 1 < node.level
  · rw [h.gc_bnodeFind mode hlevel]
    cases hf : (bnodeFind node key).1 with
    | none => rfl
    | some e =>
      obtain ⟨child, hchild⟩ := h.internal hlevel e (mem_of_bnodeFind hf)
      simp [gcInternal, gcEntry_childBnode mode hchild]
  · -- in a sorted leaf an entry is found exactly when it is there
    have hsorted := h.sorted (not_lt.mp hlevel)
    have hsorted' : (gcBnode mode node).kept.Sorted := by
      rw [Bnode.Sorted, gcBnode_entries]
      refine List.Pairwise.filterMap _ ?_ hsorted
      intro a b hlt a' ha b' hb
      rwa [gcEntry_key mode ha, gcEntry_key mode hb]
    refine ext fun e' => ?_
    rw [hsorted'.bnodeFind_eq_some, gcBnode_entries, mem_filterMap, bind_eq_some_iff]
    constructor
    · rintro ⟨⟨e, he, hkept⟩, hkey⟩
      exact ⟨e, (hsorted.bnodeFind_eq_some key e).mpr ⟨he, gcEntry_key mode hkept ▸ hkey⟩, hkept⟩
    · rintro ⟨e, hfind, hkept⟩
      obtain ⟨he, hkey⟩ := (hsorted.bnodeFind_eq_some key e).mp hfind
      exact ⟨⟨e, he, hkept⟩, (gcEntry_key mode hkept).trans hkey⟩

/-- A lookup after the walk finds the collected entry. -/
theorem gc_findLeaf {root : Bnode} (h : root.Everywhere Shaped) (key : Chunk) :
    bnodeFindLeafLazy noLoader (gcBnode mode root).kept key =
      (bnodeFindLeafLazy noLoader root key).bind fun e => (gcEntry mode e).kept := by
  have hleaf := btreeDescendLoop_everywhere loadsAll_noLoader key root.level h _ .self
  rw [bnodeFindLeafLazy, bnodeFindLeafLazy, btreeDescendWithPathLazy, btreeDescendWithPathLazy,
    gcBnode_level, gc_descend mode key _ h]
  exact hleaf.gc_find mode key

end Btree

/-! ### Lookups in the trie -/

/-- A tombstone whose id `old` admits, over versions below the cutoff. -/
def deadChain (old : TransactionId → Bool) (cutoff : TransactionId) : List VersionEntry → Bool
  | [] => false
  | newest :: older =>
    newest.isDeleted && old newest.txnId && older.all fun v => decide (v.txnId < cutoff)

def deadBelow (cutoff : TransactionId) : List VersionEntry → Bool :=
  deadChain (fun id => decide (id < cutoff)) cutoff

def deadUnsafe : List VersionEntry → Bool := deadChain (fun _ => true) txnIdSentinel

def passesDead (dead : List VersionEntry → Bool) : HbtrieNode → List PathStep → Bool
  | _, [] => false
  | node, .enter _ :: rest => passesDead dead node rest
  | _, [.chunk _] => false
  | node, .chunk c :: step :: rest =>
    match bnodeFindLeafLazy noLoader node.btree c with
    | none => false
    | some e =>
      match e.content with
      | some (.versions chain) => dead chain
      | _ => e.trieNode.any fun next => passesDead dead next (step :: rest)

/-- The collector removes the entries of the dead chains and no others. -/
def GcMode.Drops (mode : GcMode) (dead : List VersionEntry → Bool) : Prop :=
  ∀ chain, (gcChain mode chain).kept.isNone = dead chain

theorem isEmpty_rdropWhile {α : Type} {p : α → Bool} (l : List α) :
    (l.rdropWhile p).isEmpty = l.all p := by
  rw [Bool.eq_iff_iff, List.isEmpty_iff, rdropWhile_eq_nil_iff, List.all_eq_true]

/-- What is left of a chain without its old versions is a tombstone alone, or the entry stays. -/
theorem gcChain_kept_isNone (mode : GcMode) (newest : VersionEntry) (older : List VersionEntry) :
    (gcChain mode (newest :: older)).kept.isNone =
      (newest.isDeleted && mode.removes newest.txnId && older.all (olderThan mode.minActive)) := by
  obtain ⟨txnId, value, isDeleted⟩ := newest
  rw [← isEmpty_rdropWhile]
  obtain ⟨kept, hkept⟩ : ∃ kept, older.rdropWhile (olderThan mode.minActive) = kept := ⟨_, rfl⟩
  simp only [gcChain, versionEntryGc, hkept]
  cases kept with
  | cons next rest => cases isDeleted <;> cases value <;> simp
  | nil =>
    cases isDeleted with
    | false => cases value <;> rfl
    | true => cases hremoves : mode.removes txnId <;> simp [hremoves]

theorem drops_of_removes {mode : GcMode} {old : TransactionId → Bool} (h : mode.removes = old) :
    mode.Drops (deadChain old mode.minActive) := by
  intro chain
  cases chain with
  | nil => rfl
  | cons newest older =>
    have holder : olderThan mode.minActive = fun v => decide (v.txnId < mode.minActive) :=
      funext fun v => decide_eq_decide.mpr (transactionIdCompare_lt v.txnId mode.minActive)
    rw [gcChain_kept_isNone, deadChain, h, holder]

theorem gcMode_drops (minActive : TransactionId) : (gcMode minActive).Drops (deadBelow minActive) :=
  drops_of_removes (funext fun id => decide_eq_decide.mpr (transactionIdCompare_lt id minActive))

theorem gcUnsafeMode_drops : gcUnsafeMode.Drops deadUnsafe := drops_of_removes rfl

section Trie

variable (mode : GcMode) {readTxnId : TransactionId} {e : BnodeEntry} {steps : List PathStep}
  {node : HbtrieNode} {content : Content} {dead : List VersionEntry → Bool}

theorem loadedTrieNode_noLoader (e : BnodeEntry) : e.loadedTrieNode noLoader = e.trieNode := by
  have hnone : hbtrieLoadChildNode noLoader e.childDiskOffset = none := by
    simp [hbtrieLoadChildNode, noLoader]
  rw [loadedTrieNode, hnone, or_none]

/-- What the walk leaves below an entry without a version chain. -/
theorem gcEntry_trieNode (hplain : ∀ chain, e.content ≠ some (.versions chain)) :
    (gcEntry mode e).kept.bind trieNode = e.trieNode.map fun node => (gcNode mode node).kept := by
  by_cases hchild : ∃ child, e.slot = .childBnode child
  · obtain ⟨child, hchild⟩ := hchild
    rw [gcEntry_childBnode mode hchild, trieNode, hchild]
    rfl
  · obtain ⟨e', hkept, -, hnode⟩ :=
      gcEntry_plain mode (fun child hslot => hchild ⟨child, hslot⟩) hplain
    rw [hkept, bind_some, hnode]

/-- A lookup after the walk: nothing below a dead chain, else the entry as it was or as the walk
leaves it. -/
theorem hbtrieFindEntry_gc (hdead : mode.Drops dead) (h : node.btree.Everywhere Shaped) :
    if passesDead dead node steps then
      hbtrieFindEntry noLoader (gcNode mode node).kept steps = none else
      hbtrieFindEntry noLoader (gcNode mode node).kept steps = hbtrieFindEntry noLoader node steps ∨
        hbtrieFindEntry noLoader (gcNode mode node).kept steps =
          (hbtrieFindEntry noLoader node steps).bind fun e => (gcEntry mode e).kept := by
  induction steps using stepsInduction generalizing node with
  | nil => exact .inl rfl
  | enter identifier rest ih => exact ih h
  | chunk c rest ih =>
    have hfind := gc_findLeaf mode h c
    cases rest with
    | nil =>
      refine .inr ?_
      rw [hbtrieFindEntry, gcNode_btree, hfind, hbtrieFindEntry]
    | cons step rest =>
      rw [hbtrieFindEntry, hbtrieFindEntry, gcNode_btree, hfind, passesDead]
      cases hfound : bnodeFindLeafLazy noLoader node.btree c with
      | none => exact .inl rfl
      | some e =>
        simp only [bind_some, loadedTrieNode_noLoader]
        obtain ⟨-, -, -, hbelow⟩ := bnodeFindLeafLazy_below loadsAll_noLoader h hfound
        split
        · -- the walk stops at the chain: the subtree stays whole or goes
          next chain hcontent =>
            have hdrops := hdead chain
            rw [(gcEntry_versions mode hcontent).2]
            rcases eq_none_or_eq_some (gcChain mode chain).kept with
              hkept | ⟨content, hkept⟩
            · rw [hkept] at hdrops
              simp [hkept, ← hdrops]
            · rw [hkept] at hdrops
              simp [hkept, ← hdrops]
        · rename_i hplain
          rw [gcEntry_trieNode mode hplain]
          cases hnode : e.trieNode with
          | none => exact .inl rfl
          | some next => exact ih (hbelow.under next hnode)

/-- A read that the trimmed chains answer as before. -/
theorem gcEntry_read (read : Content → Option Bytes)
    (hread : ∀ chain, e.content = some (.versions chain) →
      (gcChain mode chain).kept.bind read = read (.versions chain)) :
    ((gcEntry mode e).kept.bind BnodeEntry.content).bind read = e.content.bind read := by
  by_cases hversions : ∃ chain, e.content = some (.versions chain)
  · obtain ⟨chain, hcontent⟩ := hversions
    rw [(gcEntry_versions mode hcontent).1, hread chain hcontent, hcontent, bind_some]
  · by_cases hchild : ∃ child, e.slot = .childBnode child
    · obtain ⟨child, hchild⟩ := hchild
      rw [gcEntry_childBnode mode hchild, content, hchild]
      rfl
    · obtain ⟨e', hkept, hcontent, -⟩ := gcEntry_plain mode
        (fun child hslot => hchild ⟨child, hslot⟩) fun chain hc => hversions ⟨chain, hc⟩
      rw [hkept, bind_some, hcontent]

theorem gc_read_iff (hdead : mode.Drops dead) (h : node.btree.Everywhere Shaped)
    (read : Content → Option Bytes)
    (hread : ∀ e chain, hbtrieFindEntry noLoader node steps = some e →
      e.content = some (.versions chain) →
        (gcChain mode chain).kept.bind read = read (.versions chain)) :
    ((hbtrieFindEntry noLoader (gcNode mode node).kept steps).bind BnodeEntry.content).bind read =
        ((hbtrieFindEntry noLoader node steps).bind BnodeEntry.content).bind read ↔
      ¬ (passesDead dead node steps ∧
        (((hbtrieFindEntry noLoader node steps).bind BnodeEntry.content).bind read).isSome) := by
  have hlookup := @hbtrieFindEntry_gc mode steps node dead hdead h
  by_cases hdetached : passesDead dead node steps
  · rw [if_pos hdetached] at hlookup
    rw [hlookup]
    cases ((hbtrieFindEntry noLoader node steps).bind BnodeEntry.content).bind read <;>
      simp [hdetached]
  · rw [if_neg hdetached] at hlookup
    refine iff_of_true ?_ fun hlost => hdetached hlost.1
    rcases hlookup with hsame | hkept
    · rw [hsame]
    · rw [hkept]
      cases hfound : hbtrieFindEntry noLoader node steps with
      | none => rfl
      | some e => exact gcEntry_read mode read fun chain => hread e chain hfound

theorem gcChain_newest (chain : List VersionEntry) :
    (gcChain mode chain).kept.bind newest = newest (.versions chain) := by
  cases chain with
  | nil => rfl
  | cons newest older =>
    obtain ⟨txnId, value, isDeleted⟩ := newest
    obtain ⟨kept, hkept⟩ : ∃ kept, older.rdropWhile (olderThan mode.minActive) = kept := ⟨_, rfl⟩
    simp only [gcChain, versionEntryGc, hkept]
    cases kept with
    | cons next rest => cases isDeleted <;> cases value <;> rfl
    | nil =>
      cases isDeleted with
      | false => cases value <;> rfl
      | true => cases hremoves : mode.removes txnId <;> simp [hremoves, newest]

theorem visible_eq_newest (h : NotAfter readTxnId content) :
    content.visible readTxnId = content.newest := by
  refine visible_eq_newest_of_head ?_
  rintro v older rfl
  exact h v mem_cons_self

/-- What is left of a chain is not newer than the chain. -/
theorem gcChain_notAfter {chain : List VersionEntry} (h : NotAfter readTxnId (.versions chain))
    (hkept : (gcChain mode chain).kept = some content) : NotAfter readTxnId content := by
  have hsub : ∀ v ∈ (versionEntryGc chain mode.minActive).1, v ∈ chain := by
    intro v hv
    cases chain with
    | nil => exact hv
    | cons newest older =>
      rcases mem_cons.mp hv with rfl | hv
      · exact mem_cons_self
      · exact mem_cons_of_mem _ (( rdropWhile_prefix _ _).subset hv)
  have hall : ∀ v ∈ (versionEntryGc chain mode.minActive).1, v.txnId ≤ readTxnId :=
    fun v hv => h v (hsub v hv)
  simp only [gcChain] at hkept
  split at hkept
  · rename_i heq
    cases hkept
    intro v hv
    obtain rfl := mem_singleton.mp hv
    exact hall ⟨_, _, _⟩ (by rw [heq]; exact mem_cons_self)
  · rename_i heq
    split at hkept
    · cases hkept
    · cases hkept
      rw [← heq]
      exact hall
  · cases hkept
    exact hall

end Trie

/-! ### Tries built by inserts and deletes -/

def BehindDead (dead : List VersionEntry → Bool) (root : HbtrieNode) (q : Path) : Prop :=
  passesDead dead root (pathSteps q) = true ∧ (hbtrieFindUnsafe noLoader root q).isSome

/-- The newest value of the path is the same in both tries. -/
def SameNewest (root root' : HbtrieNode) (q : Path) (readTxnId : TransactionId) : Prop :=
  hbtrieFind noLoader root' q readTxnId = hbtrieFind noLoader root q readTxnId ∧
    hbtrieFindUnsafe noLoader root' q = hbtrieFindUnsafe noLoader root q

theorem sameNewest_gc_iff {mode : GcMode} {dead : List VersionEntry → Bool} {root : HbtrieNode}
    {readTxnId : TransactionId} (hdead : mode.Drops dead)
    (hshaped : root.btree.Everywhere Shaped) (hids : root.btree.HoldsAll (NotAfter readTxnId))
    (q : Path) : SameNewest root (gcNode mode root).kept q readTxnId ↔
      ¬ BehindDead dead root q := by
  have hcontent : ∀ e c, hbtrieFindEntry noLoader root (pathSteps q) = some e →
      e.content = some c → NotAfter readTxnId c := by
    intro e c he hc
    obtain ⟨leaf, hleaf, hmem, -⟩ := hbtrieFindEntry_below loadsAll_noLoader hids he
    exact hleaf e hmem c hc
  have hsame : hbtrieFind noLoader root q readTxnId = hbtrieFindUnsafe noLoader root q := by
    refine bind_congr fun c hc => ?_
    obtain ⟨e, he, hcontent'⟩ := bind_eq_some_iff.mp hc
    exact visible_eq_newest (hcontent e c he hcontent')
  have hvisible := gc_read_iff mode hdead hshaped (visible readTxnId) fun e chain he hc => by
    have hafter := hcontent e _ he hc
    rw [visible_eq_newest hafter, ← gcChain_newest mode chain]
    refine bind_congr fun content hkept => ?_
    exact visible_eq_newest (gcChain_notAfter mode hafter hkept)
  have hnewest := @gc_read_iff mode (pathSteps q) root dead hdead hshaped newest
    fun _ chain _ _ => gcChain_newest mode chain
  change hbtrieFind noLoader _ q readTxnId = hbtrieFind noLoader root q readTxnId ↔
    ¬ (_ ∧ (hbtrieFind noLoader root q readTxnId).isSome) at hvisible
  rw [hsame] at hvisible
  rw [SameNewest, hsame, hvisible]
  exact ⟨fun hboth => hboth.1, fun hnot => ⟨hnot, hnewest.mpr hnot⟩⟩

/-- In every trie that inserts and deletes build, and for every cutoff, the collectors keep the
newest value of a path if and only if it has none or the first version chain on the way to it is
not dead. -/
theorem hbtrieGc_preserves_iff (cfg : Config) (ops : List TrieOp) (readTxnId : TransactionId)
    (hread : ∀ op ∈ ops, op.txnId ≤ readTxnId) (minActive : TransactionId) (q : Path) :
    (SameNewest (runOps cfg noLoader ops) (hbtrieGc (runOps cfg noLoader ops) minActive).1 q
        readTxnId ↔ ¬ BehindDead (deadBelow minActive) (runOps cfg noLoader ops) q) ∧
      (SameNewest (runOps cfg noLoader ops) (hbtrieGcUnsafe (runOps cfg noLoader ops)).1 q
        readTxnId ↔ ¬ BehindDead deadUnsafe (runOps cfg noLoader ops) q) :=
  ⟨sameNewest_gc_iff (gcMode_drops minActive) (runOps_shaped cfg ops)
      (runOps_notAfter cfg hread) q,
    sameNewest_gc_iff gcUnsafeMode_drops (runOps_shaped cfg ops) (runOps_notAfter cfg hread) q⟩

/-- With the tombstone at the cutoff the entry stays, and with it the value below. -/
theorem hbtrieGc_preserves_at_tombstone :
    hbtrieFindUnsafe noLoader (runOps defaultConfig noLoader familyWrites) childPath = some [2] ∧
      SameNewest (runOps defaultConfig noLoader familyWrites)
        (hbtrieGc (runOps defaultConfig noLoader familyWrites) ⟨0, 0, 3⟩).1 childPath
        ⟨0, 0, 3⟩ := by
  refine ⟨by decide +kernel, ?_⟩
  refine (hbtrieGc_preserves_iff defaultConfig familyWrites ⟨0, 0, 3⟩ (by decide) ⟨0, 0, 3⟩
    childPath).1.mpr ?_
  unfold BehindDead
  decide +kernel

/-- With the tombstone below the cutoff the entry goes with the value below it, in both
collectors. -/
theorem hbtrieGc_loses_subtree : ¬ SameNewest (runOps defaultConfig noLoader familyWrites)
        (hbtrieGc (runOps defaultConfig noLoader familyWrites) ⟨0, 0, 4⟩).1 childPath
        ⟨0, 0, 3⟩ ∧
      ¬ SameNewest (runOps defaultConfig noLoader familyWrites)
        (hbtrieGcUnsafe (runOps defaultConfig noLoader familyWrites)).1 childPath ⟨0, 0, 3⟩ := by
  unfold SameNewest
  decide +kernel

end WaveDB.HBTrie
