import WaveDB.HBTrie.Eviction

/-!
Eviction keeps the data if what it drops is clean and saved.

`hbtrieNullEntriesByOffset_dirtyCount` accounts for the dirty nodes: each is still in
memory or was below an evicted entry. If all that is dropped is saved, the trie after the
walk and the one before it are related by `Evicts`, a `ReadSim`, because a dropped subtree
reads like the page file's copy. Together they give `hbtrieNullEntriesByOffset_keeps`;
`hbtrieNullEntriesByOffset_loses_update` has a lookup that goes back to an older value and one
that loses its value with a clean node.
-/

namespace WaveDB.HBTrie

open Workers List BnodeEntry

/-! ### Each dirty node is kept or dropped -/

section Count

variable (offset : Nat)

theorem BnodeEntry.dropChild_dirtyCount (e : BnodeEntry) : e.dropChild.dirtyCount = 0 := by
  cases e <;> rfl

def droppedDirty (dropped : List BnodeEntry) : Nat := (dropped.map dirtyCount).sum

theorem droppedDirty_cons (e : BnodeEntry) (xs : List BnodeEntry) :
    droppedDirty (e :: xs) = e.dirtyCount + droppedDirty xs := rfl

theorem droppedDirty_append (xs ys : List BnodeEntry) :
    droppedDirty (xs ++ ys) = droppedDirty xs + droppedDirty ys := by
  simp [droppedDirty]

/-- The walk of a bnode keeps the dirty nodes that it does not drop. -/
def CountsDropped (node : Bnode) : Prop := ∀ bnodeDepth stackDepth,
  (nullBnode offset node bnodeDepth stackDepth).kept.dirtyCount +
    droppedDirty (droppedBnode offset node bnodeDepth stackDepth) = node.dirtyCount

variable {offset}

theorem nullNode_dirtyCount {node : HbtrieNode} (h : CountsDropped offset node.btree)
    (stackDepth : Nat) : (nullNode offset node stackDepth).kept.dirtyCount +
      droppedDirty (droppedNode offset node stackDepth) = node.dirtyCount := by
  obtain ⟨btree, diskOffset, isDirty⟩ := node
  have hbtree := h 0 stackDepth
  simp only [nullNode, droppedNode, HbtrieNode.dirtyCount] at hbtree ⊢
  omega

theorem nullBelow_dirtyCount {e : BnodeEntry}
    (h : ∀ child, e.bnodeBelow = some child → CountsDropped offset child)
    (bnodeDepth stackDepth : Nat) : (nullBelow offset e bnodeDepth stackDepth).kept.dirtyCount +
      droppedDirty (droppedBelow offset e bnodeDepth stackDepth) = e.dirtyCount := by
  cases e with
  | child node | value content pathMeta node =>
    cases node with
    | none => rfl
    | some node => exact nullNode_dirtyCount (h node.btree rfl) stackDepth
  | childBnode node =>
    cases node with
    | none => rfl
    | some node => exact h node rfl bnodeDepth stackDepth

theorem nullEntries_dirtyCount {es : List BnodeEntry}
    (h : ∀ e ∈ es, ∀ child, e.bnodeBelow = some child → CountsDropped offset child)
    (bnodeDepth stackDepth : Nat) :
    dirtyCountEntries (nullEntries offset es bnodeDepth stackDepth).kept +
      droppedDirty (droppedEntries offset es bnodeDepth stackDepth) = dirtyCountEntries es := by
  induction es generalizing bnodeDepth stackDepth with
  | nil => rfl
  | cons e es ih =>
    obtain ⟨he, hes⟩ := forall_mem_cons.mp h
    have hrest := ih hes
    have hown := nullBelow_dirtyCount he bnodeDepth
    rw [nullEntries, droppedEntries]
    split
    · simp only [dirtyCountEntries, dropChild_dirtyCount, droppedDirty_cons]
      have := hrest bnodeDepth stackDepth
      omega
    · split
      · simp only [dirtyCountEntries, droppedDirty_append]
        have := hrest bnodeDepth (stackDepth + 1)
        have := hown stackDepth
        omega
      · split
        · simp only [dirtyCountEntries, droppedDirty_append]
          have := hrest (bnodeDepth + 1) stackDepth
          have := hown (nullEntries offset es (bnodeDepth + 1) stackDepth).stackDepth
          omega
        · simp only [dirtyCountEntries]
          have := hrest bnodeDepth stackDepth
          omega

theorem countsDropped (node : Bnode) : CountsDropped offset node := by
  induction node using Bnode.induction with
  | h node ih =>
    obtain ⟨level, entries, diskOffset, isDirty⟩ := node
    intro bnodeDepth stackDepth
    have hentries := nullEntries_dirtyCount ih bnodeDepth stackDepth
    simp only [nullBnode, droppedBnode, Bnode.dirtyCount] at hentries ⊢
    omega

theorem droppedDirty_eq_zero {dropped : List BnodeEntry} :
    droppedDirty dropped = 0 ↔ ∀ e ∈ dropped, e.dirtyCount = 0 := by
  induction dropped with
  | nil => simp [droppedDirty]
  | cons e dropped ih => rw [droppedDirty_cons, Nat.add_eq_zero_iff, ih, forall_mem_cons]

/-- A dirty node is gone afterwards exactly if it was below an evicted entry. -/
theorem hbtrieNullEntriesByOffset_dirtyCount (root : HbtrieNode) :
    (hbtrieNullEntriesByOffset root offset).1.dirtyCount = root.dirtyCount ↔
      ∀ e ∈ evictedEntries root offset, e.dirtyCount = 0 := by
  unfold hbtrieNullEntriesByOffset evictedEntries
  split
  · simp
  · have hcount := nullNode_dirtyCount (@countsDropped offset root.btree) 0
    rw [← droppedDirty_eq_zero]
    dsimp only
    constructor
    · intro h
      omega
    · intro h
      omega

end Count

/-! ### The trie after the walk -/

@[simp] theorem BnodeEntry.dropChild_stored (e : BnodeEntry) : e.dropChild.stored = e.stored := by
  cases e <;> rfl

@[simp] theorem BnodeEntry.dropChild_bnodeBelow (e : BnodeEntry) :
    e.dropChild.bnodeBelow = none := by
  cases e <;> rfl

/-- What the walk can do to an entry: nothing, drop its child, or go on below it. `drops`
holds of the entries dropped on the way. -/
inductive EntryNulled (offset : Nat) (drops : BnodeEntry → Prop) : BnodeEntry → BnodeEntry → Prop
  | same (e : BnodeEntry) : EntryNulled offset drops e e
  | dropped (e : BnodeEntry) : drops e → EntryNulled offset drops e e.dropChild
  | walked (e : BnodeEntry) (bnodeDepth stackDepth : Nat) :
      (∀ x ∈ droppedBelow offset e bnodeDepth stackDepth, drops x) →
        EntryNulled offset drops e (nullBelow offset e bnodeDepth stackDepth).kept

variable {offset bnodeDepth stackDepth : Nat} {drops : BnodeEntry → Prop} {e : BnodeEntry}

theorem nullEntries_forall₂ {es : List BnodeEntry}
    (h : ∀ x ∈ droppedEntries offset es bnodeDepth stackDepth, drops x) :
    List.Forall₂ (EntryNulled offset drops) es
      (nullEntries offset es bnodeDepth stackDepth).kept := by
  induction es generalizing bnodeDepth stackDepth with
  | nil => exact .nil
  | cons e es ih =>
    rw [droppedEntries] at h
    rw [nullEntries]
    split_ifs at h ⊢
    · obtain ⟨hown, hrest⟩ := forall_mem_cons.mp h
      exact .cons (.dropped e hown) (ih hrest)
    · obtain ⟨hown, hrest⟩ := forall_mem_append.mp h
      exact .cons (.walked e _ _ hown) (ih hrest)
    · obtain ⟨hown, hrest⟩ := forall_mem_append.mp h
      exact .cons (.walked e _ _ hown) (ih hrest)
    · exact .cons (.same e) (ih h)

theorem EntryNulled.stored {e' : BnodeEntry} (h : EntryNulled offset drops e e') :
    e'.stored = e.stored := by
  cases h with
  | same => rfl
  | dropped => exact e.dropChild_stored
  | walked =>
    cases e <;> rfl

section Sim

variable {load : Loader}

/-- A bnode after the walk and before it, when every dropped subtree is saved. -/
def Evicts (load : Loader) (offset : Nat) (after before : Bnode) : Prop :=
  Reloads load after before ∨
    ∃ bnodeDepth stackDepth, after = (nullBnode offset before bnodeDepth stackDepth).kept ∧
      ∀ e ∈ droppedBnode offset before bnodeDepth stackDepth, e.SavedDown load

theorem Evicts.refl (node : Bnode) : Evicts load offset node node := .inl (.inl rfl)

theorem Evicts.forall₂ {after before : Bnode}
    (h : after = (nullBnode offset before bnodeDepth stackDepth).kept)
    (hdropped : ∀ e ∈ droppedBnode offset before bnodeDepth stackDepth, e.SavedDown load) :
    after.level = before.level ∧
      List.Forall₂ (EntryNulled offset (SavedDown load)) before.entries after.entries := by
  subst h
  obtain ⟨level, entries, diskOffset, isDirty⟩ := before
  exact ⟨rfl, nullEntries_forall₂ hdropped⟩

/-- Going on below an entry keeps the relation there. -/
theorem EntryNulled.walked_sim
    (hdropped : ∀ x ∈ droppedBelow offset e bnodeDepth stackDepth, x.SavedDown load) :
    EntrySim load load (Evicts load offset) (nullBelow offset e bnodeDepth stackDepth).kept e := by
  have hnode : ∀ next : HbtrieNode,
      (∀ x ∈ droppedNode offset next stackDepth, x.SavedDown load) →
      Evicts load offset (nullNode offset next stackDepth).kept.btree next.btree := by
    rintro ⟨btree, diskOffset, isDirty⟩ hdrop
    exact .inr ⟨0, stackDepth, rfl, hdrop⟩
  cases e with
  | child node | value content pathMeta node =>
    refine ⟨rfl, .none, ?_⟩
    cases node with
    | none => exact SubtrieSim.refl Evicts.refl _
    | some next => exact .both (hnode next hdropped)
  | childBnode node =>
    refine ⟨rfl, ?_, SubtrieSim.refl Evicts.refl _⟩
    cases node with
    | none => exact (EntrySim.refl Evicts.refl _).inner
    | some child => exact .some (.inr ⟨bnodeDepth, stackDepth, rfl, hdropped⟩)

/-- The walk is not visible to lookups when all that it drops is saved. -/
theorem evicts_sim (offset : Nat) (hpages : BarePages load) :
    ReadSim load load (Evicts load offset) where
  level := by
    rintro after before (hreload | ⟨_, _, hafter, hdropped⟩)
    · exact (reloads_sim hpages).level hreload
    · exact (Evicts.forall₂ hafter hdropped).1
  keys := by
    rintro after before (hreload | ⟨_, _, hafter, hdropped⟩)
    · exact (reloads_sim hpages).keys hreload
    · have hpairs := (Evicts.forall₂ hafter hdropped).2
      generalize before.entries = es, after.entries = es' at hpairs
      induction hpairs with
      | nil => rfl
      | cons hentry _ ih =>
        exact congrArg₂ cons (congrArg (key ·) hentry.stored :) ih
  entry := by
    rintro after before i e e' (hreload | ⟨_, _, hafter, hdropped⟩) he he'
    · obtain ⟨hcontent, hinner, hunder⟩ := (reloads_sim hpages).entry hreload he he'
      refine ⟨hcontent, ?_, ?_⟩
      · rcases optionRel_iff.mp hinner with ⟨hc, hc'⟩ | ⟨child, child', hc, hc', hchild⟩
        · rw [hc, hc']
          exact .none
        · rw [hc, hc']
          exact .some (.inl hchild)
      · generalize e.loadedTrieNode load = next, e'.loadedTrieNode load = next' at hunder ⊢
        cases hunder with
        | both hnext => exact .both (.inl hnext)
        | neither => exact .neither
        | left hvacant => exact .left hvacant
        | right hvacant => exact .right hvacant
    · have hentry : EntryNulled offset (SavedDown load) e' e := by
        have hpairs := (Evicts.forall₂ hafter hdropped).2
        obtain ⟨hi, rfl⟩ := List.getElem?_eq_some_iff.mp he
        obtain ⟨hi', rfl⟩ := List.getElem?_eq_some_iff.mp he'
        exact hpairs.get hi' hi
      cases hentry with
      | same => exact EntrySim.refl Evicts.refl _
      | dropped hsaved =>
        exact hsaved.sim hpages Evicts.refl
          (fun _ _ hstored hbare hbelow => .inl (.inr ⟨hstored, hbare, hbelow⟩))
          e'.dropChild_stored e'.dropChild_bnodeBelow
      | walked _ _ hdrops => exact EntryNulled.walked_sim hdrops

end Sim

/-! ### Eviction -/

/-- An eviction leaves every lookup as it was and every dirty node in memory if, below the entries
it drops a child of, no node is dirty and all is saved. A dirty node there is lost. -/
theorem hbtrieNullEntriesByOffset_keeps (load : Loader) (root : HbtrieNode) (offset : Nat)
    (hpages : BarePages load) :
    ((∀ e ∈ evictedEntries root offset, e.dirtyCount = 0 ∧ e.SavedDown load) →
      (∀ path readTxnId, hbtrieFind load (hbtrieNullEntriesByOffset root offset).1 path readTxnId =
          hbtrieFind load root path readTxnId) ∧
        (hbtrieNullEntriesByOffset root offset).1.dirtyCount = root.dirtyCount) ∧
      ((hbtrieNullEntriesByOffset root offset).1.dirtyCount = root.dirtyCount →
        ∀ e ∈ evictedEntries root offset, e.dirtyCount = 0) := by
  have hcount := @hbtrieNullEntriesByOffset_dirtyCount offset root
  refine ⟨fun hdropped => ⟨fun path readTxnId => ?_, hcount.mpr fun e he => (hdropped e he).1⟩,
    hcount.mp⟩
  unfold hbtrieNullEntriesByOffset evictedEntries at *
  split
  · rfl
  · rename_i hoffset
    rw [if_neg hoffset] at hdropped
    refine bind_eq_of_stored_eq (Content.stored_visible readTxnId)
      ((evicts_sim offset hpages).findEntry ?_ (pathSteps path))
    obtain ⟨btree, diskOffset, isDirty⟩ := root
    exact .inr ⟨0, 0, rfl, fun e he => (hdropped e he).2⟩

def oneEntry (key : Bytes) (slot : Slot) (childDiskOffset offset : Nat) : Bnode :=
  { level := 1
    entries := [{ key := paddedChunk defaultChunkSize key, slot, childDiskOffset }]
    diskOffset := some offset
    isDirty := false }

/-- The page of a leaf with `efgh` over `[1]`. -/
def efghPage : Bnode :=
  oneEntry [101, 102, 103, 104] (.value (.legacy [1] ⟨0, 0, 0⟩) [] none) 0 8192

/-- The page of a leaf with `ijkl` over `[3]`. -/
def ijklPage : Bnode :=
  oneEntry [105, 106, 107, 108] (.value (.legacy [3] ⟨0, 0, 0⟩) [] none) 0 4096

def efghLoader : Loader := fun offset =>
  if offset = 8192 then some efghPage else if offset = 4096 then some ijklPage else none

/-- A root with `abcd` over the page of `efgh`, of which this is in memory. -/
def abcdRoot (child : Option HbtrieNode) : HbtrieNode where
  btree := oneEntry [97, 98, 99, 100] (.child child) 8192 8212
  diskOffset := some 8212
  isDirty := false

theorem efghLoader_bare : BarePages efghLoader := by
  intro offset page hload e he
  simp only [efghLoader] at hload
  split at hload
  · cases hload
    rw [mem_singleton.mp he]
    rfl
  · obtain ⟨-, hpage⟩ := Option.ite_none_right_eq_some.mp hload
    cases hpage
    rw [mem_singleton.mp he]
    rfl

/-- The trie after a lookup of `abcd/efgh`: the page is in memory. -/
def lookedUp : HbtrieNode :=
  abcdRoot (some { btree := efghPage, diskOffset := some 8192, isDirty := false })

def overwritten : HbtrieNode :=
  (hbtrieInsert defaultConfig efghLoader (abcdRoot none) childPath [2] ⟨0, 0, 1⟩).1

/-- The node of `efgh` has `ijkl` below it, but its page was written while that was not loaded. -/
def forgotten : HbtrieNode :=
  abcdRoot (some { btree := oneEntry [101, 102, 103, 104]
                     (.value (.legacy [1] ⟨0, 0, 0⟩) [] none) 4096 8192
                   diskOffset := some 8192
                   isDirty := false })

/-- `abcd/efgh/ijkl`. -/
def grandchildPath : Path :=
  pathOf defaultChunkSize [[97, 98, 99, 100], [101, 102, 103, 104], [105, 106, 107, 108]]

/-- A node that was only read can go. -/
theorem hbtrieNullEntriesByOffset_keeps_lookup : (hbtrieNullEntriesByOffset lookedUp 8192).2 = 1 ∧
      hbtrieFind efghLoader lookedUp childPath ⟨0, 0, 1⟩ = some [1] ∧
      ∀ path readTxnId,
        hbtrieFind efghLoader (hbtrieNullEntriesByOffset lookedUp 8192).1 path readTxnId =
          hbtrieFind efghLoader lookedUp path readTxnId := by
  have hkeeps := (hbtrieNullEntriesByOffset_keeps efghLoader lookedUp 8192 efghLoader_bare).1
  refine ⟨by decide +kernel, by decide +kernel, (hkeeps fun e he => ?_).1⟩
  have hevicted : evictedEntries lookedUp 8192 =
      [{ key := paddedChunk defaultChunkSize [97, 98, 99, 100]
         slot := .child (some { btree := efghPage, diskOffset := some 8192, isDirty := false })
         childDiskOffset := 8192 }] := rfl
  rw [hevicted, mem_singleton] at he
  subst he
  have hbare : efghPage.Bare := efghLoader_bare 8192 efghPage rfl
  refine ⟨rfl, ⟨nofun, ?_⟩, ⟨nofun, ?_⟩⟩
  · rintro next ⟨⟩
    exact .inl ⟨by decide, efghPage, rfl, rfl⟩
  · rintro next ⟨⟩
    refine hbare.everywhere fun e he => ⟨fun child hslot => ?_, fun next hnext => ?_⟩
    · have hnone := hbare e he
      rw [bnodeBelow_childBnode hslot] at hnone
      cases hnone
    · have hnone := hbare e he
      rw [bnodeBelow_trieNode hnext] at hnone
      cases hnone

/-- A node that was written since goes as well, and with it the value `[2]`; and a node that was
not written goes with the only offset of what is below it. -/
theorem hbtrieNullEntriesByOffset_loses_update : BarePages efghLoader ∧
      (hbtrieFind efghLoader overwritten childPath ⟨0, 0, 1⟩ = some [2] ∧
        hbtrieFind efghLoader (hbtrieNullEntriesByOffset overwritten 8192).1 childPath ⟨0, 0, 1⟩ =
          some [1] ∧
        overwritten.dirtyCount = 4 ∧
        (hbtrieNullEntriesByOffset overwritten 8192).1.dirtyCount = 2) ∧
      forgotten.dirtyCount = 0 ∧
      hbtrieFind efghLoader forgotten grandchildPath ⟨0, 0, 1⟩ = some [3] ∧
      hbtrieFind efghLoader (hbtrieNullEntriesByOffset forgotten 8192).1 grandchildPath ⟨0, 0, 1⟩ =
        none := by
  refine ⟨efghLoader_bare, ?_⟩
  decide +kernel

end WaveDB.HBTrie
