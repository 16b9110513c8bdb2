import WaveDB.HBTrie.EvictionReads
import WaveDB.HBTrie.Gc
import WaveDB.HBTrie.NodeShape
import WaveDB.HBTrie.Positions

/-!
The `is_dirty` flags of trie nodes.

A flush writes the dirty bnodes of dirty trie nodes, so a trie node whose flag is set while
all bnodes of its B+tree are clean (one that is not `Backed`) is never written and never
cleared. `backedRule` shows that inserts and deletes leave no such node behind;
`hbtrieGc_backed` and `hbtrieNullEntriesByOffset_backed` do the same for garbage collection
and for eviction, the latter for evictions that drop no dirty bnode out of a B+tree.
-/

namespace WaveDB.HBTrie

open WaveDB.Basis Workers List Bnode.TriesBelow BnodeEntry Bnode

/-! ### Dirty bnodes of one B+tree -/

def Bnode.HasDirty (node : Bnode) : Prop := ∃ b, node.InTree b ∧ b.isDirty = true

def HbtrieNode.Backed (node : HbtrieNode) : Prop := node.isDirty = true → node.btree.HasDirty

abbrev Bnode.TriesBacked (node : Bnode) : Prop := node.Everywhere (TriesBelow HbtrieNode.Backed)

variable {node node' : Bnode} {Q : HbtrieNode → Prop} {root : HbtrieNode}

theorem Bnode.hasDirty_iff : node.HasDirty ↔ node.isDirty ∨
      ∃ e ∈ node.entries, ∃ child, e.slot = .childBnode (some child) ∧ child.HasDirty := by
  constructor
  · rintro ⟨b, hb, hdirty⟩
    cases hb with
    | self => exact .inl hdirty
    | child he hslot hchild => exact .inr ⟨_, he, _, hslot, b, hchild, hdirty⟩
  · rintro (hself | ⟨e, he, child, hslot, b, hb, hdirty⟩)
    · exact ⟨node, .self, hself⟩
    · exact ⟨b, .child he hslot hb, hdirty⟩

theorem Bnode.InTree.contains {b : Bnode} (h : node.InTree b) : node.Contains b := by
  induction h with
  | self => exact .self
  | child he hslot _ ih => exact .inner he hslot ih

theorem Bnode.Contains.trans {b c : Bnode} (h : node.Contains b) (hb : b.Contains c) :
    node.Contains c := by
  induction h with
  | self => exact hb
  | inner he hslot _ ih => exact .inner he hslot (ih hb)
  | under he hnext _ ih => exact .under he hnext (ih hb)

/-! ### The descent of an operation -/

section Descent

variable {load : Loader}

theorem zipUp_hasDirty {root leaf leaf' : Bnode} {frames : List BtreeFrame}
    (hdescent : Descends load root frames leaf) (hroot : root.HasDirty)
    (hleaf : leaf.HasDirty → leaf'.HasDirty) : (zipUp frames leaf').HasDirty := by
  induction hdescent with
  | here => exact hleaf hroot
  | @down node child leaf frames index e _ he hchild _ ih =>
    rcases hasDirty_iff.mp hroot with hself | ⟨x, hx, below, hslot, hbelow⟩
    · exact hasDirty_iff.mpr (.inl hself)
    · obtain ⟨i, hi⟩ := mem_iff_getElem?.mp hx
      by_cases hindex : i = index
      · -- the dirty bnode is below the entry the descent followed
        subst hindex
        rw [he] at hi
        cases hi
        rw [loadedBnode, hslot] at hchild
        cases hchild
        obtain ⟨b, hb, hdirty⟩ := ih hbelow hleaf
        exact ⟨b, BtreeFrame.plug_inTree he hb, hdirty⟩
      · obtain ⟨b, hb, hdirty⟩ := hbelow
        have hkept : x ∈ (BtreeFrame.plug ⟨node, index⟩ (zipUp frames leaf')).entries := by
          refine mem_iff_getElem?.mpr ⟨i, ?_⟩
          simp [BtreeFrame.plug, Ne.symm hindex, hi]
        exact ⟨b, .child hkept hslot hb, hdirty⟩

theorem Bnode.HasDirty.setEntry {leaf : Bnode} {index : Nat} {e e' : BnodeEntry}
    (h : leaf.HasDirty) (he : leaf.entries[index]? = some e)
    (hslot : ∀ child, e.slot ≠ .childBnode (some child)) : (leaf.setEntry index e').HasDirty := by
  rcases hasDirty_iff.mp h with hself | ⟨x, hx, child, hchild, hbelow⟩
  · exact hasDirty_iff.mpr (.inl hself)
  · rcases eq_or_mem_set he hx with rfl | hx
    · exact absurd hchild (hslot child)
    · exact hasDirty_iff.mpr (.inr ⟨x, hx, child, hchild, hbelow⟩)

end Descent

/-! ### Inserts and deletes -/

def backedSpec : TrieSpec where
  key _ := True
  content _ := True
  pathMeta _ := True
  bnode := Bnode.TriesBelow HbtrieNode.Backed
  trie := HbtrieNode.Backed
  succ _ _ := True
  level _ _ := True

theorem Bnode.TriesBelow.setEntry {leaf : Bnode} {index : Nat} {e : BnodeEntry}
    (h : leaf.TriesBelow Q) (he : ∀ next, e.trieNode = some next → Q next) :
    (leaf.setEntry index e).TriesBelow Q := by
  refine h.of_entries fun x hx => ?_
  rcases mem_or_eq_of_mem_set hx with hx | rfl
  · exact .inl hx
  · exact .inr he

theorem Bnode.TriesBelow.insert {e : BnodeEntry} (h : node.TriesBelow Q)
    (he : ∀ next, e.trieNode = some next → Q next) : (bnodeInsert node e).TriesBelow Q := by
  refine h.of_entries fun x hx => ?_
  rcases eq_or_mem_of_mem_insertIdx hx with rfl | hx
  · exact .inr he
  · exact .inl hx

theorem Bnode.triesBelow_create (level : Nat) : (bnodeCreateWithLevel level).TriesBelow Q := nofun

theorem Bnode.triesBelow_newRoot (node : Bnode) (split : PendingSplit) :
    (newRoot node split).TriesBelow Q := by
  have hinsert {root : Bnode} (hroot : root.TriesBelow Q) :=
    hroot.insert (e := ⟨split.splitKey, .childBnode (some split.right), 0⟩) (by rintro _ ⟨⟩)
  unfold newRoot
  cases node.entries.head? with
  | none => exact hinsert (triesBelow_create _)
  | some leftFirst => exact hinsert ((triesBelow_create _).insert (by rintro _ ⟨⟩))

theorem backedRule (load : Loader) : NodeRule load backedSpec where
  create := triesBelow_create 1
  keys _ _ := trivial
  tries h he hnext := h _ he _ hnext
  levels _ _ _ _ := trivial
  refl _ := trivial
  changed _ := trivial
  levelRefl _ := trivial
  levelTrans _ _ := trivial
  fresh h := nomatch h
  loaded _ h := nomatch h
  dirtied _ hb hdirty _ := ⟨_, hb, hdirty⟩
  attached := by
    intro node frames leaf leaf' htrie hdescent hleaf hdirty
    refine zipUp_hasDirty hdescent (htrie hdirty) fun h => ?_
    rcases hleaf with rfl | ⟨index, e, next, he, hslot, rfl⟩
    · exact h
    · exact h.setEntry he hslot
  markDirty h := h
  plug h _ _ _ _ _ := by
    refine ⟨of_entries h fun x hx => ?_, trivial⟩
    rcases BtreeFrame.mem_plug hx with hx | ⟨old, -, rfl⟩
    · exact .inl hx
    · exact .inr nofun
  newValue h _ _ _ _ _ := insert h nofun
  newChild h _ _ _ _ htrie := by
    refine insert h fun next hnext => ?_
    cases hnext
    exact htrie
  insertValue h _ hfound _ _ := by
    refine setEntry h fun next hnext => ?_
    rw [insertValue_trieNode] at hnext
    exact h _ (mem_of_bnodeFind hfound) next hnext
  setTrieNode h _ _ _ htrie := by
    refine ⟨setEntry h fun next hnext => ?_, trivial⟩
    rw [setTrieNode_trieNode] at hnext
    cases hnext
    exact htrie
  deleteValue h _ hfound _ _ := by
    refine setEntry h fun next hnext => ?_
    rw [deleteValue_trieNode] at hnext
    exact h _ (mem_of_bnodeFind hfound) next hnext
  insertChild h _ _ _ _ _ _ := insert h nofun
  split h hsplit := by
    obtain ⟨hleft, hright⟩ := mem_of_bnodeSplit hsplit
    exact ⟨of_entries h fun e he => .inl (hleft e he), of_entries h fun e he => .inl (hright e he)⟩
  newRoot _ _ _ _ _ := triesBelow_newRoot _ _

section Calls

variable {load : Loader}

theorem BarePages.triesBelow (hbare : BarePages load) : LoadsAll (Bnode.TriesBelow Q) load := by
  intro offset page hload b hb
  have hnone := hbare offset page hload
  cases hb with
  | self =>
    intro e he next hnext
    cases (hnone e he).symm.trans (bnodeBelow_trieNode hnext)
  | inner he hslot => cases (hnone _ he).symm.trans (bnodeBelow_childBnode hslot)
  | under he hnext => cases (hnone _ he).symm.trans (bnodeBelow_trieNode hnext)

/-- What an insert does to a B+tree does not depend on the flags around it. -/
theorem hbtrieInsertSteps_btree (cfg : Config) (load : Loader) (value : Bytes)
    (txnId : TransactionId) (steps : List PathStep) (pathMeta : List PathSubscriptMeta)
    (node : HbtrieNode) (isDirty : Bool) :
    (hbtrieInsertSteps cfg load value txnId pathMeta { node with isDirty } steps).1.btree =
      (hbtrieInsertSteps cfg load value txnId pathMeta node steps).1.btree := by
  fun_induction hbtrieInsertSteps cfg load value txnId pathMeta node steps with
  | case1 => rfl
  | case2 _ _ _ _ hrefused => simp only [hbtrieInsertSteps, hrefused, if_true]
  | case3 _ _ _ _ hrefused ih => rwa [hbtrieInsertSteps, if_neg hrefused]
  | case4 _ _ _ _ hnone => simp only [hbtrieInsertSteps, hnone]
  | _ => simp only [hbtrieInsertSteps, *]; rfl

theorem hbtrieDeleteSteps_btree (load : Loader) (txnId : TransactionId) (steps : List PathStep)
    (node : HbtrieNode) (isDirty : Bool) :
    (hbtrieDeleteSteps load txnId { node with isDirty } steps).1.btree =
      (hbtrieDeleteSteps load txnId node steps).1.btree := by
  fun_induction hbtrieDeleteSteps load txnId node steps with
  | case1 => rfl
  | case2 node identifier rest ih => exact ih
  | case3 _ _ _ hnone => simp only [hbtrieDeleteSteps, hnone]
  | _ => simp only [hbtrieDeleteSteps, *]; rfl

/-- An insert leaves every trie node below the root backed. The flag of the root itself may
be anything. -/
theorem hbtrieInsert_backed (cfg : Config) (path : Path) (value : Bytes) (txnId : TransactionId)
    (hbare : BarePages load) (h : root.btree.TriesBacked) :
    (hbtrieInsert cfg load root path value txnId).1.btree.TriesBacked := by
  have hkept : Kept backedSpec { root with isDirty := false }
      (hbtrieInsert cfg load { root with isDirty := false } path value txnId).1 :=
    hbtrieInsert_kept (backedRule load) hbare.triesBelow cfg
      ⟨fun _ _ => trivial, fun _ _ _ => trivial⟩ h (nofun) trivial
  unfold hbtrieInsert at hkept ⊢
  split
  · exact h
  · rename_i hpath
    rw [if_neg hpath] at hkept
    rw [← hbtrieInsertSteps_btree cfg load value txnId (pathSteps path) [] root false]
    exact hkept.everywhere

theorem hbtrieDelete_backed (path : Path) (txnId : TransactionId) (hbare : BarePages load)
    (h : root.btree.TriesBacked) : (hbtrieDelete load root path txnId).1.btree.TriesBacked := by
  rw [hbtrieDelete, ← hbtrieDeleteSteps_btree load txnId (pathSteps path) root false]
  have hkept : Kept backedSpec { root with isDirty := false }
      (hbtrieDeleteSteps load txnId { root with isDirty := false } (pathSteps path)).1 :=
    hbtrieDeleteSteps_kept (backedRule load) hbare.triesBelow h (nofun)
      fun _ _ => trivial
  exact hkept.everywhere

end Calls

/-! ### Walks over the trie in memory -/

/-- A way to change bnodes that brings in no new child: what is below the new bnode comes
from below the old one, and `Q` is kept from each trie node to the new one. -/
structure Rewriting (Q : HbtrieNode → Prop) (R : Bnode → Bnode → Prop) : Prop where
  inner : ∀ {node node' e' child'}, R node node' → e' ∈ node'.entries →
    e'.slot = .childBnode (some child') →
      ∃ e ∈ node.entries, ∃ child, e.slot = .childBnode (some child) ∧ R child child'
  under : ∀ {node node' e' next'}, R node node' → e' ∈ node'.entries → e'.trieNode = some next' →
    ∃ e ∈ node.entries, ∃ next, e.trieNode = some next ∧ R next.btree next'.btree ∧
      (Q next → Q next')

theorem Rewriting.contains {R : Bnode → Bnode → Prop} (rewriting : Rewriting Q R) {b' : Bnode}
    (h : R node node') (hb : node'.Contains b') : ∃ b, node.Contains b ∧ R b b' := by
  induction hb generalizing node with
  | self => exact ⟨node, .self, h⟩
  | inner he hslot _ ih =>
    obtain ⟨e, he, child, hslot, hchild⟩ := rewriting.inner h he hslot
    obtain ⟨b, hb, hR⟩ := ih hchild
    exact ⟨b, .inner he hslot hb, hR⟩
  | under he hnext _ ih =>
    obtain ⟨e, he, next, hnext, hbelow, -⟩ := rewriting.under h he hnext
    obtain ⟨b, hb, hR⟩ := ih hbelow
    exact ⟨b, .under he hnext hb, hR⟩

theorem Rewriting.everywhere {R : Bnode → Bnode → Prop} (rewriting : Rewriting Q R)
    (h : R node node') (hnode : node.Everywhere (Bnode.TriesBelow Q)) :
    node'.Everywhere (Bnode.TriesBelow Q) := by
  intro b' hb' e' he' next' hnext'
  obtain ⟨b, hb, hR⟩ := rewriting.contains h hb'
  obtain ⟨e, he, next, hnext, -, hQ⟩ := rewriting.under hR he' hnext'
  exact hQ (hnode b hb e he next hnext)

/-! ### Garbage collection -/

section Gc

variable (mode : GcMode) {e : BnodeEntry}

theorem gcBnode_isDirty (node : Bnode) : (gcBnode mode node).kept.isDirty =
    (node.isDirty || mode.marksDirty && node.entries.any (gcTouches mode)) := by
  cases node
  rfl

theorem gcNode_isDirty (node : HbtrieNode) : (gcNode mode node).kept.isDirty =
    (node.isDirty || mode.marksDirty && (gcBnode mode node.btree).marked) := by
  cases node
  rfl

theorem mem_gcBnode_childBnode {child : Bnode} (he : e ∈ node.entries)
    (hslot : e.slot = .childBnode (some child)) : ∃ e' ∈ (gcBnode mode node).kept.entries,
      e'.slot = .childBnode (some (gcBnode mode child).kept) := by
  have hkept := gcEntry_childBnode mode hslot
  refine ⟨⟨e.key, .childBnode (some (gcBnode mode child).kept), e.childDiskOffset⟩, ?_, rfl⟩
  rw [gcBnode_entries]
  exact mem_filterMap.mpr ⟨e, he, hkept⟩

theorem gcBnode_hasDirty (h : node.HasDirty) : (gcBnode mode node).kept.HasDirty := by
  obtain ⟨b, hb, hdirty⟩ := h
  induction hb with
  | self =>
    refine hasDirty_iff.mpr (.inl ?_)
    rw [gcBnode_isDirty, hdirty, Bool.true_or]
  | child he hslot _ ih =>
    obtain ⟨e', he', hslot'⟩ := mem_gcBnode_childBnode mode he hslot
    exact hasDirty_iff.mpr (.inr ⟨e', he', _, hslot', ih hdirty⟩)

theorem gcEntries_marked (entries : List BnodeEntry) :
    (gcEntries mode entries).marked = entries.any fun e => (gcEntry mode e).marked := by
  induction entries with
  | nil => rfl
  | cons e entries ih => rw [gcEntries, ih, any_cons]

/-- `mark_dirty` was called for the entry's own bnode or below its child bnode. -/
theorem gcEntry_marked (h : (gcEntry mode e).marked) : gcTouches mode e ∨
      ∃ child, e.slot = .childBnode (some child) ∧ (gcBnode mode child).marked = true := by
  cases e with
  | childBnode child =>
    cases child with
    | none => cases h
    | some child => exact .inr ⟨child, rfl, h⟩
  | child node => cases h
  | value content pathMeta node =>
    cases content with
    | legacy value txnId => cases h
    | versions chain => exact .inl h

/-- A collector that marks the trie node marks a bnode of its B+tree. -/
theorem gcBnode_marked (hmarks : mode.marksDirty) (node : Bnode)
    (h : (gcBnode mode node).marked) : (gcBnode mode node).kept.HasDirty := by
  induction node using induction with
  | h node ih =>
    have hmarked : (gcBnode mode node).marked = (gcEntries mode node.entries).marked := by
      cases node
      rfl
    rw [hmarked, gcEntries_marked] at h
    obtain ⟨e, he, hentry⟩ := any_eq_true.mp h
    rcases gcEntry_marked mode hentry with htouched | ⟨child, hslot, hchild⟩
    · refine hasDirty_iff.mpr (.inl ?_)
      have hany : node.entries.any (gcTouches mode) = true := any_eq_true.mpr ⟨e, he, htouched⟩
      rw [gcBnode_isDirty, hmarks, hany, Bool.and_self, Bool.or_true]
    · obtain ⟨e', he', hslot'⟩ := mem_gcBnode_childBnode mode he hslot
      exact hasDirty_iff.mpr (.inr ⟨e', he', _, hslot',
        ih e he child (bnodeBelow_childBnode hslot) hchild⟩)

theorem gcNode_backed {node : HbtrieNode} (h : node.Backed) : (gcNode mode node).kept.Backed := by
  intro hdirty
  rw [gcNode_isDirty, Bool.or_eq_true, Bool.and_eq_true] at hdirty
  rw [gcNode_btree]
  rcases hdirty with hdirty | ⟨hmarks, hmarked⟩
  · exact gcBnode_hasDirty mode (h hdirty)
  · exact gcBnode_marked mode hmarks node.btree hmarked

theorem gcEntry_cases {e' : BnodeEntry} (h : (gcEntry mode e).kept = some e') :
    (∃ child, e.slot = .childBnode child ∧
      e'.slot = .childBnode (child.map fun b => (gcBnode mode b).kept)) ∨
    (∀ child, e'.slot ≠ .childBnode child) ∧ (e'.trieNode = e.trieNode ∨
        e'.trieNode = e.trieNode.map fun node => (gcNode mode node).kept) := by
  cases e with
  | childBnode child =>
    cases h
    cases child <;> exact .inl ⟨_, rfl, rfl⟩
  | child node =>
    cases h
    refine .inr ⟨fun _ hslot => (nomatch hslot), .inr ?_⟩
    cases node <;> rfl
  | value content pathMeta node =>
    cases content with
    | legacy value txnId =>
      cases h
      refine .inr ⟨fun _ hslot => (nomatch hslot), .inr ?_⟩
      cases node <;> rfl
    | versions chain =>
      obtain ⟨content, -, rfl⟩ := Option.map_eq_some_iff.mp h
      exact .inr ⟨fun _ hslot => (nomatch hslot), .inl rfl⟩

theorem gc_rewriting : Rewriting HbtrieNode.Backed fun node node' =>
    node' = node ∨ node' = (gcBnode mode node).kept where
  inner := by
    rintro node node' e' child' (rfl | rfl) he' hslot'
    · exact ⟨e', he', child', hslot', .inl rfl⟩
    · rw [gcBnode_entries] at he'
      obtain ⟨e, he, hkept⟩ := mem_filterMap.mp he'
      rcases gcEntry_cases mode hkept with ⟨child, hslot, hgc⟩ | ⟨hleaf, -⟩
      · rw [hgc] at hslot'
        obtain ⟨old, rfl, rfl⟩ := Option.map_eq_some_iff.mp (Slot.childBnode.inj hslot')
        exact ⟨e, he, old, hslot, .inr rfl⟩
      · exact absurd hslot' (hleaf _)
  under := by
    rintro node node' e' next' (rfl | rfl) he' hnext'
    · exact ⟨e', he', next', hnext', .inl rfl, id⟩
    · rw [gcBnode_entries] at he'
      obtain ⟨e, he, hkept⟩ := mem_filterMap.mp he'
      rcases gcEntry_cases mode hkept with ⟨child, -, hgc⟩ | ⟨-, hsame | hgc⟩
      · rw [trieNode, hgc] at hnext'
        cases hnext'
      · exact ⟨e, he, next', hsame ▸ hnext', .inl rfl, id⟩
      · rw [hgc] at hnext'
        obtain ⟨next, hnext, rfl⟩ := Option.map_eq_some_iff.mp hnext'
        exact ⟨e, he, next, hnext, .inr (gcNode_btree mode next), gcNode_backed mode⟩

theorem hbtrieGc_backed (minActive : TransactionId) (h : root.btree.TriesBacked) :
    (hbtrieGc root minActive).1.btree.TriesBacked :=
  (gc_rewriting (gcMode minActive)).everywhere (.inr (gcNode_btree _ root)) h

end Gc

/-! ### Eviction -/

section Evict

variable {offset : Nat} {e e' : BnodeEntry}

theorem mem_of_forall₂ {α β : Type} {R : α → β → Prop} {xs : List α} {ys : List β}
    (h : List.Forall₂ R xs ys) {x : α} (hx : x ∈ xs) : ∃ y ∈ ys, R x y := by
  induction h with
  | nil => cases hx
  | cons hR _ ih =>
    rcases mem_cons.mp hx with rfl | hx
    · exact ⟨_, mem_cons_self, hR⟩
    · obtain ⟨y, hy, hR⟩ := ih hx
      exact ⟨y, mem_cons_of_mem _ hy, hR⟩

def Bnode.TreeClean (node : Bnode) : Prop := ∀ b, node.InTree b → b.isDirty = false

/-- Dropping the child of the entry drops no dirty bnode out of a B+tree. -/
def KeepsDirty (e : BnodeEntry) : Prop :=
  ∀ child, e.slot = .childBnode (some child) → child.TreeClean

/-- A bnode after the walk, or one the walk did not come to. -/
def WalkedFrom (offset : Nat) (node node' : Bnode) : Prop :=
  node' = node ∨ ∃ bnodeDepth stackDepth,
    node' = (nullBnode offset node bnodeDepth stackDepth).kept ∧
      ∀ x ∈ droppedBnode offset node bnodeDepth stackDepth, KeepsDirty x

theorem WalkedFrom.forall₂ (h : WalkedFrom offset node node') : node'.isDirty = node.isDirty ∧
      List.Forall₂ (EntryNulled offset KeepsDirty) node.entries node'.entries := by
  rcases h with rfl | ⟨bnodeDepth, stackDepth, rfl, hdropped⟩
  · refine ⟨rfl, forall₂_same.mpr fun e _ => .same e⟩
  · cases node
    exact ⟨rfl, nullEntries_forall₂ hdropped⟩

theorem EntryNulled.childBnode {child' : Bnode} (h : EntryNulled offset KeepsDirty e e')
    (hslot' : e'.slot = .childBnode (some child')) :
    ∃ child, e.slot = .childBnode (some child) ∧ WalkedFrom offset child child' := by
  cases h with
  | same => exact ⟨child', hslot', .inl rfl⟩
  | dropped =>
    cases e <;> cases hslot'
  | walked bnodeDepth stackDepth hdropped =>
    cases e with
    | child node | value content pathMeta node => cases hslot'
    | childBnode node =>
      cases node with
      | none => cases hslot'
      | some child =>
        cases hslot'
        exact ⟨child, rfl, .inr ⟨bnodeDepth, stackDepth, rfl, hdropped⟩⟩

theorem EntryNulled.keeps {child : Bnode} (h : EntryNulled offset KeepsDirty e e')
    (hslot : e.slot = .childBnode (some child)) :
    child.TreeClean ∨ ∃ child', e'.slot = .childBnode (some child') ∧
      WalkedFrom offset child child' := by
  cases h with
  | same => exact .inr ⟨child, hslot, .inl rfl⟩
  | dropped hdrop => exact .inl (hdrop child hslot)
  | walked bnodeDepth stackDepth hdropped =>
    obtain ⟨key, slot, childDiskOffset⟩ := e
    cases hslot
    exact .inr ⟨_, rfl, .inr ⟨bnodeDepth, stackDepth, rfl, hdropped⟩⟩

theorem WalkedFrom.hasDirty (h : WalkedFrom offset node node') (hnode : node.HasDirty) :
    node'.HasDirty := by
  obtain ⟨b, hb, hdirty⟩ := hnode
  induction hb generalizing node' with
  | self => exact hasDirty_iff.mpr (.inl (h.forall₂.1.trans hdirty))
  | @child node child b e he hslot hb ih =>
    obtain ⟨e', he', hnulled⟩ := mem_of_forall₂ h.forall₂.2 he
    rcases hnulled.keeps hslot with hclean | ⟨child', hslot', hwalked⟩
    · cases (hclean b hb).symm.trans hdirty
    · exact hasDirty_iff.mpr (.inr ⟨e', he', child', hslot', ih hwalked hdirty⟩)

theorem EntryNulled.trieNode {next' : HbtrieNode} (h : EntryNulled offset KeepsDirty e e')
    (hnext' : e'.trieNode = some next') :
    ∃ next, e.trieNode = some next ∧ WalkedFrom offset next.btree next'.btree ∧
      next'.isDirty = next.isDirty := by
  have hnode : ∀ (next : HbtrieNode) (stackDepth : Nat),
      (∀ x ∈ droppedNode offset next stackDepth, KeepsDirty x) →
      WalkedFrom offset next.btree (nullNode offset next stackDepth).kept.btree ∧
        (nullNode offset next stackDepth).kept.isDirty = next.isDirty := by
    rintro ⟨btree, diskOffset, isDirty⟩ stackDepth hdropped
    exact ⟨.inr ⟨0, stackDepth, rfl, hdropped⟩, rfl⟩
  cases h with
  | same => exact ⟨next', hnext', .inl rfl, rfl⟩
  | dropped =>
    cases e <;> cases hnext'
  | walked bnodeDepth stackDepth hdropped =>
    cases e with
    | childBnode node => cases hnext'
    | child node | value content pathMeta node =>
      cases node with
      | none => cases hnext'
      | some next =>
        cases hnext'
        exact ⟨next, rfl, hnode next stackDepth hdropped⟩

theorem walkedFrom_rewriting (offset : Nat) : Rewriting HbtrieNode.Backed (WalkedFrom offset) where
  inner h he' hslot' := by
    obtain ⟨e, he, hnulled⟩ := mem_of_forall₂ h.forall₂.2.flip he'
    obtain ⟨child, hslot, hwalked⟩ := EntryNulled.childBnode hnulled hslot'
    exact ⟨e, he, child, hslot, hwalked⟩
  under h he' hnext' := by
    obtain ⟨e, he, hnulled⟩ := mem_of_forall₂ h.forall₂.2.flip he'
    obtain ⟨next, hnext, hwalked, hflag⟩ := EntryNulled.trieNode hnulled hnext'
    refine ⟨e, he, next, hnext, hwalked, fun hbacked hdirty => ?_⟩
    exact hwalked.hasDirty (hbacked (hflag ▸ hdirty))

/-- Eviction leaves every trie node below the root backed if it drops no dirty bnode out of
a B+tree. -/
theorem hbtrieNullEntriesByOffset_backed (offset : Nat)
    (hdropped : ∀ e ∈ evictedEntries root offset, KeepsDirty e) (h : root.btree.TriesBacked) :
    (hbtrieNullEntriesByOffset root offset).1.btree.TriesBacked := by
  unfold evictedEntries at hdropped
  unfold hbtrieNullEntriesByOffset
  split
  · exact h
  · rename_i hoffset
    rw [if_neg hoffset] at hdropped
    obtain ⟨btree, diskOffset, isDirty⟩ := root
    exact (walkedFrom_rewriting offset).everywhere (.inr ⟨0, 0, rfl, hdropped⟩) h

end Evict

end WaveDB.HBTrie
