import Mathlib.Data.List.InsertIdx
import WaveDB.HBTrie.SearchTree

/-!
Insertion into the B+tree keeps the search-tree invariant as long as no leaf
splits at or below the separator it hangs under.

The rebuild of the path is followed bottom-up: `growLeaf` is the leaf after the
insertion, `growNode` one ancestor, `growRoot` the possible new root. A subtree
either absorbs the entry or divides in two (`Grown`); `SearchTree.grow` proves
this for every subtree by induction on its height, and `SearchTree.btreeInsertAt`
concludes for the whole tree.
-/

namespace WaveDB.HBTrie

open WaveDB.Basis List BnodeEntry BtreeFrame List.Perm Option

/-! ### The condition -/

def overflowKey (cfg : Config) (node : Bnode) : Option Chunk :=
  if bnodeNeedsSplit cfg node then
    (node.entries[node.entries.length / 2]?).map key
  else none

/-- If the new entry makes its leaf overflow, the path to the leaf fits in
`btree_path_t` and the middle key is above the separator the leaf hangs under. -/
def splitsAboveSeparator (cfg : Config) (load : Loader) (root : Bnode) (entry : BnodeEntry) :
    Bool :=
  let descent := btreeDescendWithPathLazy load root entry.key
  (overflowKey cfg (bnodeInsert descent.2 entry)).all fun middle =>
    decide (descent.1.length ≤ maxBtreeHeight) &&
      descent.1.getLast?.all fun frame =>
        (frame.node.entries[frame.index]?).all (·.key < middle)

/-- The condition for the rest of a path whose first node is at `depth`. -/
def SeparatorSafe (cfg : Config) (depth : Nat) (frames : List BtreeFrame) (leaf : Bnode) : Prop :=
  ∀ middle ∈ overflowKey cfg leaf, depth + frames.length ≤ maxBtreeHeight ∧
    ∀ frame ∈ frames.getLast?, ∀ separator ∈ frame.node.entries[frame.index]?,
      separator.key < middle

variable {cfg : Config} {split : PendingSplit}

/-- Where a node overflows depends on its keys only. -/
theorem overflowKey_congr {node node' : Bnode} (h : node.entries.map key = node'.entries.map key) :
    overflowKey cfg node = overflowKey cfg node' := by
  have hlength : node.entries.length = node'.entries.length := by
    simpa using congrArg length h
  have hsize : bnodeSize cfg node = bnodeSize cfg node' := by
    have := congrArg (fun keys => (keys.map fun key =>
        cfg.sizeofBnodeEntry + (cfg.sizeofChunk + Chunk.size key)).sum) h
    simpa [bnodeSize, Function.comp_def] using this
  have hmiddle : ∀ i : Nat, (node.entries[i]?).map key = (node'.entries[i]?).map key := by
    intro i
    rw [← getElem?_map, ← getElem?_map, h]
  rw [overflowKey, overflowKey, bnodeNeedsSplit, bnodeNeedsSplit, hlength, hsize, hmiddle]

/-- The condition reads the key of the new entry only. -/
theorem splitsAboveSeparator_congr {load : Loader} {root : Bnode} {e e' : BnodeEntry}
    (hkey : e.key = e'.key) :
    splitsAboveSeparator cfg load root e = splitsAboveSeparator cfg load root e' := by
  have hkeys : ∀ leaf : Bnode, (bnodeInsert leaf e).entries.map key =
      (bnodeInsert leaf e').entries.map key := by
    intro leaf
    simp only [bnodeInsert, map_insertIdx, hkey]
  simp only [splitsAboveSeparator, hkey, overflowKey_congr (hkeys _)]

/-! ### The rebuild, bottom-up -/

def growLeaf (cfg : Config) (leaf : Bnode) (entry : BnodeEntry) : Bnode × Option PendingSplit :=
  let grown := splitIfNeeded cfg (bnodeInsert leaf entry).markDirty
  (grown.1.markDirty, grown.2)

def growNode (cfg : Config) (depth : Nat) (frame : BtreeFrame)
    (below : Bnode × Option PendingSplit) : Bnode × Option PendingSplit :=
  match below.2 with
  | none => (frame.plug below.1, none)
  | some split =>
    if depth < maxBtreeHeight then propagateInto cfg (frame.plug below.1) split
    else (frame.plug below.1, some split)

def growPath (cfg : Config) :
    Nat → List BtreeFrame → Bnode × Option PendingSplit → Bnode × Option PendingSplit
  | _, [], leaf => leaf
  | depth, frame :: frames, leaf => growNode cfg depth frame (growPath cfg (depth + 1) frames leaf)

def growRoot (grown : Bnode × Option PendingSplit) : Bnode :=
  match grown.2 with
  | none => grown.1
  | some split => newRoot grown.1 split

theorem growPath_none (cfg : Config) (leaf : Bnode) (frames : List BtreeFrame) (depth : Nat) :
    growPath cfg depth frames (leaf, none) = (zipUp frames leaf, none) := by
  induction frames generalizing depth with
  | nil => rfl
  | cons frame frames ih => rw [growPath, ih]; rfl

theorem growPath_some (cfg : Config) (leaf : Bnode) (split : PendingSplit)
    (frames : List BtreeFrame) (depth : Nat) : growPath cfg depth frames (leaf, some split) =
      propagateSplitLoop cfg depth frames leaf split := by
  induction frames generalizing depth with
  | nil => rfl
  | cons frame frames ih => rw [growPath, ih]; rfl

/-- A node divides only if it overflows, and then at its middle key. -/
theorem splitIfNeeded_some {node : Bnode} (h : (splitIfNeeded cfg node).2 = some split) :
    bnodeNeedsSplit cfg node ∧
      bnodeSplit node = some ⟨(splitIfNeeded cfg node).1, split.splitKey, split.right⟩ := by
  unfold splitIfNeeded at h ⊢
  split at h
  · cases h
  · rename_i hneeds
    rw [if_neg hneeds]
    refine ⟨by simpa using hneeds, ?_⟩
    split at h
    · cases h
    · rename_i result hresult
      cases h
      rw [hresult]

theorem splitIfNeeded_none {node : Bnode} (h : (splitIfNeeded cfg node).2 = none) :
    (splitIfNeeded cfg node).1 = node := by
  unfold splitIfNeeded at h ⊢
  split
  · rfl
  · rename_i hneeds
    rw [if_neg hneeds] at h
    split
    · rfl
    · rename_i result hresult
      rw [hresult] at h
      cases h

theorem btreeInsertAt_eq (cfg : Config) (frames : List BtreeFrame) (leaf : Bnode)
    (entry : BnodeEntry) : btreeInsertAt cfg frames leaf entry =
      growRoot (growPath cfg 0 frames (growLeaf cfg leaf entry)) := by
  unfold btreeInsertAt btreeSplitAfterInsert growLeaf
  cases hgrown : splitIfNeeded cfg (bnodeInsert leaf entry).markDirty with
  | mk grown split =>
    cases split with
    | none =>
      have hdirty := splitIfNeeded_none (congrArg Prod.snd hgrown)
      rw [hgrown] at hdirty
      simp only [growPath_none]
      subst hdirty
      rfl
    | some split =>
      simp only [growPath_some, growRoot, btreePropagateSplit]
      split <;> simp_all

theorem overflowKey_of_growLeaf {leaf : Bnode} {entry : BnodeEntry}
    (h : (growLeaf cfg leaf entry).2 = some split) :
    overflowKey cfg (bnodeInsert leaf entry) = some split.splitKey := by
  obtain ⟨hneeds, hsplit⟩ := splitIfNeeded_some h
  have hneeds : bnodeNeedsSplit cfg (bnodeInsert leaf entry) = true := hneeds
  rw [overflowKey, if_pos hneeds]
  unfold bnodeSplit at hsplit
  split at hsplit
  · cases hsplit
  · obtain ⟨mid, hmid, hres⟩ := map_eq_some_iff.mp hsplit
    rw [show split.splitKey = mid.key from (congrArg SplitResult.splitKey hres).symm]
    simpa using congrArg (Option.map BnodeEntry.key) hmid

/-! ### What an insertion does to a subtree -/

/-- The subtree has taken the entry in. -/
structure Absorbed (load : Loader) (n : Nat) (lo : WithBot Chunk) (hi : WithTop Chunk)
    (node : Bnode) (entry : BnodeEntry) (node' : Bnode) : Prop where
  tree : SearchTree load n node' lo hi
  contents : (leafEntries load n node').Perm (entry :: leafEntries load n node)
  first : 0 < n → node'.firstKey = node.firstKey

/-- The subtree has taken the entry in and split; a right sibling is on its way up. -/
structure Divided (load : Loader) (n : Nat) (lo : WithBot Chunk) (hi : WithTop Chunk)
    (node : Bnode) (entry : BnodeEntry) (left : Bnode) (split : PendingSplit) : Prop where
  left_tree : SearchTree load n left lo split.splitKey
  right_tree : SearchTree load n split.right split.splitKey hi
  lo_lt : lo < split.splitKey
  lt_hi : (split.splitKey : WithTop Chunk) < hi
  contents : (leafEntries load n left ++ leafEntries load n split.right).Perm
    (entry :: leafEntries load n node)
  first_lt : ∃ k, left.firstKey = some k ∧ k < split.splitKey
  first : 0 < n → left.firstKey = node.firstKey
  right_first : 0 < n → split.right.firstKey = some split.splitKey

def Grown (load : Loader) (n : Nat) (lo : WithBot Chunk) (hi : WithTop Chunk) (node : Bnode)
    (entry : BnodeEntry) (grown : Bnode × Option PendingSplit) : Prop :=
  match grown.2 with
  | none => Absorbed load n lo hi node entry grown.1
  | some split => Divided load n lo hi node entry grown.1 split

section Growth

variable {load : Loader} {n depth : Nat} {node left : Bnode} {lo : WithBot Chunk}
  {hi : WithTop Chunk} {entry : BnodeEntry} {node' : Bnode} {pre post : List BnodeEntry}
  {x : BnodeEntry} {grown : Bnode × Option PendingSplit}

/-- The invariant reads the level and the entries only. -/
theorem SearchTree.congr (h : SearchTree load n node lo hi) (hlevel : node'.level = node.level)
    (hentries : node'.entries = node.entries) : SearchTree load n node' lo hi := by
  cases n with
  | zero => simpa only [SearchTree, Bnode.Sorted, hlevel, hentries] using h
  | succ n => simpa only [SearchTree, hlevel, hentries] using h

theorem SearchTree.cut {mid : BnodeEntry} (h : SearchTree load n node lo hi)
    (hsplit : node.entries = pre ++ mid :: post) (hne : pre ≠ []) (dirty : Bool) :
    SearchTree load n { node with entries := pre } lo mid.key ∧
      SearchTree load n
        { level := node.level, entries := mid :: post, diskOffset := none, isDirty := dirty }
        mid.key hi ∧
      lo < mid.key ∧ (mid.key : WithTop Chunk) < hi := by
  cases n with
  | zero =>
    obtain ⟨hlevel, hsorted, hbounds⟩ := h
    have hpair : Ascending key (pre ++ mid :: post) := hsplit ▸ hsorted
    obtain ⟨hleft, hright, hcross⟩ := pairwise_append.mp hpair
    rw [hsplit] at hbounds
    have hmid := hbounds mid (by simp)
    obtain ⟨a, rest, rfl⟩ := exists_cons_of_ne_nil hne
    have ha : a.key < mid.key := hcross a (by simp) mid (by simp)
    refine ⟨⟨hlevel, hleft, ?_⟩, ⟨hlevel, hright, ?_⟩, ?_, hmid.2⟩
    · intro e he
      exact ⟨(hbounds e (mem_append_left _ he)).1,
        WithTop.coe_lt_coe.mpr (hcross e he mid (by simp))⟩
    · intro e he
      refine ⟨WithBot.coe_le_coe.mpr ?_, (hbounds e (mem_append_right _ he)).2⟩
      rcases mem_cons.mp he with rfl | he
      · exact le_rfl
      · exact ((pairwise_cons.mp hright).1 e he).le
    · exact (hbounds a (by simp)).1.trans_lt (WithBot.coe_lt_coe.mpr ha)
  | succ n =>
    obtain ⟨hlevel, hseg⟩ := h
    rw [hsplit] at hseg
    obtain ⟨hleft, hright, hlo, hhi⟩ := hseg.cut hne
    exact ⟨⟨hlevel, hleft⟩, ⟨hlevel, hright⟩, hlo, hhi⟩

theorem leafEntries_append {right : Bnode} (h : node.entries = left.entries ++ right.entries) :
    leafEntries load n node = leafEntries load n left ++ leafEntries load n right := by
  cases n with
  | zero => exact h
  | succ n => simp only [leafEntries, h, flatMap_append]

theorem Absorbed.splitIfNeeded (cfg : Config) (h : Absorbed load n lo hi node entry node') :
    Grown load n lo hi node entry (splitIfNeeded cfg node') := by
  unfold Grown
  cases hsnd : (HBTrie.splitIfNeeded cfg node').2 with
  | none =>
    rw [splitIfNeeded_none hsnd]
    exact h
  | some split =>
    obtain ⟨hneeds, hres⟩ := splitIfNeeded_some hsnd
    have hlen : 4 ≤ node'.entries.length := by
      rw [bnodeNeedsSplit, Bool.and_eq_true, decide_eq_true_eq] at hneeds
      exact hneeds.1
    obtain ⟨pre, mid, post, hsplit, hne, -, heq⟩ := bnodeSplit_eq h.tree.sorted hlen
    obtain ⟨key, right⟩ := split
    rw [heq, some.injEq, SplitResult.mk.injEq] at hres
    obtain ⟨hleft, rfl, rfl⟩ := hres
    obtain ⟨htreeL, htreeR, hlo, hhi⟩ := h.tree.cut hsplit hne true
    obtain ⟨a, rest, rfl⟩ := exists_cons_of_ne_nil hne
    have hfirst : node'.firstKey = some a.key := by simp [Bnode.firstKey, hsplit]
    have hlt : a.key < mid.key := by
      have hpair : Ascending key ((a :: rest) ++ mid :: post) := hsplit ▸ h.tree.sorted
      exact (pairwise_append.mp hpair).2.2 a (by simp) mid (by simp)
    have hcontents := @leafEntries_append load n node'
      { node' with entries := a :: rest }
      { level := node'.level, entries := mid :: post, diskOffset := none, isDirty := true } hsplit
    rw [← hleft]
    exact
      { left_tree := htreeL
        right_tree := htreeR
        lo_lt := hlo
        lt_hi := hhi
        contents := hcontents ▸ h.contents
        first_lt := ⟨a.key, rfl, hlt⟩
        first := fun hn => hfirst.symm.trans (h.first hn)
        right_first := fun _ => rfl }

theorem SearchTree.absorb_leaf (h : SearchTree load 0 node lo hi) (hlo : lo ≤ entry.key)
    (hhi : (entry.key : WithTop Chunk) < hi) (hnew : ∀ a ∈ node.entries, a.key ≠ entry.key) :
    Absorbed load 0 lo hi node entry (bnodeInsert node entry).markDirty := by
  obtain ⟨hlevel, hsorted, hbounds⟩ := h
  have hentries : (bnodeInsert node entry).entries = below key node.entries entry.key ++
        entry :: notBelow key node.entries entry.key := by
    rw [bnodeInsert_entries, (Ascending.nondescending hsorted).insertIdx_lowerBound]
  have hperm : (bnodeInsert node entry).entries.Perm (entry :: node.entries) := by
    rw [hentries]
    refine perm_middle.trans (cons _ ?_)
    rw [below_append_notBelow]
  refine ⟨⟨hlevel, ?_, ?_⟩, hperm, fun h0 => absurd h0 (lt_irrefl 0)⟩
  · rw [Bnode.Sorted, Bnode.markDirty_entries, hentries]
    exact Ascending.insert hsorted hnew
  · intro e he
    rcases mem_cons.mp (hperm.mem_iff.mp he) with rfl | he
    · exact ⟨hlo, hhi⟩
    · exact hbounds e he

theorem SearchTree.grow_leaf (h : SearchTree load 0 node lo hi) (hlo : lo ≤ entry.key)
    (hhi : (entry.key : WithTop Chunk) < hi) (hnew : ∀ a ∈ node.entries, a.key ≠ entry.key) :
    Grown load 0 lo hi node entry (growLeaf cfg node entry) := by
  have hgrown := (h.absorb_leaf hlo hhi hnew).splitIfNeeded cfg
  unfold Grown growLeaf at *
  split at hgrown
  · rename_i hnone
    rw [hnone]
    exact ⟨hgrown.tree.congr rfl rfl, hgrown.contents, hgrown.first⟩
  · rename_i split hsome
    rw [hsome]
    exact { hgrown with left_tree := hgrown.left_tree.congr rfl rfl }

/-! ### One ancestor -/

@[simp] theorem BnodeEntry.setChildBnode_key (e : BnodeEntry) (child : Bnode) :
    (e.setChildBnode child).key = e.key := rfl

@[simp] theorem BnodeEntry.loadedBnode_setChildBnode (e : BnodeEntry) (child : Bnode) :
    (e.setChildBnode child).loadedBnode load = some child := rfl

theorem BtreeFrame.plug_entries (hsplit : node.entries = pre ++ x :: post) (child : Bnode) :
    (plug ⟨node, pre.length⟩ child).entries = pre ++ x.setChildBnode child :: post := by
  simp [plug, hsplit, modify_eq_take_cons_drop]

theorem firstKey_eq_of_entries {post' : List BnodeEntry} {x' : BnodeEntry}
    (h : node.entries = pre ++ x :: post) (h' : node'.entries = pre ++ x' :: post')
    (hkey : x'.key = x.key) : node'.firstKey = node.firstKey := by
  rw [Bnode.firstKey, Bnode.firstKey, h, h']
  cases pre with
  | nil => simp [hkey]
  | cons a pre => rfl

section Ancestor

variable {child : Bnode} (h : SearchTree load (n + 1) node lo hi)
  (hsplit : node.entries = pre ++ x :: post) (hchild : x.loadedBnode load = some child)

include h hsplit hchild

/-- The ancestor of a subtree that has absorbed the entry. -/
theorem SearchTree.absorb_plug {child' : Bnode}
    (hgrown : Absorbed load n (segLo key lo pre x) (segHi key hi post) child entry child') :
    Absorbed load (n + 1) lo hi node entry (plug ⟨node, pre.length⟩ child') := by
  have hentries := plug_entries hsplit child'
  obtain ⟨hlevel, hseg⟩ := h
  rw [hsplit] at hseg
  obtain ⟨c, hc, -, hfirst⟩ := hseg.focus
  rw [hchild] at hc
  cases hc
  refine ⟨⟨hlevel, ?_⟩, ?_, ?_⟩
  · rw [hentries]
    refine hseg.replace rfl ⟨child', rfl, hgrown.tree, ?_⟩
    intro hn
    rw [hgrown.first hn]
    exact hfirst hn
  · rw [leafEntries_split hsplit hchild,
      leafEntries_split hentries (loadedBnode_setChildBnode x child')]
    refine List.Perm.trans ?_ perm_middle
    refine List.Perm.append_left _ ?_
    exact hgrown.contents.append_right _
  · exact fun _ => firstKey_eq_of_entries hsplit hentries rfl

/-- The ancestor of a subtree that has divided, with the right part inserted
after the left. -/
theorem SearchTree.absorb_divided
    (hgrown : Divided load n (segLo key lo pre x) (segHi key hi post) child entry left split)
    (hsep : x.key < split.splitKey) : Absorbed load (n + 1) lo hi node entry
      (bnodeInsertBnodeChild (plug ⟨node, pre.length⟩ left) split.splitKey
        split.right).markDirty := by
  obtain ⟨hlevel, hseg⟩ := h
  rw [hsplit] at hseg
  obtain ⟨c, hc, -, hfirst⟩ := hseg.focus
  rw [hchild] at hc
  cases hc
  set y : BnodeEntry :=
    { key := split.splitKey, slot := .childBnode (some split.right), childDiskOffset := 0 } with hy
  -- the right part goes directly behind the left one
  have hsorted : Ascending key (pre ++ x.setChildBnode left :: post) := by
    have := hseg.ascending
    simpa [Ascending, pairwise_append] using this
  have hpost : ∀ z ∈ post, split.splitKey < z.key := lt_of_lt_segHi hseg.ascending hgrown.lt_hi
  have hentries : (bnodeInsertBnodeChild (plug ⟨node, pre.length⟩ left) split.splitKey
      split.right).markDirty.entries = pre ++ x.setChildBnode left :: y :: post := by
    rw [Bnode.markDirty_entries, bnodeInsertBnodeChild, bnodeInsert_entries, plug_entries hsplit]
    exact hsorted.insertIdx_lowerBound_between hsep hpost
  refine ⟨⟨hlevel, ?_⟩, ?_, ?_⟩
  · rw [hentries]
    refine hseg.replace_two rfl ⟨left, rfl, hgrown.left_tree, ?_⟩
      ⟨split.right, rfl, hgrown.right_tree, hgrown.right_first⟩ hgrown.lo_lt hgrown.lt_hi hsep
    intro hn
    rw [hgrown.first hn]
    exact hfirst hn
  · rw [leafEntries_split hsplit hchild, leafEntries_split hentries
      (loadedBnode_setChildBnode x left), flatMap_cons]
    have hright : entryLeaves load n y = leafEntries load n split.right := rfl
    rw [hright, ← append_assoc (leafEntries load n left)]
    refine List.Perm.trans ?_ perm_middle
    refine List.Perm.append_left _ ?_
    exact hgrown.contents.append_right _
  · exact fun _ => firstKey_eq_of_entries hsplit hentries rfl

/-- The ancestor after the subtree below it has grown. -/
theorem SearchTree.grow_node (hgrown : Grown load n (segLo key lo pre x) (segHi key hi post) child
      entry grown)
    (hsafe : ∀ split, grown.2 = some split → depth < maxBtreeHeight ∧ x.key < split.splitKey) :
    Grown load (n + 1) lo hi node entry (growNode cfg depth ⟨node, pre.length⟩ grown) := by
  unfold growNode
  unfold Grown at hgrown
  cases hsnd : grown.2 with
  | none =>
    rw [hsnd] at hgrown
    exact h.absorb_plug hsplit hchild hgrown
  | some split =>
    rw [hsnd] at hgrown
    obtain ⟨hdepth, hsep⟩ := hsafe split hsnd
    simp only [if_pos hdepth]
    exact (h.absorb_divided hsplit hchild hgrown hsep).splitIfNeeded cfg

end Ancestor

theorem growPath_snd_none {leaf : Bnode × Option PendingSplit} (hleaf : leaf.2 = none)
    (frames : List BtreeFrame) (depth : Nat) : (growPath cfg depth frames leaf).2 = none := by
  obtain ⟨leaf, split⟩ := leaf
  cases hleaf
  rw [growPath_none]

/-- A whole subtree grows, by induction on its height: the separator condition
is used at the leaf, and above it the first separators agree. -/
theorem SearchTree.grow (h : SearchTree load n node lo hi) (hlo : lo ≤ entry.key)
    (hhi : (entry.key : WithTop Chunk) < hi)
    (hnew : ∀ a ∈ leafEntries load n node, a.key ≠ entry.key) {fuel : Nat} (hfuel : n ≤ fuel)
    (hsafe : SeparatorSafe cfg depth (btreeDescendLoop load entry.key fuel node).1
      (bnodeInsert (btreeDescendLoop load entry.key fuel node).2 entry)) :
    Grown load n lo hi node entry (growPath cfg depth (btreeDescendLoop load entry.key fuel node).1
        (growLeaf cfg (btreeDescendLoop load entry.key fuel node).2 entry)) := by
  induction n generalizing node lo hi fuel depth with
  | zero =>
    rw [h.descend_leaf]
    exact h.grow_leaf hlo hhi hnew
  | succ n ih =>
    obtain ⟨pre, x, post, child, hsplit, hnext, hchild, htree, hfirst, hklo, hkhi⟩ :=
      h.btreeNextChild_eq hlo hhi
    obtain ⟨fuel, rfl⟩ : ∃ m, fuel = m + 1 := ⟨fuel - 1, by omega⟩
    rw [h.descend_node hnext] at hsafe ⊢
    have hnew' : ∀ a ∈ leafEntries load n child, a.key ≠ entry.key := by
      intro a ha
      refine hnew a ?_
      rw [leafEntries_split hsplit hchild]
      simp [ha]
    have hsafe' : SeparatorSafe cfg (depth + 1) (btreeDescendLoop load entry.key fuel child).1
        (bnodeInsert (btreeDescendLoop load entry.key fuel child).2 entry) := by
      intro middle hmiddle
      obtain ⟨hdepth, hlast⟩ := hsafe middle hmiddle
      refine ⟨by simp only [length_cons] at hdepth; omega, ?_⟩
      intro frame hframe
      refine hlast frame ?_
      simp [getLast?_cons, mem_def.mp hframe]
    have hgrown := ih htree hklo hkhi hnew' (by omega) hsafe'
    refine h.grow_node hsplit hchild hgrown ?_
    intro split hsnd
    obtain ⟨leafSplit, hleafSplit⟩ :
        ∃ s, (growLeaf cfg (btreeDescendLoop load entry.key fuel child).2 entry).2 = some s := by
      by_contra hnone
      push Not at hnone
      rw [growPath_snd_none (eq_none_iff_forall_ne_some.mpr hnone)] at hsnd
      cases hsnd
    obtain ⟨hdepth, hlast⟩ := hsafe _ (overflowKey_of_growLeaf hleafSplit)
    refine ⟨by simp only [length_cons] at hdepth; omega, ?_⟩
    cases n with
    | zero =>
      rw [htree.descend_leaf] at hsnd hleafSplit hlast
      rw [growPath, hleafSplit] at hsnd
      cases hsnd
      exact hlast ⟨node, pre.length⟩ rfl x (by simp [hsplit])
    | succ n =>
      rw [Grown, hsnd] at hgrown
      obtain ⟨k, hk, hlt⟩ := hgrown.first_lt
      rw [hgrown.first (by omega), hfirst (by omega)] at hk
      cases hk
      exact hlt

/-! ### The root -/

theorem newRoot_entries {root : Bnode} {k : Chunk} (hk : root.firstKey = some k)
    (hlt : k < split.splitKey) : (newRoot root split).entries =
      [{ key := k, slot := .childBnode (some root), childDiskOffset := 0 },
        { key := split.splitKey, slot := .childBnode (some split.right)
          childDiskOffset := 0 }] := by
  obtain ⟨first, hhead, rfl⟩ := map_eq_some_iff.mp hk
  simp only [newRoot, hhead, Bnode.markDirty_entries]
  rw [bnodeInsert_entries]
  have hsingle : (bnodeInsert (bnodeCreateWithLevel (root.level + 1))
      { key := first.key, slot := .childBnode (some root), childDiskOffset := 0 }).entries =
        [{ key := first.key, slot := .childBnode (some root), childDiskOffset := 0 }] := by
    rfl
  rw [hsingle]
  exact Ascending.insertIdx_lowerBound_last (pairwise_singleton _ _) (by simpa using hlt)

theorem newRoot_level (root : Bnode) (split : PendingSplit) :
    (newRoot root split).level = root.level + 1 := by
  unfold newRoot
  cases root.entries.head? with
  | none => rfl
  | some first => rfl

theorem Divided.newRoot (h : Divided load n ⊥ ⊤ node entry left split) :
    SearchTree load (n + 1) (newRoot left split) ⊥ ⊤ ∧
      (leafEntries load (n + 1) (newRoot left split)).Perm (entry :: leafEntries load n node) := by
  obtain ⟨k, hk, hlt⟩ := h.first_lt
  have hentries := newRoot_entries hk hlt
  refine ⟨⟨?_, ?_⟩, ?_⟩
  · rw [newRoot_level, h.left_tree.level_eq]
  · rw [hentries]
    exact ⟨⟨left, rfl, h.left_tree, fun _ => hk⟩, h.lo_lt, h.lt_hi, hlt,
      ⟨split.right, rfl, h.right_tree, h.right_first⟩⟩
  · have hleaves : leafEntries load (n + 1) (HBTrie.newRoot left split) =
        leafEntries load n left ++ leafEntries load n split.right := by
      simp [leafEntries, hentries, loadedBnode]
    rw [hleaves]
    exact h.contents

theorem Grown.growRoot (h : Grown load n ⊥ ⊤ node entry grown) :
    ∃ m, SearchTree load m (growRoot grown) ⊥ ⊤ ∧
      (leafEntries load m (growRoot grown)).Perm (entry :: leafEntries load n node) := by
  obtain ⟨root, split⟩ := grown
  cases split with
  | none => exact ⟨n, h.tree, h.contents⟩
  | some split => exact ⟨n + 1, h.newRoot⟩

/-- One insertion of a new key: the invariant stays, the leaves gain the entry,
and the tree may be one level higher. -/
theorem SearchTree.btreeInsertAt (h : SearchTree load n node ⊥ ⊤)
    (hnew : ∀ a ∈ leafEntries load n node, a.key ≠ entry.key)
    (hsafe : splitsAboveSeparator cfg load node entry) : ∃ m, SearchTree load m
        (btreeInsertAt cfg (btreeDescendWithPathLazy load node entry.key).1
          (btreeDescendWithPathLazy load node entry.key).2 entry) ⊥ ⊤ ∧ (leafEntries load m
        (btreeInsertAt cfg (btreeDescendWithPathLazy load node entry.key).1
          (btreeDescendWithPathLazy load node entry.key).2 entry)).Perm
        (entry :: leafEntries load n node) := by
  rw [btreeInsertAt_eq]
  refine Grown.growRoot (h.grow bot_le (WithTop.coe_lt_top _) hnew ?_ ?_)
  · rw [h.level_eq]
    omega
  · simp only [splitsAboveSeparator, Option.all_eq_true, Bool.and_eq_true,
      decide_eq_true_eq] at hsafe
    simp only [SeparatorSafe, Nat.zero_add]
    exact hsafe

end Growth

end WaveDB.HBTrie
