import Mathlib.Data.List.InsertIdx
import WaveDB.HBTrie.Hbtrie

/-!
Invariants of every bnode in a trie.

`Bnode.Everywhere Q` says that `Q` holds of each bnode of a trie, through child bnodes
and child tries, reachable by a lookup or not. `NodeRule` lists what the operations do to
one node and what is known at that point; from it follow `hbtrieInsert_kept`,
`hbtrieDeleteSteps_kept` and `hbtrieFindAttach_kept` for whole calls. Besides `Q` a rule
may relate each bnode to the one that stood at its place before (`Succ`) and constrain the
trie nodes around the B+trees (`T`). `EntryRule` is the case of a property that sees the
entries of one node only; the contents of a trie are its first instance (`HoldsAll`).
-/

namespace WaveDB.HBTrie

open Workers List Option BnodeEntry BtreeFrame

/-! ### All bnodes of a trie -/

/-- The second bnode is the first or lies below it. -/
inductive Bnode.Contains : Bnode → Bnode → Prop
  | self {node : Bnode} : Bnode.Contains node node
  | inner {node child b : Bnode} {e : BnodeEntry} :
      e ∈ node.entries → e.slot = .childBnode (some child) → Bnode.Contains child b →
        Bnode.Contains node b
  | under {node b : Bnode} {e : BnodeEntry} {next : HbtrieNode} :
      e ∈ node.entries → e.trieNode = some next → Bnode.Contains next.btree b →
        Bnode.Contains node b

variable (P : Content → Prop) (Q : Bnode → Prop)

/-- The property holds of the node and of every bnode below it. -/
def Bnode.Everywhere (node : Bnode) : Prop := ∀ b, node.Contains b → Q b

/-- The property holds of every bnode below the entry. -/
structure BnodeEntry.Below (Q : Bnode → Prop) (e : BnodeEntry) : Prop where
  inner : ∀ child, e.slot = .childBnode (some child) → child.Everywhere Q
  under : ∀ next, e.trieNode = some next → next.btree.Everywhere Q

/-- The property holds of every bnode the page file holds. -/
def LoadsAll (load : Loader) : Prop :=
  ∀ offset node, load offset = some node → node.Everywhere Q

/-- The second bnode belongs to the B+tree of the first, at or below it. -/
inductive Bnode.InTree : Bnode → Bnode → Prop
  | self {node : Bnode} : Bnode.InTree node node
  | child {node child b : Bnode} {e : BnodeEntry} :
      e ∈ node.entries → e.slot = .childBnode (some child) → Bnode.InTree child b →
        Bnode.InTree node b

variable {key : Chunk} {e : BnodeEntry} {node : HbtrieNode} {index : Nat} {leaf root : Bnode}
  {frames : List BtreeFrame} {steps : List PathStep} {txnId : TransactionId}

section Everywhere

variable {Q : Bnode → Prop} {node : Bnode}

theorem Bnode.everywhere_iff : node.Everywhere Q ↔ Q node ∧ ∀ e ∈ node.entries, e.Below Q := by
  constructor
  · intro h
    refine ⟨h node .self, fun e he => ⟨?_, ?_⟩⟩
    · exact fun child hslot b hb => h b (.inner he hslot hb)
    · exact fun next hnode b hb => h b (.under he hnode hb)
  · rintro ⟨hself, hbelow⟩ b hb
    cases hb with
    | self => exact hself
    | inner he hslot hchild => exact (hbelow _ he).inner _ hslot b hchild
    | under he hnode hnext => exact (hbelow _ he).under _ hnode b hnext

theorem Bnode.Everywhere.below (h : node.Everywhere Q) (he : e ∈ node.entries) : e.Below Q :=
  (everywhere_iff.mp h).2 e he

/-- Entries that were there, or are all right themselves. -/
theorem Bnode.Everywhere.of_entries {node' : Bnode} (h : node.Everywhere Q) (hself : Q node')
    (hentries : ∀ e ∈ node'.entries, e ∈ node.entries ∨ e.Below Q) : node'.Everywhere Q := by
  refine everywhere_iff.mpr ⟨hself, fun e he => ?_⟩
  rcases hentries e he with hold | hbelow
  · exact h.below hold
  · exact hbelow

theorem Bnode.everywhere_create {level : Nat} (h : Q (bnodeCreateWithLevel level)) :
    (bnodeCreateWithLevel level).Everywhere Q :=
  everywhere_iff.mpr ⟨h, nofun⟩

theorem loadsAll_noLoader : LoadsAll Q noLoader := by
  intro offset node hload
  cases hload

theorem BnodeEntry.below_childBnode {child : Bnode} {offset : Nat} (h : child.Everywhere Q) :
    Below Q ⟨key, .childBnode (some child), offset⟩ := by
  constructor
  · rintro child' hslot
    cases hslot
    exact h
  · rintro next hnode
    cases hnode

theorem mem_of_bnodeFind (h : (bnodeFind node key).1 = some e) : e ∈ node.entries :=
  mem_of_getElem? (filter_eq_some_iff.mp h).1

theorem bnodeInsert_everywhere (h : node.Everywhere Q) (hself : Q (bnodeInsert node e))
    (he : e.Below Q) : (bnodeInsert node e).Everywhere Q := by
  refine h.of_entries hself fun x hx => ?_
  rcases eq_or_mem_of_mem_insertIdx hx with rfl | hx
  · exact .inr he
  · exact .inl hx

theorem mem_foldl_bnodeInsert {es : List BnodeEntry} {x : BnodeEntry}
    (h : x ∈ (es.foldl bnodeInsert node).entries) : x ∈ es ∨ x ∈ node.entries := by
  induction es generalizing node with
  | nil => exact .inr h
  | cons e es ih =>
    rcases ih h with hx | hx
    · exact .inl (mem_cons_of_mem _ hx)
    · rcases eq_or_mem_of_mem_insertIdx hx with rfl | hx
      · exact .inl mem_cons_self
      · exact .inr hx

theorem mem_of_bnodeSplit {result : SplitResult} (h : bnodeSplit node = some result) :
    (∀ e ∈ result.left.entries, e ∈ node.entries) ∧
      ∀ e ∈ result.right.entries, e ∈ node.entries := by
  simp only [bnodeSplit, ite_none_left_eq_some, map_eq_some_iff] at h
  obtain ⟨-, midEntry, -, rfl⟩ := h
  constructor
  · exact fun e he => mem_of_mem_take he
  · intro e he
    rcases mem_foldl_bnodeInsert he with he | he
    · exact mem_of_mem_drop he
    · exact absurd he not_mem_nil

theorem foldl_bnodeInsert_level (es : List BnodeEntry) (node : Bnode) :
    (es.foldl bnodeInsert node).level = node.level := by
  rw [foldl_bnodeInsert]

theorem bnodeSplit_level {result : SplitResult} (h : bnodeSplit node = some result) :
    result.left.level = node.level ∧ result.right.level = node.level := by
  simp only [bnodeSplit, ite_none_left_eq_some, map_eq_some_iff] at h
  obtain ⟨-, midEntry, -, rfl⟩ := h
  exact ⟨rfl, foldl_bnodeInsert_level ..⟩

end Everywhere

/-! ### Descent -/

section Descent

variable {Q : Bnode → Prop} {load : Loader} {child node : Bnode}

theorem BnodeEntry.Below.loadedBnode (h : e.Below Q) (hload : LoadsAll Q load)
    (hchild : e.loadedBnode load = some child) : child.Everywhere Q := by
  unfold BnodeEntry.loadedBnode at hchild
  split at hchild
  · rename_i node hslot
    cases hchild
    exact h.inner _ hslot
  · simp only [ite_none_right_eq_some] at hchild
    exact hload _ _ hchild.2
  · cases hchild

theorem BnodeEntry.Below.loadedTrieNode {next : HbtrieNode} (h : e.Below Q)
    (hload : LoadsAll Q load) (hnext : e.loadedTrieNode load = some next) :
    next.btree.Everywhere Q := by
  rcases or_eq_some_iff.mp hnext with hnode | ⟨-, hdisk⟩
  · exact h.under next hnode
  · simp only [hbtrieLoadChildNode, ite_none_right_eq_some, map_eq_some_iff] at hdisk
    obtain ⟨-, root, hroot, rfl⟩ := hdisk
    exact hload _ _ hroot

theorem BnodeEntry.Below.nextNode (h : e.Below Q) (hload : LoadsAll Q load)
    (hcreate : Q (bnodeCreateWithLevel 1)) :
    ((e.loadedTrieNode load).getD hbtrieNodeCreate).btree.Everywhere Q := by
  cases hnext : e.loadedTrieNode load with
  | none => exact Bnode.everywhere_create hcreate
  | some next => exact h.loadedTrieNode hload hnext

/-- The frames from a bnode down to the one a descent stops at. -/
inductive Descends (load : Loader) : Bnode → List BtreeFrame → Bnode → Prop
  | here {leaf : Bnode} : Descends load leaf [] leaf
  | down {node child leaf : Bnode} {frames : List BtreeFrame} {index : Nat} {e : BnodeEntry} :
      1 < node.level → node.entries[index]? = some e → e.loadedBnode load = some child →
        Descends load child frames leaf → Descends load node (⟨node, index⟩ :: frames) leaf

theorem entry_of_btreeNextChild (h : btreeNextChild load node key = some (index, child)) :
    ∃ e, node.entries[index]? = some e ∧ e.loadedBnode load = some child := by
  have hat : ∀ i, childBnodeAt load node i = some (index, child) →
      ∃ e, node.entries[index]? = some e ∧ e.loadedBnode load = some child := by
    intro i hi
    obtain ⟨e, he, hmap⟩ := bind_eq_some_iff.mp hi
    obtain ⟨child', hchild, heq⟩ := map_eq_some_iff.mp hmap
    cases heq
    exact ⟨e, he, hchild⟩
  unfold btreeNextChild at h
  split at h
  · rename_i found hfound
    cases h
    obtain ⟨e, he, hchild⟩ := bind_eq_some_iff.mp hfound
    exact ⟨e, (filter_eq_some_iff.mp he).1, hchild⟩
  · split at h
    · exact hat _ h
    · exact hat _ h

theorem Bnode.Everywhere.nextChild (h : node.Everywhere Q) (hload : LoadsAll Q load)
    (hnext : btreeNextChild load node key = some (index, child)) : child.Everywhere Q := by
  obtain ⟨e, he, hchild⟩ := entry_of_btreeNextChild hnext
  exact (h.below (mem_of_getElem? he)).loadedBnode hload hchild

theorem btreeDescendLoop_descends (load : Loader) (key : Chunk) (fuel : Nat) (node : Bnode) :
    Descends load node (btreeDescendLoop load key fuel node).1
      (btreeDescendLoop load key fuel node).2 := by
  fun_induction btreeDescendLoop load key fuel node with
  | case1 | case2 | case4 => exact .here
  | case3 fuel node hlevel index child hnext ih =>
    obtain ⟨e, he, hchild⟩ := entry_of_btreeNextChild hnext
    exact .down hlevel he hchild ih

theorem Bnode.Everywhere.descends (h : node.Everywhere Q) (hload : LoadsAll Q load)
    (hdescent : Descends load node frames leaf) : leaf.Everywhere Q := by
  induction hdescent with
  | here => exact h
  | down _ he hchild _ ih =>
    exact ih ((h.below (mem_of_getElem? he)).loadedBnode hload hchild)

theorem btreeDescendLoop_everywhere (hload : LoadsAll Q load) (key : Chunk) (fuel : Nat)
    (h : node.Everywhere Q) : (btreeDescendLoop load key fuel node).2.Everywhere Q :=
  h.descends hload (btreeDescendLoop_descends load key fuel node)

theorem bnodeFindLeafLazy_below (hload : LoadsAll Q load) (h : root.Everywhere Q)
    (he : bnodeFindLeafLazy load root key = some e) :
    ∃ leaf, Q leaf ∧ e ∈ leaf.entries ∧ e.Below Q := by
  have hleaf := btreeDescendLoop_everywhere hload key root.level h
  exact ⟨_, hleaf _ .self, mem_of_bnodeFind he, hleaf.below (mem_of_bnodeFind he)⟩

theorem hbtrieFindEntry_below {node : HbtrieNode} (hload : LoadsAll Q load)
    (h : node.btree.Everywhere Q) (hfind : hbtrieFindEntry load node steps = some e) :
    ∃ leaf, Q leaf ∧ e ∈ leaf.entries ∧ e.Below Q := by
  induction steps using stepsInduction generalizing node with
  | nil => cases hfind
  | enter identifier rest ih => exact ih h hfind
  | chunk c rest ih =>
    cases rest with
    | nil => exact bnodeFindLeafLazy_below hload h hfind
    | cons step rest =>
      rw [hbtrieFindEntry, bind_assoc] at hfind
      obtain ⟨parent, hparent, hbelow⟩ := bind_eq_some_iff.mp hfind
      obtain ⟨next, hnext, hrest⟩ := bind_eq_some_iff.mp hbelow
      obtain ⟨-, -, -, hparentBelow⟩ := bnodeFindLeafLazy_below hload h hparent
      exact ih (hparentBelow.loadedTrieNode hload hnext) hrest

end Descent

/-! ### The rules for one node -/

/-- An invariant of tries: what an operation may bring in, what holds of every bnode and of
every trie node, how a bnode relates to the one that takes its place, and how the level of
a child bnode relates to that of its parent. -/
structure TrieSpec where
  key : Chunk → Prop
  content : Content → Prop
  pathMeta : PathSubscriptMeta → Prop
  bnode : Bnode → Prop
  trie : HbtrieNode → Prop
  succ : Bnode → Bnode → Prop
  level : Nat → Nat → Prop

/-- What the operations on one node have to keep, with what is known when they happen. -/
structure NodeRule (load : Loader) (S : TrieSpec) : Prop where
  create : S.bnode (bnodeCreateWithLevel 1)
  keys : ∀ {node e}, S.bnode node → e ∈ node.entries → S.key e.key
  tries : ∀ {node e next}, S.bnode node → e ∈ node.entries → e.trieNode = some next → S.trie next
  levels : ∀ {node e child}, S.bnode node → 1 < node.level → e ∈ node.entries →
    e.loadedBnode load = some child → S.level child.level node.level
  refl : ∀ node, S.succ node node
  changed : ∀ {node node'}, node'.isDirty = true → S.succ node node'
  levelRefl : ∀ n, S.level n n
  levelTrans : ∀ {a b c}, S.level a b → S.level b c → S.level a c
  fresh : S.trie hbtrieNodeCreate
  loaded : ∀ {offset page}, load offset = some page → S.trie ⟨page, some offset, false⟩
  /-- A write marks the trie node and a bnode of its B+tree. -/
  dirtied : ∀ {node b}, node.isDirty = true → node.btree.InTree b → b.isDirty = true → S.trie node
  /-- The descent of a lookup, and possibly one trie node below its leaf. -/
  attached : ∀ {node frames leaf leaf'}, S.trie node → Descends load node.btree frames leaf →
    (leaf' = leaf ∨ ∃ (index : Nat) (e : BnodeEntry) (next : HbtrieNode),
      leaf.entries[index]? = some e ∧ (∀ child, e.slot ≠ .childBnode (some child)) ∧
        leaf' = leaf.setEntry index (e.setTrieNode next)) →
    S.trie { node with btree := zipUp frames leaf' }
  markDirty : ∀ {node}, S.bnode node → S.bnode node.markDirty
  plug : ∀ {node index e child child'}, S.bnode node → 1 < node.level →
    node.entries[index]? = some e → e.loadedBnode load = some child →
    child'.level = child.level → S.succ child child' →
    S.bnode (plug ⟨node, index⟩ child') ∧
      S.succ node (plug ⟨node, index⟩ child')
  newValue : ∀ {leaf c content pathMeta}, S.bnode leaf → leaf.level ≤ 1 →
    (bnodeFind leaf c).1 = none → S.key c → S.content content →
    (∀ m ∈ pathMeta, S.pathMeta m) →
    S.bnode (bnodeInsert leaf ⟨c, .value content pathMeta none, 0⟩)
  newChild : ∀ {leaf c next}, S.bnode leaf → leaf.level ≤ 1 → (bnodeFind leaf c).1 = none →
    S.key c → S.succ (bnodeCreateWithLevel 1) next.btree → S.trie next →
    S.bnode (bnodeInsert leaf ⟨c, .child (some next), 0⟩)
  insertValue : ∀ {leaf c e value txnId pathMeta}, S.bnode leaf → leaf.level ≤ 1 →
    (bnodeFind leaf c).1 = some e → S.content (.write e.content value txnId) →
    (∀ m ∈ pathMeta, S.pathMeta m) →
    S.bnode (leaf.setEntry (bnodeFind leaf c).2 (e.insertValue value txnId pathMeta))
  setTrieNode : ∀ {leaf c e next}, S.bnode leaf → leaf.level ≤ 1 →
    (bnodeFind leaf c).1 = some e →
    S.succ ((e.loadedTrieNode load).getD hbtrieNodeCreate).btree next.btree → S.trie next →
    S.bnode (leaf.setEntry (bnodeFind leaf c).2 (e.setTrieNode next)) ∧
      S.succ leaf (leaf.setEntry (bnodeFind leaf c).2 (e.setTrieNode next))
  deleteValue : ∀ {leaf c e content txnId}, S.bnode leaf → leaf.level ≤ 1 →
    (bnodeFind leaf c).1 = some e → e.content = some content →
    S.content (content.delete txnId) →
    S.bnode (leaf.setEntry (bnodeFind leaf c).2 (e.deleteValue txnId))
  /-- The new child stands beside another one. -/
  insertChild : ∀ {node key child sibling e}, S.bnode node → 1 < node.level → S.key key →
    child.isDirty = true → e ∈ node.entries → e.slot = .childBnode (some sibling) →
    S.level child.level sibling.level → S.bnode (bnodeInsertBnodeChild node key child)
  split : ∀ {node result}, S.bnode node → bnodeSplit node = some result →
    S.bnode result.left ∧ S.bnode result.right
  newRoot : ∀ {node split}, S.bnode node → node.isDirty = true → S.key split.splitKey →
    split.right.isDirty = true → S.level split.right.level node.level →
    S.bnode (newRoot node split)

/-! ### One B+tree -/

section Btree

variable {load : Loader} {S : TrieSpec} (rule : NodeRule load S) (hload : LoadsAll S.bnode load)
  (cfg : Config) {child node leaf' : Bnode} {split : PendingSplit}

theorem BtreeFrame.plug_everywhere {Q : Bnode → Prop} {frame : BtreeFrame}
    (h : frame.node.Everywhere Q) (hself : Q (frame.plug child)) (hchild : child.Everywhere Q) :
    (frame.plug child).Everywhere Q := by
  refine h.of_entries hself fun e he => ?_
  rcases mem_plug he with he | ⟨old, -, rfl⟩
  · exact .inl he
  · exact .inr (below_childBnode hchild)

theorem BtreeFrame.child_mem_plug (he : node.entries[index]? = some e) :
    e.setChildBnode child ∈ (plug ⟨node, index⟩ child).entries := by
  refine mem_iff_getElem?.mpr ⟨index, ?_⟩
  simp [plug, he]

theorem BtreeFrame.plug_inTree {b : Bnode} (he : node.entries[index]? = some e)
    (hb : child.InTree b) : (plug ⟨node, index⟩ child).InTree b :=
  .child (child_mem_plug he) rfl hb

theorem zipUp_inTree (hdescent : Descends load root frames leaf) (leaf' : Bnode) :
    (zipUp frames leaf').InTree leaf' := by
  induction hdescent with
  | here => exact .self
  | down _ he _ _ ih => exact plug_inTree he ih

theorem splitIfNeeded_isDirty (node : Bnode) :
    (splitIfNeeded cfg node).1.isDirty = node.isDirty := by
  unfold splitIfNeeded
  split
  · rfl
  · split
    · rfl
    · rename_i result hresult
      simp only [bnodeSplit, ite_none_left_eq_some, map_eq_some_iff] at hresult
      obtain ⟨-, midEntry, -, rfl⟩ := hresult
      rfl

/-- A dirty leaf, or a dirty node above it, is in the tree after the loop of
`btree_propagate_split`. -/
theorem propagateSplitLoop_inTree (depth : Nat) (hdescent : Descends load root frames leaf)
    (hdirty : leaf'.isDirty) :
    ∃ b, (propagateSplitLoop cfg depth frames leaf' split).1.InTree b ∧ b.isDirty = true := by
  induction hdescent generalizing depth with
  | here => exact ⟨leaf', .self, hdirty⟩
  | down _ he _ _ ih =>
    obtain ⟨b, hb, hbDirty⟩ := ih (depth + 1)
    have hplug := plug_inTree he hb
    simp only [propagateSplitLoop]
    split
    · exact ⟨b, hplug, hbDirty⟩
    · split
      · exact ⟨_, .self, splitIfNeeded_isDirty cfg _⟩
      · exact ⟨b, hplug, hbDirty⟩

theorem btreeInsertAt_inTree (hdescent : Descends load root frames leaf) (e : BnodeEntry) :
    ∃ b, (btreeInsertAt cfg frames leaf e).InTree b ∧ b.isDirty = true := by
  have hleft := splitIfNeeded_isDirty cfg (bnodeInsert leaf e).markDirty
  unfold btreeInsertAt btreeSplitAfterInsert
  split
  · rename_i hsplit
    rw [hsplit] at hleft
    exact ⟨_, zipUp_inTree hdescent _, hleft⟩
  · rename_i left split hsplit
    obtain ⟨b, hb, hdirty⟩ :=
      @propagateSplitLoop_inTree _ _ _ load cfg left.markDirty split 0 hdescent rfl
    unfold btreePropagateSplit
    split
    · rename_i heq
      rw [heq] at hb
      exact ⟨b, hb, hdirty⟩
    · exact ⟨_, .self, rfl⟩

include rule

theorem Bnode.Everywhere.markDirty (h : node.Everywhere S.bnode) :
    node.markDirty.Everywhere S.bnode :=
  h.of_entries (rule.markDirty (h node .self)) fun _ he => .inl he

include hload

theorem zipUp_kept (hdescent : Descends load root frames leaf) (hroot : root.Everywhere S.bnode)
    (hleaf : leaf'.Everywhere S.bnode) (hlevel : leaf'.level = leaf.level)
    (hsucc : S.succ leaf leaf') :
    (zipUp frames leaf').Everywhere S.bnode ∧ (zipUp frames leaf').level = root.level ∧
      S.succ root (zipUp frames leaf') := by
  induction hdescent with
  | here => exact ⟨hleaf, hlevel, hsucc⟩
  | down hinternal he hchild _ ih =>
    have hbelow := hroot.below (mem_of_getElem? he)
    obtain ⟨hrest, hrestLevel, hrestSucc⟩ := ih (hbelow.loadedBnode hload hchild) hlevel hsucc
    obtain ⟨hself, hself'⟩ := rule.plug (hroot _ .self) hinternal he hchild hrestLevel hrestSucc
    exact ⟨plug_everywhere hroot hself hrest, rfl, hself'⟩

/-- What goes up from a split: a dirty right sibling. -/
structure PendingOk (S : TrieSpec) (level : Nat) (split : PendingSplit) : Prop where
  key : S.key split.splitKey
  right : split.right.Everywhere S.bnode
  dirty : split.right.isDirty = true
  level : S.level split.right.level level

omit hload in
theorem splitIfNeeded_kept (h : node.Everywhere S.bnode) (hdirty : node.isDirty) :
    (splitIfNeeded cfg node).1.Everywhere S.bnode ∧ (splitIfNeeded cfg node).1.level = node.level ∧
      (splitIfNeeded cfg node).1.isDirty ∧
      ∀ split, (splitIfNeeded cfg node).2 = some split → PendingOk S node.level split := by
  unfold splitIfNeeded
  split
  · exact ⟨h, rfl, hdirty, fun _ hs => (nomatch hs)⟩
  · split
    · exact ⟨h, rfl, hdirty, fun _ hs => (nomatch hs)⟩
    · rename_i result hresult
      obtain ⟨hleft, hright⟩ := rule.split (h node .self) hresult
      obtain ⟨hmemLeft, hmemRight⟩ := mem_of_bnodeSplit hresult
      have hleft := h.of_entries hleft fun e he => .inl (hmemLeft e he)
      have hright := h.of_entries hright fun e he => .inl (hmemRight e he)
      simp only [bnodeSplit, ite_none_left_eq_some, map_eq_some_iff] at hresult
      obtain ⟨-, midEntry, hmid, rfl⟩ := hresult
      refine ⟨hleft, rfl, hdirty, fun split hs => ?_⟩
      cases hs
      refine ⟨rule.keys (h node .self) (mem_of_getElem? hmid), hright,
        congrArg Bnode.isDirty (foldl_bnodeInsert ..), ?_⟩
      rw [foldl_bnodeInsert_level]
      exact rule.levelRefl _

/-- The loop of `btree_propagate_split`, from a leaf that was split. A node that hands a
split on is dirty, as long as the recorded path reaches it. -/
theorem propagateSplitLoop_kept (depth : Nat) (hdescent : Descends load root frames leaf)
    (hroot : root.Everywhere S.bnode) (hleaf : leaf'.Everywhere S.bnode)
    (hlevel : leaf'.level = leaf.level) (hdirty : leaf'.isDirty)
    (hsplit : PendingOk S leaf.level split) :
    (propagateSplitLoop cfg depth frames leaf' split).1.Everywhere S.bnode ∧
      (propagateSplitLoop cfg depth frames leaf' split).1.level = root.level ∧
      S.succ root (propagateSplitLoop cfg depth frames leaf' split).1 ∧
      ∀ up, (propagateSplitLoop cfg depth frames leaf' split).2 = some up →
        PendingOk S root.level up ∧ (depth < maxBtreeHeight →
          (propagateSplitLoop cfg depth frames leaf' split).1.isDirty) := by
  induction hdescent generalizing depth with
  | here =>
    refine ⟨hleaf, hlevel, rule.changed hdirty, fun up hup => ?_⟩
    cases hup
    exact ⟨hsplit, fun _ => hdirty⟩
  | @down node child leaf frames index e hinternal he hchild _ ih =>
    have hbelow := hroot.below (mem_of_getElem? he)
    obtain ⟨hrest, hrestLevel, hrestSucc, hup⟩ :=
      ih (depth + 1) (hbelow.loadedBnode hload hchild) hlevel hsplit
    obtain ⟨hself, hself'⟩ := rule.plug (hroot _ .self) hinternal he hchild hrestLevel hrestSucc
    have hnode := plug_everywhere hroot hself hrest
    simp only [propagateSplitLoop]
    split
    · exact ⟨hnode, rfl, hself', fun _ hs => (nomatch hs)⟩
    · rename_i up hsome
      obtain ⟨hpending, -⟩ := hup up hsome
      split
      · -- the plugged child is the sibling that fixes the level of the new one
        have hchildSelf := rule.insertChild hself hinternal hpending.key hpending.dirty
          (child_mem_plug he) rfl (hrestLevel ▸ hpending.level)
        have hinsert := bnodeInsert_everywhere hnode hchildSelf (below_childBnode hpending.right)
        obtain ⟨hkept, hkeptLevel, hkeptDirty, hkeptUp⟩ :=
          splitIfNeeded_kept rule cfg (hinsert.markDirty rule) rfl
        exact ⟨hkept, hkeptLevel, rule.changed hkeptDirty,
          fun up' hs => ⟨hkeptUp up' hs, fun _ => hkeptDirty⟩⟩
      · rename_i hdepth
        refine ⟨hnode, rfl, hself', fun up' hs => ?_⟩
        cases hs
        have hlevels := rule.levels (hroot _ .self) hinternal (mem_of_getElem? he) hchild
        exact ⟨⟨hpending.key, hpending.right, hpending.dirty,
          rule.levelTrans hpending.level hlevels⟩, fun h => absurd h hdepth⟩

omit hload in
theorem newRoot_everywhere (hroot : root.Everywhere S.bnode) (hdirty : root.isDirty)
    (hsplit : PendingOk S root.level split) : (newRoot root split).Everywhere S.bnode := by
  have hself := rule.newRoot (hroot _ .self) hdirty hsplit.key hsplit.dirty hsplit.level
  refine Bnode.everywhere_iff.mpr ⟨hself, fun e he => ?_⟩
  rcases eq_or_mem_of_mem_insertIdx he with rfl | he
  · exact below_childBnode hsplit.right
  · split at he
    · exact absurd he not_mem_nil
    · rcases eq_or_mem_of_mem_insertIdx he with rfl | he
      · exact below_childBnode hroot
      · exact absurd he not_mem_nil

/-- A new leaf entry: every bnode on the way is kept, and the root is the old one or a dirty
one. -/
theorem btreeInsertAt_kept (hdescent : Descends load root frames leaf)
    (hroot : root.Everywhere S.bnode) (hself : S.bnode (bnodeInsert leaf e))
    (he : e.Below S.bnode) : (btreeInsertAt cfg frames leaf e).Everywhere S.bnode ∧
      S.succ root (btreeInsertAt cfg frames leaf e) := by
  have hinsert := bnodeInsert_everywhere (hroot.descends hload hdescent) hself he
  obtain ⟨hleft, hlevel, hdirty, hup⟩ := splitIfNeeded_kept rule cfg (hinsert.markDirty rule) rfl
  unfold btreeInsertAt btreeSplitAfterInsert
  split
  · rename_i hsplit
    rw [hsplit] at hleft hlevel hdirty
    obtain ⟨hkept, -, hsucc⟩ :=
      zipUp_kept rule hload hdescent hroot hleft hlevel (rule.changed hdirty)
    exact ⟨hkept, hsucc⟩
  · rename_i left split hsplit
    rw [hsplit] at hleft hlevel hup
    obtain ⟨hkept, hkeptLevel, hsucc, hpending⟩ := propagateSplitLoop_kept rule hload cfg 0
      hdescent hroot (hleft.markDirty rule) hlevel rfl (hup split rfl)
    unfold btreePropagateSplit
    split
    · rename_i heq
      rw [heq] at hkept hsucc
      exact ⟨hkept, hsucc⟩
    · rename_i heq
      rw [heq] at hkept hkeptLevel hpending
      obtain ⟨hok, hrootDirty⟩ := hpending _ rfl
      exact ⟨newRoot_everywhere rule hkept (hrootDirty (by decide)) (hkeptLevel ▸ hok),
        rule.changed rfl⟩

end Btree

/-! ### Leaf entries of the trie operations -/

section Entries

variable {Q : Bnode → Prop} (e : BnodeEntry) (node : HbtrieNode) (value : Bytes)
  (txnId : TransactionId) (pathMeta : List PathSubscriptMeta) (child : Option Bnode)

@[simp] theorem BnodeEntry.setTrieNode_key : (e.setTrieNode node).key = e.key := by
  cases e <;> rfl

@[simp] theorem BnodeEntry.setTrieNode_content : (e.setTrieNode node).content = e.content := by
  cases e <;> rfl

@[simp] theorem BnodeEntry.setTrieNode_trieNode : (e.setTrieNode node).trieNode = some node := by
  cases e <;> rfl

theorem BnodeEntry.setTrieNode_slot : (e.setTrieNode node).slot ≠ .childBnode child := by
  cases e <;> exact nofun

@[simp] theorem BnodeEntry.insertValue_key : (e.insertValue value txnId pathMeta).key = e.key := by
  unfold insertValue
  split <;> rfl

@[simp] theorem BnodeEntry.insertValue_content :
    (e.insertValue value txnId pathMeta).content = some (.write e.content value txnId) := by
  cases e with
  | child | childBnode => rfl
  | value content => cases content <;> rfl

@[simp] theorem BnodeEntry.insertValue_trieNode :
    (e.insertValue value txnId pathMeta).trieNode = e.trieNode := by
  cases e with
  | child | childBnode => rfl
  | value content => cases content <;> rfl

theorem BnodeEntry.insertValue_slot :
    (e.insertValue value txnId pathMeta).slot ≠ .childBnode child := by
  unfold insertValue
  split <;> exact nofun

@[simp] theorem BnodeEntry.deleteValue_key : (e.deleteValue txnId).key = e.key := by
  cases e <;> rfl

@[simp] theorem BnodeEntry.deleteValue_content :
    (e.deleteValue txnId).content = e.content.map fun content => content.delete txnId := by
  cases e <;> rfl

@[simp] theorem BnodeEntry.deleteValue_trieNode : (e.deleteValue txnId).trieNode = e.trieNode := by
  cases e <;> rfl

variable {e}

theorem BnodeEntry.deleteValue_slot {content : Content} (h : e.content = some content)
    (txnId : TransactionId) (child : Option Bnode) :
    (e.deleteValue txnId).slot ≠ .childBnode child := by
  cases e with
  | child | childBnode => cases h
  | value => exact nofun

theorem BnodeEntry.below_of_slot (hslot : ∀ child, e.slot ≠ .childBnode child)
    (hnext : ∀ next, e.trieNode = some next → next.btree.Everywhere Q) : e.Below Q :=
  ⟨fun _ h => absurd h (hslot _), hnext⟩

end Entries

/-! ### The trie operations -/

theorem hbtrieFindEntry_create (load : Loader) (steps : List PathStep) :
    hbtrieFindEntry load hbtrieNodeCreate steps = none := by
  induction steps using stepsInduction with
  | nil => rfl
  | enter identifier rest ih => exact ih
  | chunk c rest ih => cases rest <;> rfl

/-- A lookup below an entry without a trie node is one in a new node. -/
theorem hbtrieFindEntry_getD {load : Loader} (next : Option HbtrieNode) :
    (next.bind fun next => hbtrieFindEntry load next steps) =
      hbtrieFindEntry load (next.getD hbtrieNodeCreate) steps := by
  cases next with
  | none => exact (hbtrieFindEntry_create load steps).symm
  | some next => rfl

/-- A trie node after an operation, against the one before. -/
structure Kept (S : TrieSpec) (node node' : HbtrieNode) : Prop where
  everywhere : node'.btree.Everywhere S.bnode
  succ : S.succ node.btree node'.btree
  trie : S.trie node'

/-- The keys and the subscript metadata of a path may be brought in. -/
structure StepsAdmitted (S : TrieSpec) (cfg : Config) (steps : List PathStep) : Prop where
  key : ∀ c, .chunk c ∈ steps → S.key c
  pathMeta : ∀ i, .enter i ∈ steps → identifierRefused cfg i = false →
    S.pathMeta ⟨i.chunks.length, i.length⟩

theorem StepsAdmitted.tail {S : TrieSpec} {cfg : Config} {step : PathStep} {rest : List PathStep}
    (h : StepsAdmitted S cfg (step :: rest)) : StepsAdmitted S cfg rest :=
  ⟨fun c hc => h.key c (mem_cons_of_mem _ hc), fun i hi => h.pathMeta i (mem_cons_of_mem _ hi)⟩

section Operations

variable {load : Loader} {S : TrieSpec} (rule : NodeRule load S) (hload : LoadsAll S.bnode load)
  {dirty : Bool} {next : HbtrieNode} {value : Bytes}

include rule hload

section Rewrites

variable (h : node.btree.Everywhere S.bnode)

include h

theorem attachPath_kept (htrie : S.trie node) (hdescent : Descends load node.btree frames leaf) :
    Kept S node (node.attachPath frames leaf) := by
  obtain ⟨hkept, -, hsucc⟩ := zipUp_kept rule hload hdescent h (h.descends hload hdescent) rfl
    (rule.refl leaf)
  exact ⟨hkept, hsucc, rule.attached htrie hdescent (.inl rfl)⟩

theorem updateEntry_kept {e' : BnodeEntry} (hdescent : Descends load node.btree frames leaf)
    (hself : S.bnode (leaf.setEntry index e')) (he' : e'.Below S.bnode)
    (hclean : dirty = false → S.succ leaf (leaf.setEntry index e') ∧
      S.trie { node with btree := zipUp frames (leaf.setEntry index e') }) :
    Kept S node (node.updateEntry frames leaf index e' dirty) := by
  have hset : (leaf.setEntry index e').Everywhere S.bnode := by
    refine (h.descends hload hdescent).of_entries hself fun x hx => ?_
    rcases mem_or_eq_of_mem_set hx with hx | rfl
    · exact .inl hx
    · exact .inr he'
  cases dirty with
  | true =>
    obtain ⟨hkept, -, hsucc⟩ := zipUp_kept rule hload hdescent h (hset.markDirty rule) rfl
      (rule.changed rfl)
    exact ⟨hkept, hsucc, rule.dirtied (Bool.or_true _) (zipUp_inTree hdescent _) rfl⟩
  | false =>
    obtain ⟨hleaf, htrie⟩ := hclean rfl
    obtain ⟨hkept, -, hsucc⟩ := zipUp_kept rule hload hdescent h hset rfl hleaf
    refine ⟨hkept, hsucc, ?_⟩
    simpa [HbtrieNode.updateEntry] using htrie

/-- The entry a lookup found, over another trie node. -/
theorem setTrieNode_kept {c : Chunk} (hdescent : Descends load node.btree frames leaf)
    (hfind : bnodeFind leaf c = (some e, index))
    (hself : S.bnode (leaf.setEntry (bnodeFind leaf c).2 (e.setTrieNode next)) ∧
      S.succ leaf (leaf.setEntry (bnodeFind leaf c).2 (e.setTrieNode next)))
    (hnext : next.btree.Everywhere S.bnode)
    (hclean : dirty = false → leaf.entries[index]? = some e →
      S.trie { node with btree := zipUp frames (leaf.setEntry index (e.setTrieNode next)) }) :
    Kept S node (node.updateEntry frames leaf index (e.setTrieNode next) dirty) := by
  rw [hfind] at hself
  refine updateEntry_kept rule hload h hdescent hself.1 ?_ fun hdirty =>
    ⟨hself.2, hclean hdirty ?_⟩
  · exact below_of_slot (e.setTrieNode_slot _) (by simpa using hnext)
  · have hindex : (bnodeFind leaf c).2 = index := by rw [hfind]
    rw [← hindex]
    exact (filter_eq_some_iff.mp (congrArg Prod.fst hfind)).1

end Rewrites

omit hload in
theorem NodeRule.attachedInMemory (htrie : S.trie node)
    (hdescent : Descends load node.btree frames leaf) (hloaded : e.trieNode.isNone = false)
    (he : leaf.entries[index]? = some e) :
    S.trie { node with btree := zipUp frames (leaf.setEntry index (e.setTrieNode next)) } := by
  refine rule.attached htrie hdescent (.inr ⟨index, e, next, he, fun child hslot => ?_, rfl⟩)
  rw [trieNode, hslot] at hloaded
  cases hloaded

theorem insertEntry_kept (cfg : Config) (h : node.btree.Everywhere S.bnode)
    (hdescent : Descends load node.btree frames leaf) (hself : S.bnode (bnodeInsert leaf e))
    (he : e.Below S.bnode) : Kept S node (node.insertEntry cfg frames leaf e) := by
  obtain ⟨hkept, hsucc⟩ := btreeInsertAt_kept rule hload cfg hdescent h hself he
  obtain ⟨b, hb, hdirty⟩ := btreeInsertAt_inTree cfg hdescent e
  exact ⟨hkept, hsucc, rule.dirtied rfl hb hdirty⟩

theorem loadedTrieNode_kept (hleaf : leaf.Everywhere S.bnode) (he : e ∈ leaf.entries)
    (hnext : e.loadedTrieNode load = some next) : next.btree.Everywhere S.bnode ∧ S.trie next := by
  refine ⟨(hleaf.below he).loadedTrieNode hload hnext, ?_⟩
  rcases or_eq_some_iff.mp hnext with hnode | ⟨-, hdisk⟩
  · exact rule.tries (hleaf _ .self) he hnode
  · simp only [hbtrieLoadChildNode, ite_none_right_eq_some, map_eq_some_iff] at hdisk
    obtain ⟨-, root, hroot, rfl⟩ := hdisk
    exact rule.loaded hroot

theorem nextNode_kept (hleaf : leaf.Everywhere S.bnode) (he : e ∈ leaf.entries) :
    ((e.loadedTrieNode load).getD hbtrieNodeCreate).btree.Everywhere S.bnode ∧
      S.trie ((e.loadedTrieNode load).getD hbtrieNodeCreate) := by
  cases hnext : e.loadedTrieNode load with
  | none => exact ⟨Bnode.everywhere_create rule.create, rule.fresh⟩
  | some next => exact loadedTrieNode_kept rule hload hleaf he hnext

omit hload rule in
theorem descends_of_ensureBtreeLoaded (h : ensureBtreeLoaded load root key = some (frames, leaf)) :
    Descends load root frames leaf ∧ leaf.level ≤ 1 ∧
      bnodeFindLeafLazy load root key = (bnodeFind leaf key).1 := by
  simp only [ensureBtreeLoaded] at h
  split at h
  · cases h
  · rename_i hlevel
    have heq := some.inj h
    have hdescent := btreeDescendLoop_descends load key root.level root
    rw [← btreeDescendWithPathLazy, heq] at hdescent
    rw [heq, not_lt] at hlevel
    exact ⟨hdescent, hlevel, by rw [bnodeFindLeafLazy, heq]⟩

theorem hbtrieInsertSteps_kept (cfg : Config) {pathMeta : List PathSubscriptMeta}
    (hsteps : StepsAdmitted S cfg steps) (hmeta : ∀ m ∈ pathMeta, S.pathMeta m)
    (h : node.btree.Everywhere S.bnode) (htrie : S.trie node) (hwrite : S.content
      (.write ((hbtrieFindEntry load node steps).bind content) value txnId)) :
    Kept S node (hbtrieInsertSteps cfg load value txnId pathMeta node steps).1 := by
  fun_induction hbtrieInsertSteps cfg load value txnId pathMeta node steps with
  | case1 | case2 | case4 => exact ⟨h, rule.refl _, htrie⟩
  | case3 pathMeta node identifier rest hrefused ih =>
    refine ih hsteps.tail (forall_mem_append.mpr ⟨hmeta, forall_mem_singleton.mpr ?_⟩) h
      htrie hwrite
    exact hsteps.pathMeta identifier mem_cons_self (Bool.eq_false_of_not_eq_true hrefused)
  | case5 pathMeta node c frames leaf hensure index hfind =>
    obtain ⟨hdescent, hlevel, hlookup⟩ := descends_of_ensureBtreeLoaded hensure
    rw [hbtrieFindEntry, hlookup, hfind] at hwrite
    refine insertEntry_kept rule hload cfg h hdescent (rule.newValue
      (h.descends hload hdescent _ .self) hlevel (congrArg Prod.fst hfind)
      (hsteps.key c mem_cons_self) hwrite hmeta) ?_
    exact below_of_slot nofun nofun
  | case6 pathMeta node c frames leaf hensure e index hfind =>
    obtain ⟨hdescent, hlevel, hlookup⟩ := descends_of_ensureBtreeLoaded hensure
    have hleaf := h.descends hload hdescent
    have hfound := congrArg Prod.fst hfind
    rw [hbtrieFindEntry, hlookup, hfind] at hwrite
    have hself := rule.insertValue (hleaf _ .self) hlevel hfound hwrite hmeta
    rw [hfind] at hself
    refine updateEntry_kept rule hload h hdescent hself ?_ nofun
    have he := hleaf.below (mem_of_bnodeFind hfound)
    exact below_of_slot (e.insertValue_slot _ _ _) (by simpa using he.under)
  | case7 pathMeta node c frames leaf hensure step rest index hfind below ih =>
    obtain ⟨hdescent, hlevel, hlookup⟩ := descends_of_ensureBtreeLoaded hensure
    rw [hbtrieFindEntry, hlookup, hfind] at hwrite
    have hbelow := ih hsteps.tail hmeta (Bnode.everywhere_create rule.create) rule.fresh
      (by rw [hbtrieFindEntry_create]; exact hwrite)
    refine insertEntry_kept rule hload cfg h hdescent (rule.newChild
      (h.descends hload hdescent _ .self) hlevel (congrArg Prod.fst hfind)
      (hsteps.key c mem_cons_self) hbelow.succ hbelow.trie) ?_
    refine below_of_slot nofun fun next hn => ?_
    cases hn
    exact hbelow.everywhere
  | case8 pathMeta node c frames leaf hensure step rest e index hfind next below ih =>
    obtain ⟨hdescent, hlevel, hlookup⟩ := descends_of_ensureBtreeLoaded hensure
    have hleaf := h.descends hload hdescent
    have hfound := congrArg Prod.fst hfind
    rw [hbtrieFindEntry, hlookup, hfind, bind_some, hbtrieFindEntry_getD] at hwrite
    obtain ⟨hnext, hnextTrie⟩ := nextNode_kept rule hload hleaf (mem_of_bnodeFind hfound)
    have hbelow := ih hsteps.tail hmeta hnext hnextTrie hwrite
    exact setTrieNode_kept rule hload h hdescent hfind
      (rule.setTrieNode (hleaf _ .self) hlevel hfound hbelow.succ hbelow.trie)
      hbelow.everywhere (rule.attachedInMemory htrie hdescent)

theorem hbtrieInsert_kept (cfg : Config) {root : HbtrieNode} {path : Path}
    (hsteps : StepsAdmitted S cfg (pathSteps path)) (h : root.btree.Everywhere S.bnode)
    (htrie : S.trie root)
    (hwrite : S.content (.write ((hbtrieFindEntry load root (pathSteps path)).bind
      content) value txnId)) : Kept S root (hbtrieInsert cfg load root path value txnId).1 := by
  unfold hbtrieInsert
  split
  · exact ⟨h, rule.refl _, htrie⟩
  · exact hbtrieInsertSteps_kept rule hload cfg hsteps nofun h htrie hwrite

/-- A delete writes one new content: a tombstone over what a lookup finds. -/
theorem hbtrieDeleteSteps_kept (h : node.btree.Everywhere S.bnode) (htrie : S.trie node)
    (hwrite : ∀ content, (hbtrieFindEntry load node steps).bind BnodeEntry.content = some content →
      S.content (content.delete txnId)) :
    Kept S node (hbtrieDeleteSteps load txnId node steps).1 := by
  fun_induction hbtrieDeleteSteps load txnId node steps with
  | case1 | case3 => exact ⟨h, rule.refl _, htrie⟩
  | case2 node identifier rest ih => exact ih h htrie hwrite
  | case4 _ _ _ _ _ hensure | case5 _ _ _ _ hensure | case7 _ _ _ _ hensure =>
    exact attachPath_kept rule hload h htrie (descends_of_ensureBtreeLoaded hensure).1
  | case6 node c frames leaf hensure e index hfind content hcontent =>
    obtain ⟨hdescent, hlevel, hlookup⟩ := descends_of_ensureBtreeLoaded hensure
    have hleaf := h.descends hload hdescent
    have hfound := congrArg Prod.fst hfind
    rw [hbtrieFindEntry, hlookup, hfind] at hwrite
    have hself := rule.deleteValue (hleaf _ .self) hlevel hfound hcontent (hwrite content hcontent)
    rw [hfind] at hself
    refine updateEntry_kept rule hload h hdescent hself ?_ nofun
    have he := hleaf.below (mem_of_bnodeFind hfound)
    exact below_of_slot (deleteValue_slot hcontent _) (by simpa using he.under)
  | case8 node c frames leaf hensure step rest e index hfind next hnext below ih =>
    obtain ⟨hdescent, hlevel, hlookup⟩ := descends_of_ensureBtreeLoaded hensure
    have hleaf := h.descends hload hdescent
    have hfound := congrArg Prod.fst hfind
    rw [hbtrieFindEntry, hlookup, hfind, bind_some, hnext] at hwrite
    obtain ⟨hnextOk, hnextTrie⟩ :=
      loadedTrieNode_kept rule hload hleaf (mem_of_bnodeFind hfound) hnext
    have hbelow := ih hnextOk hnextTrie hwrite
    exact setTrieNode_kept rule hload h hdescent hfind
      (rule.setTrieNode (hleaf _ .self) hlevel hfound (by rw [hnext]; exact hbelow.succ)
        hbelow.trie) hbelow.everywhere (rule.attachedInMemory htrie hdescent)

/-- A find only attaches what it loads. It may end in an internal node whose child cannot be
read, so the rules for the entry found there are premises of their own. -/
theorem hbtrieFindAttach_kept
    (hattached : ∀ {node next : HbtrieNode} {frames : List BtreeFrame} {leaf : Bnode} {index : Nat}
      {e : BnodeEntry}, S.trie node → Descends load node.btree frames leaf →
      leaf.entries[index]? = some e →
      S.trie { node with btree := zipUp frames (leaf.setEntry index (e.setTrieNode next)) })
    (hset : ∀ {root : Bnode} {c : Chunk} {e : BnodeEntry} {next next' : HbtrieNode},
      root.Everywhere S.bnode →
      (bnodeFind (btreeDescendWithPathLazy load root c).2 c).1 = some e →
      e.loadedTrieNode load = some next → Kept S next next' →
      S.bnode ((btreeDescendWithPathLazy load root c).2.setEntry
          (bnodeFind (btreeDescendWithPathLazy load root c).2 c).2 (e.setTrieNode next')) ∧
        S.succ (btreeDescendWithPathLazy load root c).2
          ((btreeDescendWithPathLazy load root c).2.setEntry
            (bnodeFind (btreeDescendWithPathLazy load root c).2 c).2 (e.setTrieNode next')))
    (h : node.btree.Everywhere S.bnode) (htrie : S.trie node) :
    Kept S node (hbtrieFindAttach load node steps) := by
  have hdescent (node : HbtrieNode) (c : Chunk) :=
    btreeDescendLoop_descends load c node.btree.level node.btree
  fun_induction hbtrieFindAttach load node steps with
  | case1 => exact ⟨h, rule.refl _, htrie⟩
  | case2 node identifier rest ih => exact ih h htrie
  | case3 node c | case4 node c | case5 node c =>
    exact attachPath_kept rule hload h htrie (hdescent node c)
  | case6 node c descent step rest e index hfind next hnext ih =>
    have hleaf := h.descends hload (hdescent node c)
    have hfound := congrArg Prod.fst hfind
    obtain ⟨hnextOk, hnextTrie⟩ :=
      loadedTrieNode_kept rule hload hleaf (mem_of_bnodeFind hfound) hnext
    have hbelow := ih hnextOk hnextTrie
    exact setTrieNode_kept rule hload h (hdescent node c) hfind (hset h hfound hnext hbelow)
      hbelow.everywhere fun _ he => hattached htrie (hdescent node c) he

end Operations

/-! ### Properties of single nodes -/

/-- An entry of a leaf: it has no child bnode, and its content satisfies `P`. -/
structure LeafEntry (P : Content → Prop) (e : BnodeEntry) : Prop where
  slot : ∀ child, e.slot ≠ .childBnode child
  content : ∀ c, e.content = some c → P c

/-- The rules for a property that sees the entries of one node, whatever hangs below. -/
structure EntryRule (P : Content → Prop) (Q : Bnode → Prop) : Prop where
  create : Q (bnodeCreateWithLevel 1)
  contents : ∀ {node e c}, Q node → e ∈ node.entries → e.content = some c → P c
  markDirty : ∀ {node}, Q node → Q node.markDirty
  plug : ∀ {frame : BtreeFrame} {child}, Q frame.node → 1 < frame.node.level → Q (frame.plug child)
  insertNew : ∀ {leaf e}, Q leaf → leaf.level ≤ 1 → (bnodeFind leaf e.key).1 = none →
    LeafEntry P e → Q (bnodeInsert leaf e)
  insertChild : ∀ {node} key child, Q node → 1 < node.level →
    Q (bnodeInsertBnodeChild node key child)
  split : ∀ {node result}, Q node → bnodeSplit node = some result → Q result.left ∧ Q result.right
  newRoot : ∀ {node} split, Q node → Q (newRoot node split)
  setEntry : ∀ {leaf key e e'}, Q leaf → leaf.level ≤ 1 → (bnodeFind leaf key).1 = some e →
    e'.key = e.key → LeafEntry P e' → Q (leaf.setEntry (bnodeFind leaf key).2 e')

def entrySpec : TrieSpec where
  key _ := True
  content := P
  pathMeta _ := True
  bnode := Q
  trie _ := True
  succ _ _ := True
  level _ _ := True

theorem LeafEntry.setTrieNode {P : Content → Prop} (node : HbtrieNode)
    (h : ∀ c, e.content = some c → P c) : LeafEntry P (e.setTrieNode node) :=
  ⟨e.setTrieNode_slot node, by simpa using h⟩

section EntryRule

variable {P : Content → Prop} {Q : Bnode → Prop} (rule : EntryRule P Q) (load : Loader)

include rule

theorem EntryRule.nodeRule : NodeRule load (entrySpec P Q) where
  create := rule.create
  keys _ _ := trivial
  tries _ _ _ := trivial
  levels _ _ _ _ := trivial
  refl _ := trivial
  changed _ := trivial
  levelRefl _ := trivial
  levelTrans _ _ := trivial
  fresh := trivial
  loaded _ := trivial
  dirtied _ _ _ := trivial
  attached _ _ _ := trivial
  markDirty h := rule.markDirty h
  plug h hlevel _ _ _ _ := ⟨rule.plug h hlevel, trivial⟩
  newValue h hlevel hnew _ hcontent _ := by
    refine rule.insertNew h hlevel hnew ⟨fun _ hslot => (nomatch hslot), fun c hc => ?_⟩
    cases hc
    exact hcontent
  newChild h hlevel hnew _ _ _ :=
    rule.insertNew h hlevel hnew ⟨fun _ hslot => (nomatch hslot), fun _ hc => (nomatch hc)⟩
  insertValue {leaf c e value txnId pathMeta} h hlevel hfound hcontent _ := by
    refine rule.setEntry h hlevel hfound (e.insertValue_key ..) ⟨e.insertValue_slot _ _ _, ?_⟩
    intro content hc
    rw [insertValue_content] at hc
    cases hc
    exact hcontent
  setTrieNode {leaf c e next} h hlevel hfound _ _ :=
    ⟨rule.setEntry h hlevel hfound (e.setTrieNode_key next)
      (.setTrieNode next fun _ => rule.contents h (mem_of_bnodeFind hfound)), trivial⟩
  deleteValue {leaf c e content txnId} h hlevel hfound hcontent hwrite := by
    refine rule.setEntry h hlevel hfound (e.deleteValue_key txnId)
      ⟨deleteValue_slot hcontent txnId, fun content' hc => ?_⟩
    rw [deleteValue_content, hcontent] at hc
    cases hc
    exact hwrite
  insertChild h hlevel _ _ _ _ _ := rule.insertChild _ _ h hlevel
  split h hsplit := rule.split h hsplit
  newRoot h _ _ _ _ := rule.newRoot _ h

variable {load} (hload : LoadsAll Q load)

include hload

theorem hbtrieInsert_everywhere (cfg : Config) {root : HbtrieNode} {path : Path} {value : Bytes}
    (h : root.btree.Everywhere Q)
    (hwrite : P (.write ((hbtrieFindEntry load root (pathSteps path)).bind content)
      value txnId)) : (hbtrieInsert cfg load root path value txnId).1.btree.Everywhere Q :=
  (hbtrieInsert_kept (rule.nodeRule load) hload cfg ⟨fun _ _ => trivial, fun _ _ _ => trivial⟩ h
    trivial hwrite).everywhere

theorem hbtrieDeleteSteps_everywhere (h : node.btree.Everywhere Q)
    (hwrite : ∀ content, (hbtrieFindEntry load node steps).bind BnodeEntry.content = some content →
      P (content.delete txnId)) : (hbtrieDeleteSteps load txnId node steps).1.btree.Everywhere Q :=
  (hbtrieDeleteSteps_kept (rule.nodeRule load) hload h trivial hwrite).everywhere

/-- A find keeps properties that do not see where in a node an entry is replaced. -/
theorem hbtrieFindAttach_everywhere
    (hset : ∀ leaf index e, Q leaf → LeafEntry P e → Q (leaf.setEntry index e))
    (h : node.btree.Everywhere Q) : (hbtrieFindAttach load node steps).btree.Everywhere Q := by
  refine (hbtrieFindAttach_kept (rule.nodeRule load) hload (fun _ _ _ => trivial) ?_ h
    trivial).everywhere
  intro root c e next next' hroot hfound _ _
  have hleaf := btreeDescendLoop_everywhere hload c root.level hroot _ .self
  exact ⟨hset _ _ _ hleaf (.setTrieNode next' fun _ => rule.contents hleaf
    (mem_of_bnodeFind hfound)), trivial⟩

end EntryRule

/-! ### The contents of a trie -/

/-- The contents of the node's own entries have the property. -/
def ContentsOf (node : Bnode) : Prop :=
  ∀ e ∈ node.entries, ∀ c, e.content = some c → P c

/-- Every content at or below the node has the property. -/
def Bnode.HoldsAll (node : Bnode) : Prop := node.Everywhere (ContentsOf P)

/-- The content is that of some entry at or below the node. -/
def Bnode.Holds (node : Bnode) (c : Content) : Prop :=
  ∃ b, node.Contains b ∧ ∃ e ∈ b.entries, e.content = some c

section Contents

variable {P : Content → Prop} {node : Bnode}

theorem Bnode.holdsAll_iff : node.HoldsAll P ↔ ∀ c, node.Holds c → P c := by
  constructor
  · rintro h c ⟨b, hb, e, he, hc⟩
    exact h b hb e he c hc
  · intro h b hb e he c hc
    exact h c ⟨b, hb, e, he, hc⟩

theorem ContentsOf.insert (h : ContentsOf P node) (he : ∀ c, e.content = some c → P c) :
    ContentsOf P (bnodeInsert node e) := by
  intro x hx
  rcases eq_or_mem_of_mem_insertIdx hx with rfl | hx
  · exact he
  · exact h x hx

theorem ContentsOf.setEntry (h : ContentsOf P node) (he : LeafEntry P e) :
    ContentsOf P (node.setEntry index e) := by
  intro x hx
  rcases mem_or_eq_of_mem_set hx with hx | rfl
  · exact h x hx
  · exact he.content

theorem contentsOf_create (level : Nat) : ContentsOf P (bnodeCreateWithLevel level) := nofun

theorem contentsOf_rule (P : Content → Prop) : EntryRule P (ContentsOf P) where
  create := contentsOf_create 1
  contents h he hc := h _ he _ hc
  markDirty h := h
  plug {frame child} h _ := by
    intro e he c hc
    rcases mem_plug he with he | ⟨old, -, rfl⟩
    · exact h e he c hc
    · cases hc
  insertNew h _ _ he := h.insert he.content
  insertChild key child h _ := h.insert nofun
  split h hsplit := by
    obtain ⟨hleft, hright⟩ := mem_of_bnodeSplit hsplit
    exact ⟨fun e he => h e (hleft e he), fun e he => h e (hright e he)⟩
  newRoot {node} split _ := by
    refine ContentsOf.insert ?_ nofun
    cases node.entries.head? with
    | none => exact contentsOf_create _
    | some leftFirst => exact (contentsOf_create _).insert nofun
  setEntry h _ _ _ he := h.setEntry he

end Contents

end WaveDB.HBTrie
