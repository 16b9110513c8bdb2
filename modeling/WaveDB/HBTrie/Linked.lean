import WaveDB.HBTrie.NodeShape
import WaveDB.HBTrie.TrieHistory

/-!
Descents that reach a leaf.

`Linked` says that an internal bnode has entries and that each leads to a bnode of a smaller
level, in memory or in the page file. All operations keep it (`linkedRule`), whatever they
do to the order of the keys. In such a trie `hbtrie_insert` refuses a call for its path alone
(`hbtrieInsert_accepted`).
-/

namespace WaveDB.HBTrie

open WaveDB.Basis Workers List Option

/-- A bnode whose children can be reached. -/
structure Linked (load : Loader) (node : Bnode) : Prop where
  shape : Shaped node
  filled : 1 < node.level → node.entries ≠ []
  children : 1 < node.level → ∀ e ∈ node.entries,
    ∃ child, e.loadedBnode load = some child ∧ child.level < node.level

def linkedSpec (load : Loader) : TrieSpec where
  key _ := True
  content _ := True
  pathMeta _ := True
  bnode := Linked load
  trie _ := True
  succ _ _ := True
  level := (· ≤ ·)

theorem bnodeInsert_entries_ne_nil (node : Bnode) (e : BnodeEntry) :
    (bnodeInsert node e).entries ≠ [] := by
  rw [bnodeInsert_entries]
  cases hentries : node.entries with
  | nil => exact cons_ne_nil _ _
  | cons first rest =>
    rw [Ne, ← length_eq_zero_iff, length_insertIdx]
    split <;> simp

theorem foldl_bnodeInsert_entries_ne_nil {es : List BnodeEntry} (node : Bnode) (h : es ≠ []) :
    (es.foldl bnodeInsert node).entries ≠ [] := by
  obtain ⟨pre, last, rfl⟩ := eq_nil_or_concat es |>.resolve_left h
  rw [concat_eq_append, foldl_append]
  exact bnodeInsert_entries_ne_nil _ last

section Rule

variable {load : Loader} {node : Bnode} {child : Bnode}

theorem Linked.of_leaf (hshape : Shaped node) (hlevel : node.level ≤ 1) : Linked load node :=
  ⟨hshape, fun h => absurd hlevel (not_le.mpr h), fun h => absurd hlevel (not_le.mpr h)⟩

section Links

variable (h : Linked load node)

include h

theorem Linked.levels (hlevel : 1 < node.level) {e : BnodeEntry} (he : e ∈ node.entries)
    (hchild : e.loadedBnode load = some child) : child.level < node.level := by
  obtain ⟨child', hchild', hlt⟩ := h.children hlevel e he
  rw [hchild] at hchild'
  cases hchild'
  exact hlt

theorem Linked.plug {index : Nat} {e : BnodeEntry} {child' : Bnode} (hlevel : 1 < node.level)
    (he : node.entries[index]? = some e) (hchild : e.loadedBnode load = some child)
    (heq : child'.level = child.level) : Linked load (BtreeFrame.plug ⟨node, index⟩ child') := by
  refine ⟨shaped_rule.plug h.shape hlevel, fun _ => ?_, fun _ x hx => ?_⟩
  · rw [BtreeFrame.plug, Ne, ← length_eq_zero_iff, length_modify, length_eq_zero_iff]
    exact h.filled hlevel
  · rcases BtreeFrame.mem_plug hx with hx | ⟨old, -, rfl⟩
    · exact h.children hlevel x hx
    · refine ⟨child', rfl, ?_⟩
      rw [heq]
      exact h.levels hlevel (mem_of_getElem? he) hchild

theorem Linked.insertChild {key : Chunk} (hlevel : 1 < node.level)
    (hchild : child.level < node.level) : Linked load (bnodeInsertBnodeChild node key child) := by
  refine ⟨shaped_rule.insertChild key child h.shape hlevel, fun _ => ?_, fun _ x hx => ?_⟩
  · exact bnodeInsert_entries_ne_nil _ _
  · rcases eq_or_mem_of_mem_insertIdx hx with rfl | hx
    · exact ⟨child, rfl, hchild⟩
    · exact h.children hlevel x hx

theorem Linked.split {result : SplitResult} (hsplit : bnodeSplit node = some result) :
    Linked load result.left ∧ Linked load result.right := by
  obtain ⟨hleft, hright⟩ := h.shape.split hsplit
  obtain ⟨hmemLeft, hmemRight⟩ := mem_of_bnodeSplit hsplit
  simp only [bnodeSplit, ite_none_left_eq_some, map_eq_some_iff] at hsplit
  obtain ⟨hlen, midEntry, -, rfl⟩ := hsplit
  constructor
  · refine ⟨hleft, fun _ => ?_, fun hlevel e he => h.children hlevel e (hmemLeft e he)⟩
    rw [Ne, take_eq_nil_iff]
    rintro (hmid | hnil)
    · omega
    · rw [hnil] at hlen
      exact hlen (by decide)
  · refine ⟨hright, fun _ => ?_, fun hlevel e he => ?_⟩
    · refine foldl_bnodeInsert_entries_ne_nil _ ?_
      rw [Ne, drop_eq_nil_iff]
      omega
    · rw [foldl_bnodeInsert_level] at hlevel ⊢
      exact h.children hlevel e (hmemRight e he)

theorem Linked.newRoot {split : PendingSplit} (hright : split.right.level ≤ node.level) :
    Linked load (newRoot node split) := by
  refine ⟨h.shape.newRoot split, fun _ => bnodeInsert_entries_ne_nil _ _, fun _ x hx => ?_⟩
  have hlevel : (HBTrie.newRoot node split).level = node.level + 1 := by
    unfold HBTrie.newRoot
    split <;> rfl
  rw [hlevel]
  rcases eq_or_mem_of_mem_insertIdx hx with rfl | hx
  · exact ⟨split.right, rfl, Nat.lt_succ_of_le hright⟩
  · split at hx
    · exact absurd hx not_mem_nil
    · rcases eq_or_mem_of_mem_insertIdx hx with rfl | hx
      · exact ⟨node, rfl, Nat.lt_succ_self _⟩
      · exact absurd hx not_mem_nil

end Links

theorem linkedRule (load : Loader) : NodeRule load (linkedSpec load) where
  create := .of_leaf shaped_rule.create le_rfl
  keys _ _ := trivial
  tries _ _ _ := trivial
  levels h hlevel he hchild := (h.levels hlevel he hchild).le
  refl _ := trivial
  changed _ := trivial
  levelRefl _ := le_rfl
  levelTrans := le_trans
  fresh := trivial
  loaded _ := trivial
  dirtied _ _ _ := trivial
  attached _ _ _ := trivial
  markDirty h := ⟨shaped_rule.markDirty h.shape, h.filled, h.children⟩
  plug h hlevel he hchild heq _ := ⟨h.plug hlevel he hchild heq, trivial⟩
  newValue h hlevel hnew _ _ _ :=
    .of_leaf (shaped_rule.insertNew h.shape hlevel hnew
      ⟨fun _ hslot => (nomatch hslot), fun _ _ => trivial⟩) hlevel
  newChild h hlevel hnew _ _ _ :=
    .of_leaf (shaped_rule.insertNew h.shape hlevel hnew
      ⟨fun _ hslot => (nomatch hslot), fun _ _ => trivial⟩) hlevel
  insertValue {leaf c e value txnId pathMeta} h hlevel hfound _ _ :=
    .of_leaf (shaped_rule.setEntry h.shape hlevel hfound (e.insertValue_key ..)
      ⟨e.insertValue_slot _ _ _, fun _ _ => trivial⟩) hlevel
  setTrieNode {leaf c e next} h hlevel hfound _ _ :=
    ⟨.of_leaf (shaped_rule.setEntry h.shape hlevel hfound (e.setTrieNode_key next)
      (.setTrieNode next fun _ _ => trivial)) hlevel, trivial⟩
  deleteValue {leaf c e content txnId} h hlevel hfound hcontent _ :=
    .of_leaf (shaped_rule.setEntry h.shape hlevel hfound (e.deleteValue_key txnId)
      ⟨BnodeEntry.deleteValue_slot hcontent txnId, fun _ _ => trivial⟩) hlevel
  insertChild {node key child sibling e} h hlevel _ _ he hslot hchild := by
    have hsibling : sibling.level < node.level :=
      h.levels hlevel he (by rw [BnodeEntry.loadedBnode, hslot])
    exact h.insertChild hlevel (lt_of_le_of_lt hchild hsibling)
  split h hsplit := h.split hsplit
  newRoot h _ _ _ hright := h.newRoot hright

end Rule

/-! ### Descents -/

section Descent

variable {load : Loader} (hload : LoadsAll (Linked load) load)

theorem Linked.nextChild {node : Bnode} (h : Linked load node) (hlevel : 1 < node.level)
    (key : Chunk) : ∃ index child, btreeNextChild load node key = some (index, child) := by
  have hat : ∀ i < node.entries.length, ∃ index child,
      childBnodeAt load node i = some (index, child) := by
    intro i hi
    obtain ⟨child, hchild, -⟩ := h.children hlevel node.entries[i] (getElem_mem hi)
    refine ⟨i, child, ?_⟩
    rw [childBnodeAt, getElem?_eq_getElem hi, bind_some, hchild, map_some]
  have hpos : 0 < node.entries.length := length_pos_iff.mpr (h.filled hlevel)
  unfold btreeNextChild
  split
  · exact ⟨_, _, rfl⟩
  · split
    · exact hat 0 hpos
    · refine hat _ ?_
      have hle : (bnodeFind node key).2 ≤ node.entries.length := by
        exact lowerBoundLoop_le _ _ _ (Nat.zero_le _)
      omega

include hload

theorem btreeDescendLoop_level {fuel : Nat} {node : Bnode} (h : node.Everywhere (Linked load))
    (hfuel : node.level ≤ fuel + 1) (key : Chunk) :
    (btreeDescendLoop load key fuel node).2.level ≤ 1 := by
  fun_induction btreeDescendLoop load key fuel node with
  | case1 => exact hfuel
  | case2 fuel node hlevel hnone =>
    obtain ⟨index, child, hnext⟩ := (h _ .self).nextChild hlevel key
    cases hnone.symm.trans hnext
  | case3 fuel node hlevel index child hnext ih =>
    obtain ⟨e, he, hchild⟩ := entry_of_btreeNextChild hnext
    have hlt := (h _ .self).levels hlevel (mem_of_getElem? he) hchild
    exact ih (h.nextChild hload hnext) (by omega)
  | case4 fuel node hlevel => exact not_lt.mp hlevel

/-- An insert refuses what the guard refuses, and nothing else. -/
theorem hbtrieInsertSteps_accepted {cfg : Config} {value : Bytes} {txnId : TransactionId}
    {steps : List PathStep} {pathMeta : List PathSubscriptMeta} {node : HbtrieNode}
    (h : node.btree.Everywhere (Linked load)) :
    (hbtrieInsertSteps cfg load value txnId pathMeta node steps).2 = stepsAccepted cfg steps := by
  fun_induction hbtrieInsertSteps cfg load value txnId pathMeta node steps with
  | case1 => rfl
  | case2 _ _ _ _ hrefused => simp [stepsAccepted, PathStep.accepted, hrefused]
  | case3 _ _ _ _ hrefused ih => simpa [stepsAccepted, PathStep.accepted, hrefused] using ih h
  | case4 _ _ c _ hnone =>
    have hlevel := btreeDescendLoop_level hload h (Nat.le_succ _) c
    cases hnone.symm.trans (if_neg (not_lt.mpr hlevel))
  | case5 => rfl
  | case6 => rfl
  | case7 _ _ _ _ _ _ _ _ _ _ _ ih => exact ih (Bnode.everywhere_create (linkedRule load).create)
  | case8 pathMeta node c frames leaf hensure step rest e index hfind next below ih =>
    have hleaf := h.descends hload (descends_of_ensureBtreeLoaded hensure).1
    have he := hleaf.below (mem_of_bnodeFind (congrArg Prod.fst hfind))
    exact ih (he.nextNode hload (linkedRule load).create)

end Descent

/-! ### Tries -/

/-- Every descent in the trie reaches a leaf, and so does every one in the page file. -/
structure LinkedTrie (load : Loader) (root : HbtrieNode) : Prop where
  pages : LoadsAll (Linked load) load
  nodes : root.btree.Everywhere (Linked load)

theorem LinkedTrie.create : LinkedTrie noLoader hbtrieNodeCreate :=
  ⟨loadsAll_noLoader, Bnode.everywhere_create (linkedRule noLoader).create⟩

section Trie

variable {load : Loader} {root : HbtrieNode} (h : LinkedTrie load root) (cfg : Config)

include h

theorem LinkedTrie.applyOp (op : TrieOp) : LinkedTrie load (applyOp cfg load root op) := by
  refine ⟨h.pages, ?_⟩
  cases op with
  | insert path value txnId =>
    exact (hbtrieInsert_kept (linkedRule load) h.pages cfg
      ⟨fun _ _ => trivial, fun _ _ _ => trivial⟩ h.nodes trivial trivial).everywhere
  | delete path txnId =>
    exact (hbtrieDeleteSteps_kept (linkedRule load) h.pages h.nodes trivial
      fun _ _ => trivial).everywhere

theorem LinkedTrie.hbtrieInsert_accepted (path : Path) (value : Bytes) (txnId : TransactionId) :
    (hbtrieInsert cfg load root path value txnId).2 =
      (decide (path ≠ []) && pathAccepted cfg path) := by
  rw [hbtrieInsert]
  split
  · next hnil => simp [hnil]
  · rename_i hne
    rw [hbtrieInsertSteps_accepted h.pages h.nodes, stepsAccepted_pathSteps, decide_eq_true hne,
      Bool.true_and]

end Trie

/-- Whatever was inserted and deleted before, an insert is refused for its path alone. -/
theorem insert_refused_for_path (cfg : Config) (ops : List TrieOp) (path : Path) (value : Bytes)
    (txnId : TransactionId) :
    (hbtrieInsert cfg noLoader (runOps cfg noLoader ops) path value txnId).2 =
      (decide (path ≠ []) && pathAccepted cfg path) := by
  have hlinked : LinkedTrie noLoader (runOps cfg noLoader ops) := by
    induction ops using reverseRecOn with
    | nil => exact .create
    | append_singleton ops op ih =>
      rw [runOps_concat]
      exact ih.applyOp cfg op
  exact hlinked.hbtrieInsert_accepted cfg path value txnId

end WaveDB.HBTrie
