import WaveDB.Basis.Segments
import WaveDB.HBTrie.Btree

/-!
Search correctness of the B+tree inside one `hbtrie_node`.

`SearchTree load n node lo hi` is the invariant of a subtree with `n` internal
levels: its separators cut `[lo, hi)` into the segments of the children. Keys
below the first separator of a node all live in its leftmost child, whose own
separator is never lowered; the invariant allows that. A leaf that splits below
its separator breaks it (`splitsAboveSeparator` excludes that step).
-/

namespace WaveDB.HBTrie

open WaveDB.Basis BnodeEntry

/-! ### The invariant -/

def Bnode.firstKey (node : Bnode) : Option Chunk := node.entries.head?.map key

/-- The child of an entry is there and satisfies `tree` on the entry's segment.
The first separator of an internal child equals the separator it hangs under. -/
def ChildTree (load : Loader) (n : Nat) (tree : Bnode → WithBot Chunk → WithTop Chunk → Prop)
    (e : BnodeEntry) (l : WithBot Chunk) (u : WithTop Chunk) : Prop :=
  ∃ child, e.loadedBnode load = some child ∧ tree child l u ∧ (0 < n → child.firstKey = some e.key)

/-- A subtree with `n` internal levels whose keys lie in `[lo, hi)`. -/
def SearchTree (load : Loader) : Nat → Bnode → WithBot Chunk → WithTop Chunk → Prop
  | 0, node, lo, hi =>
    node.level = 1 ∧ node.Sorted ∧ ∀ e ∈ node.entries, lo ≤ e.key ∧ (e.key : WithTop Chunk) < hi
  | n + 1, node, lo, hi =>
    node.level = n + 2 ∧
      Segmented key (ChildTree load n (SearchTree load n)) lo hi node.entries

/-- The entries of the leaves of a subtree with `n` internal levels, from left to
right. -/
def leafEntries (load : Loader) : Nat → Bnode → List BnodeEntry
  | 0, node => node.entries
  | n + 1, node =>
    node.entries.flatMap fun e => ((e.loadedBnode load).map (leafEntries load n)).getD []

def entryLeaves (load : Loader) (n : Nat) (e : BnodeEntry) : List BnodeEntry :=
  ((e.loadedBnode load).map (leafEntries load n)).getD []

section Invariant

variable {load : Loader} {n : Nat} {node child : Bnode} {lo : WithBot Chunk} {hi : WithTop Chunk}
  {k : Chunk}

section Level

variable (h : SearchTree load n node lo hi)

include h

theorem SearchTree.level_eq : node.level = n + 1 := by
  cases n with
  | zero | succ n => exact h.1

theorem SearchTree.sorted : node.Sorted := by
  cases n with
  | zero => exact h.2.1
  | succ n => exact h.2.ascending

/-- The leaves concatenate to an ascending list within the bounds. -/
theorem SearchTree.leafEntries_ascending : Ascending key (leafEntries load n node) ∧
      ∀ e ∈ leafEntries load n node, lo ≤ e.key ∧ (e.key : WithTop Chunk) < hi := by
  induction n generalizing node lo hi with
  | zero => exact h.2
  | succ n ih =>
    refine Segmented.ascending_flatMap ?_ h.2
    rintro e l u ⟨child, hload, htree, -⟩
    simpa [hload] using ih htree

end Level

/-- The search in an internal node ends at the child whose segment holds the
key. -/
theorem SearchTree.btreeNextChild_eq (h : SearchTree load (n + 1) node lo hi) (hlo : lo ≤ k)
    (hhi : (k : WithTop Chunk) < hi) : ∃ pre x post child, node.entries = pre ++ x :: post ∧
      btreeNextChild load node k = some (pre.length, child) ∧ x.loadedBnode load = some child ∧
      SearchTree load n child (segLo key lo pre x) (segHi key hi post) ∧
      (0 < n → child.firstKey = some x.key) ∧
      segLo key lo pre x ≤ k ∧ (k : WithTop Chunk) < segHi key hi post := by
  have hsorted : node.Sorted := h.sorted
  by_cases hfound : ∃ e ∈ node.entries, e.key = k
  · obtain ⟨e, hmem, rfl⟩ := hfound
    obtain ⟨pre, post, hsplit, hlen, hpost⟩ := Ascending.split_at hsorted hmem
    obtain ⟨child, hchild, htree, hfirst⟩ := Segmented.focus (hsplit ▸ h.2)
    have hfind : (bnodeFind node e.key).1 = some e :=
      (hsorted.bnodeFind_eq_some _ _).mpr ⟨hmem, rfl⟩
    have hindex : (bnodeFind node e.key).2 = pre.length := by
      rw [hlen]
      exact bnodeSearch_eq_lowerBound node e.key
    refine ⟨pre, e, post, child, hsplit, ?_, hchild, htree, hfirst,
      mem_segment hlo hhi (fun _ => le_rfl) hpost⟩
    simp [btreeNextChild, hfind, hchild, hindex]
  · push Not at hfound
    have hne : node.entries ≠ [] := h.2.ne_nil
    obtain ⟨pre, x, post, hsplit, hlen, hx, hpost⟩ := Ascending.split_before hsorted hne hfound
    obtain ⟨child, hchild, htree, hfirst⟩ := Segmented.focus (hsplit ▸ h.2)
    have hfind : (bnodeFind node k).1 = none := by
      cases hres : (bnodeFind node k).1 with
      | none => rfl
      | some e =>
        obtain ⟨hmem, hkey⟩ := (hsorted.bnodeFind_eq_some _ _).mp hres
        exact absurd hkey (hfound e hmem)
    have hindex : (bnodeFind node k).2 - 1 = pre.length := by
      rw [hlen]
      exact congrArg (· - 1) (bnodeSearch_eq_lowerBound node k)
    have hat : childBnodeAt load node pre.length = some (pre.length, child) := by
      simp [childBnodeAt, hsplit, hchild]
    refine ⟨pre, x, post, child, hsplit, ?_, hchild, htree, hfirst,
      mem_segment hlo hhi (fun hpre => (hx hpre).le) hpost⟩
    simp only [btreeNextChild, hfind, Option.bind_none]
    split
    · rename_i hzero
      rw [hzero] at hindex
      rw [← hat, ← hindex]
    · rw [hindex, hat]

theorem SearchTree.leafEntries_split {pre post : List BnodeEntry} {x : BnodeEntry}
    (hsplit : node.entries = pre ++ x :: post) (hchild : x.loadedBnode load = some child) :
    leafEntries load (n + 1) node = pre.flatMap (entryLeaves load n) ++
        (leafEntries load n child ++ post.flatMap (entryLeaves load n)) := by
  have hx : entryLeaves load n x = leafEntries load n child := by simp [entryLeaves, hchild]
  change node.entries.flatMap (entryLeaves load n) = _
  rw [hsplit, List.flatMap_append, List.flatMap_cons, hx]

/-! ### Lookup -/

theorem SearchTree.child_contents (e : BnodeEntry) (l : WithBot Chunk) (u : WithTop Chunk)
    (h : ChildTree load n (SearchTree load n) e l u) : Ascending key (entryLeaves load n e) ∧
      ∀ b ∈ entryLeaves load n e, l ≤ b.key ∧ (b.key : WithTop Chunk) < u := by
  obtain ⟨child, hload, htree, -⟩ := h
  simpa [entryLeaves, hload] using htree.leafEntries_ascending

theorem SearchTree.descend_leaf (h : SearchTree load 0 node lo hi) (k : Chunk) (fuel : Nat) :
    btreeDescendLoop load k fuel node = ([], node) := by
  cases fuel with
  | zero => rfl
  | succ fuel => simp [btreeDescendLoop, h.level_eq]

theorem SearchTree.descend_node (h : SearchTree load (n + 1) node lo hi) {index : Nat}
    (hnext : btreeNextChild load node k = some (index, child)) (fuel : Nat) :
    btreeDescendLoop load k (fuel + 1) node =
      (⟨node, index⟩ :: (btreeDescendLoop load k fuel child).1,
        (btreeDescendLoop load k fuel child).2) := by
  simp [btreeDescendLoop, h.level_eq, hnext]

theorem SearchTree.find_descend (h : SearchTree load n node lo hi) (hlo : lo ≤ k)
    (hhi : (k : WithTop Chunk) < hi) {fuel : Nat} (hfuel : n ≤ fuel) (e : BnodeEntry) :
    (bnodeFind (btreeDescendLoop load k fuel node).2 k).1 = some e ↔
      e ∈ leafEntries load n node ∧ e.key = k := by
  induction n generalizing node lo hi fuel with
  | zero =>
    rw [h.descend_leaf]
    exact h.sorted.bnodeFind_eq_some k e
  | succ n ih =>
    obtain ⟨pre, x, post, child, hsplit, hnext, hchild, htree, -, hklo, hkhi⟩ :=
      h.btreeNextChild_eq hlo hhi
    obtain ⟨fuel, rfl⟩ : ∃ m, fuel = m + 1 := ⟨fuel - 1, by omega⟩
    have hseg := h.2
    rw [hsplit] at hseg
    rw [h.descend_node hnext, ih htree hklo hkhi (by omega)]
    constructor
    · rintro ⟨hmem, hkey⟩
      refine ⟨?_, hkey⟩
      rw [leafEntries_split hsplit hchild]
      simp [hmem]
    · rintro ⟨hmem, rfl⟩
      refine ⟨?_, rfl⟩
      rw [leafEntries, hsplit] at hmem
      have hin := hseg.mem_contents_of_key child_contents hmem hklo hkhi
      simpa [entryLeaves, hchild] using hin

/-- A lookup returns exactly the entry with the key among the leaves. -/
theorem SearchTree.find_iff (h : SearchTree load n node ⊥ ⊤) (k : Chunk) (e : BnodeEntry) :
    bnodeFindLeafLazy load node k = some e ↔ e ∈ leafEntries load n node ∧ e.key = k :=
  h.find_descend bot_le (WithTop.coe_lt_top k) (by rw [h.level_eq]; omega) e

end Invariant

end WaveDB.HBTrie
