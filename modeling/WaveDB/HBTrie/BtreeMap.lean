import WaveDB.HBTrie.BtreeInsert
import WaveDB.HBTrie.Hbtrie

/-!
The B+tree of a trie node as a finite map from chunks to entries.

For a tree that satisfies the search-tree invariant, the three ways in which the
trie operations rebuild it act on lookups as expected: attaching loaded bnodes
changes nothing (`IsSearchTree.attach`), replacing an entry in its leaf changes that
key only (`IsSearchTree.update`), and inserting a new key adds that key only
(`IsSearchTree.insert`).
-/

namespace WaveDB.HBTrie

open WaveDB.Basis

section Context

variable {load : Loader} {n : Nat} {node : Bnode} {lo : WithBot Chunk} {hi : WithTop Chunk}

/-- The tree around the leaf a key leads to: any leaf that fits the same bounds
may take its place. -/
structure LeafContext (load : Loader) (n : Nat) (lo : WithBot Chunk) (hi : WithTop Chunk)
    (node : Bnode) (frames : List BtreeFrame) (leaf : Bnode) (k : Chunk) where
  l : WithBot Chunk
  u : WithTop Chunk
  before : List BnodeEntry
  after : List BnodeEntry
  leaf_tree : SearchTree load 0 leaf l u
  entries : leafEntries load n node = before ++ (leaf.entries ++ after)
  replace : ∀ leaf', SearchTree load 0 leaf' l u →
    SearchTree load n (zipUp frames leaf') lo hi ∧
      leafEntries load n (zipUp frames leaf') = before ++ (leaf'.entries ++ after) ∧
      (0 < n → (zipUp frames leaf').firstKey = node.firstKey)

theorem SearchTree.exists_context (h : SearchTree load n node lo hi) {k : Chunk} (hlo : lo ≤ k)
    (hhi : (k : WithTop Chunk) < hi) {fuel : Nat} (hfuel : n ≤ fuel) :
    Nonempty (LeafContext load n lo hi node (btreeDescendLoop load k fuel node).1
      (btreeDescendLoop load k fuel node).2 k) := by
  induction n generalizing node lo hi fuel with
  | zero =>
    rw [h.descend_leaf]
    exact ⟨⟨lo, hi, [], [], h, by simp [leafEntries], fun leaf' hleaf' =>
      ⟨hleaf', by simp [leafEntries, zipUp], fun h0 => absurd h0 (lt_irrefl 0)⟩⟩⟩
  | succ n ih =>
    obtain ⟨pre, x, post, child, hsplit, hnext, hchild, htree, hfirst, hklo, hkhi⟩ :=
      h.btreeNextChild_eq hlo hhi
    obtain ⟨fuel, rfl⟩ : ∃ m, fuel = m + 1 := ⟨fuel - 1, by omega⟩
    have hlevel := h.1
    have hseg := h.2
    rw [hsplit] at hseg
    obtain ⟨ctx⟩ := ih htree hklo hkhi (show n ≤ fuel by omega)
    rw [h.descend_node hnext]
    refine ⟨⟨ctx.l, ctx.u, pre.flatMap (entryLeaves load n) ++ ctx.before,
      ctx.after ++ post.flatMap (entryLeaves load n), ctx.leaf_tree, ?_, ?_⟩⟩
    · rw [leafEntries_split hsplit hchild, ctx.entries]
      simp only [List.append_assoc]
    · intro leaf' hleaf'
      obtain ⟨htree', hentries', hfirst'⟩ := ctx.replace leaf' hleaf'
      have hplug := BtreeFrame.plug_entries hsplit
        (zipUp (btreeDescendLoop load k fuel child).1 leaf')
      refine ⟨⟨hlevel, ?_⟩, ?_, fun _ => firstKey_eq_of_entries hsplit hplug rfl⟩
      · rw [zipUp, hplug]
        exact hseg.replace rfl ⟨_, rfl, htree', fun hn => (hfirst' hn).trans (hfirst hn)⟩
      · rw [zipUp, leafEntries_split hplug (BnodeEntry.loadedBnode_setChildBnode x _), hentries']
        simp only [List.append_assoc]

end Context

/-! ### Lookups after a rebuild -/

def IsSearchTree (load : Loader) (node : Bnode) : Prop := ∃ n, SearchTree load n node ⊥ ⊤

section Lookups

variable {load : Loader} {node : Bnode} {k : Chunk} {e : BnodeEntry}

theorem SearchTree.find_congr {m n : Nat} {node' : Bnode} (h' : SearchTree load m node' ⊥ ⊤)
    (h : SearchTree load n node ⊥ ⊤)
    (hmem : ∀ e, e.key = k → (e ∈ leafEntries load m node' ↔ e ∈ leafEntries load n node)) :
    bnodeFindLeafLazy load node' k = bnodeFindLeafLazy load node k := by
  refine Option.ext fun e => ?_
  rw [h'.find_iff, h.find_iff]
  constructor
  · rintro ⟨he, hk⟩
    exact ⟨(hmem e hk).mp he, hk⟩
  · rintro ⟨he, hk⟩
    exact ⟨(hmem e hk).mpr he, hk⟩

theorem bnodeFind_descend (load : Loader) (node : Bnode) (k : Chunk) :
    bnodeFind (btreeDescendWithPathLazy load node k).2 k =
      (bnodeFindLeafLazy load node k, bnodeSearch (btreeDescendWithPathLazy load node k).2 k) := rfl

theorem IsSearchTree.ensureBtreeLoaded_eq (h : IsSearchTree load node) (k : Chunk) :
    ensureBtreeLoaded load node k = some (btreeDescendWithPathLazy load node k) := by
  obtain ⟨n, h⟩ := h
  have hfuel : n ≤ node.level := by
    rw [h.level_eq]
    omega
  obtain ⟨ctx⟩ := h.exists_context bot_le (WithTop.coe_lt_top k) hfuel
  have hlevel : (btreeDescendWithPathLazy load node k).2.level = 1 := ctx.leaf_tree.level_eq
  simp [ensureBtreeLoaded, hlevel]

variable (h : IsSearchTree load node)

include h

theorem IsSearchTree.key_of_find (hfind : bnodeFindLeafLazy load node k = some e) : e.key = k := by
  obtain ⟨n, h⟩ := h
  exact ((h.find_iff k e).mp hfind).2

theorem IsSearchTree.attach (k : Chunk) :
    IsSearchTree load (zipUp (btreeDescendWithPathLazy load node k).1
        (btreeDescendWithPathLazy load node k).2) ∧
      ∀ k', bnodeFindLeafLazy load (zipUp (btreeDescendWithPathLazy load node k).1
        (btreeDescendWithPathLazy load node k).2) k' = bnodeFindLeafLazy load node k' := by
  obtain ⟨n, h⟩ := h
  obtain ⟨ctx⟩ := h.exists_context bot_le (WithTop.coe_lt_top k)
    (show n ≤ node.level by rw [h.level_eq]; omega)
  obtain ⟨htree, hentries, -⟩ := ctx.replace _ ctx.leaf_tree
  refine ⟨⟨n, htree⟩, fun k' => htree.find_congr h fun e _ => ?_⟩
  rw [hentries, ctx.entries]

/-- Replacing the entry found for a key changes the lookup of that key only. -/
theorem IsSearchTree.update {e' : BnodeEntry} {leaf' : Bnode}
    (hfind : bnodeFindLeafLazy load node k = some e) (hkey : e'.key = k)
    (hlevel : leaf'.level = (btreeDescendWithPathLazy load node k).2.level)
    (hleaf : leaf'.entries = (btreeDescendWithPathLazy load node k).2.entries.set (bnodeSearch
      (btreeDescendWithPathLazy load node k).2 k) e') :
    IsSearchTree load (zipUp (btreeDescendWithPathLazy load node k).1 leaf') ∧
      ∀ k', bnodeFindLeafLazy load (zipUp (btreeDescendWithPathLazy load node k).1 leaf') k' =
        if k' = k then some e' else bnodeFindLeafLazy load node k' := by
  obtain ⟨n, h⟩ := h
  obtain ⟨ctx⟩ := h.exists_context bot_le (WithTop.coe_lt_top k)
    (show n ≤ node.level by rw [h.level_eq]; omega)
  change LeafContext load n ⊥ ⊤ node (btreeDescendWithPathLazy load node k).1
    (btreeDescendWithPathLazy load node k).2 k at ctx
  set leaf := (btreeDescendWithPathLazy load node k).2 with hleafdef
  obtain ⟨hleaflevel, hsorted, hbounds⟩ := ctx.leaf_tree
  obtain ⟨hmem, rfl⟩ := (hsorted.bnodeFind_eq_some k e).mp hfind
  -- the leaf around the entry
  obtain ⟨pre, post, hsplit, hlen, -⟩ := Ascending.split_at hsorted hmem
  have hindex : bnodeSearch leaf e.key = pre.length := by
    rw [hlen, bnodeSearch_eq_lowerBound]
  have hentries' : leaf'.entries = pre ++ e' :: post := by
    rw [hleaf, hsplit, hindex]
    simp
  have hpair : Ascending BnodeEntry.key (pre ++ e :: post) := hsplit ▸ hsorted
  have hsorted' : Ascending BnodeEntry.key (pre ++ e' :: post) := by
    simpa [Ascending, List.pairwise_append, hkey] using hpair
  have htree' : SearchTree load 0 leaf' ctx.l ctx.u := by
    refine ⟨hlevel.trans hleaflevel, by rw [Bnode.Sorted, hentries']; exact hsorted', ?_⟩
    intro a ha
    rw [hentries', List.mem_append, List.mem_cons] at ha
    rcases ha with ha | rfl | ha
    · exact hbounds a (by rw [hsplit]; simp [ha])
    · rw [hkey]
      exact hbounds e hmem
    · exact hbounds a (by rw [hsplit]; simp [ha])
  obtain ⟨htree, hentries, -⟩ := ctx.replace leaf' htree'
  refine ⟨⟨n, htree⟩, fun k' => ?_⟩
  split
  · rename_i hk'
    rw [htree.find_iff, hentries, hentries', hk']
    exact ⟨by simp, hkey⟩
  · rename_i hk'
    refine htree.find_congr h fun a ha => ?_
    have hne : a ≠ e := fun hae => hk' (hae ▸ ha.symm)
    have hne' : a ≠ e' := fun hae => hk' (by rw [← ha, hae, hkey])
    rw [hentries, ctx.entries, hentries', hsplit]
    simp [hne, hne']

/-- Inserting a new key adds the lookup of that key only. -/
theorem IsSearchTree.insert {cfg : Config} {entry : BnodeEntry}
    (hnone : bnodeFindLeafLazy load node entry.key = none)
    (hsafe : splitsAboveSeparator cfg load node entry) :
    IsSearchTree load (btreeInsertAt cfg (btreeDescendWithPathLazy load node entry.key).1
        (btreeDescendWithPathLazy load node entry.key).2 entry) ∧ ∀ k', bnodeFindLeafLazy load
          (btreeInsertAt cfg (btreeDescendWithPathLazy load node entry.key).1
            (btreeDescendWithPathLazy load node entry.key).2 entry) k' =
        if k' = entry.key then some entry else bnodeFindLeafLazy load node k' := by
  obtain ⟨n, h⟩ := h
  have hnew : ∀ a ∈ leafEntries load n node, a.key ≠ entry.key := by
    intro a ha hkey
    rw [(h.find_iff entry.key a).mpr ⟨ha, hkey⟩] at hnone
    cases hnone
  obtain ⟨m, htree, hperm⟩ := h.btreeInsertAt hnew hsafe
  refine ⟨⟨m, htree⟩, fun k' => ?_⟩
  split
  · rename_i hk'
    rw [htree.find_iff, hk']
    exact ⟨hperm.mem_iff.mpr List.mem_cons_self, rfl⟩
  · rename_i hk'
    refine htree.find_congr h fun a ha => ?_
    have hne : a ≠ entry := fun hae => hk' (hae ▸ ha.symm)
    rw [hperm.mem_iff, List.mem_cons]
    simp [hne]

end Lookups

end WaveDB.HBTrie
