import WaveDB.HBTrie.NodeInvariant

/-!
The shape of bnodes.

Whatever is inserted and deleted, leaves stay sorted and internal nodes hold child bnodes
(`shaped_rule`). Whether separators bound their children is a different matter.
-/

namespace WaveDB.HBTrie

open WaveDB.Basis List

/-- Leaves are sorted and have no child bnodes; internal nodes have nothing else. -/
structure Shaped (node : Bnode) : Prop where
  positive : 1 ≤ node.level
  sorted : node.level ≤ 1 → node.Sorted
  leaf : node.level ≤ 1 → ∀ e ∈ node.entries, ∀ child, e.slot ≠ .childBnode child
  internal : 1 < node.level → ∀ e ∈ node.entries, ∃ child, e.slot = .childBnode child

variable {node : Bnode} {e : BnodeEntry}

theorem Shaped.insertNew {leaf : Bnode} {P : Content → Prop} (h : Shaped leaf)
    (hlevel : leaf.level ≤ 1) (hnew : (bnodeFind leaf e.key).1 = none) (he : LeafEntry P e) :
    Shaped (bnodeInsert leaf e) where
  positive := h.positive
  sorted _ := by
    have hsorted := h.sorted hlevel
    rw [Bnode.Sorted, bnodeInsert_entries, (Ascending.nondescending hsorted).insertIdx_lowerBound]
    refine Ascending.insert hsorted fun x hx hkey => ?_
    rw [(hsorted.bnodeFind_eq_some e.key x).mpr ⟨hx, hkey⟩] at hnew
    cases hnew
  leaf _ x hx := by
    rcases eq_or_mem_of_mem_insertIdx hx with rfl | hx
    · exact he.slot
    · exact h.leaf hlevel x hx
  internal hinternal := absurd hlevel (not_le.mpr hinternal)

theorem Shaped.of_internal (hlevel : 1 < node.level)
    (h : ∀ e ∈ node.entries, ∃ child, e.slot = .childBnode child) : Shaped node where
  positive := hlevel.le
  sorted hle := absurd hlevel (not_lt.mpr hle)
  leaf hle := absurd hlevel (not_lt.mpr hle)
  internal _ := h

theorem Shaped.insertChild (key : Chunk) (child : Bnode)
    (h : ∀ e ∈ node.entries, ∃ child, e.slot = .childBnode child) (hlevel : 1 < node.level) :
    Shaped (bnodeInsertBnodeChild node key child) := by
  refine of_internal hlevel fun e he => ?_
  rcases eq_or_mem_of_mem_insertIdx he with rfl | he
  · exact ⟨_, rfl⟩
  · exact h e he

theorem Shaped.split {result : SplitResult} (h : Shaped node)
    (hsplit : bnodeSplit node = some result) : Shaped result.left ∧ Shaped result.right := by
  obtain ⟨hleft, hright⟩ := mem_of_bnodeSplit hsplit
  have hlen : 4 ≤ node.entries.length := by
    by_contra hlt
    rw [bnodeSplit, if_pos (not_le.mp hlt)] at hsplit
    cases hsplit
  have hlevels := bnodeSplit_level hsplit
  by_cases hlevel : node.level ≤ 1
  · obtain ⟨pre, mid, post, hentries, -, -, heq⟩ := bnodeSplit_eq (h.sorted hlevel) hlen
    have hsorted := h.sorted hlevel
    rw [heq] at hsplit
    cases hsplit
    have hparts : (pre ++ mid :: post).Pairwise fun a b => a.key < b.key := hentries ▸ hsorted
    obtain ⟨hpre, hpost, -⟩ := pairwise_append.mp hparts
    constructor
    · exact ⟨h.positive, fun _ => hpre, fun _ e he => h.leaf hlevel e (hleft e he),
        fun hgt => absurd hlevel (not_le.mpr hgt)⟩
    · exact ⟨h.positive, fun _ => hpost, fun _ e he => h.leaf hlevel e (hright e he),
        fun hgt => absurd hlevel (not_le.mpr hgt)⟩
  · have hgt := not_le.mp hlevel
    exact ⟨of_internal (hlevels.1 ▸ hgt) fun e he => h.internal hgt e (hleft e he),
      of_internal (hlevels.2 ▸ hgt) fun e he => h.internal hgt e (hright e he)⟩

theorem Shaped.newRoot (split : PendingSplit) (h : Shaped node) : Shaped (newRoot node split) := by
  have hlevel : 1 < node.level + 1 := Nat.lt_succ_of_le h.positive
  unfold HBTrie.newRoot
  split
  · refine of_internal hlevel fun e he => ?_
    rcases eq_or_mem_of_mem_insertIdx he with rfl | he
    · exact ⟨_, rfl⟩
    · exact absurd he not_mem_nil
  · refine of_internal hlevel fun e he => ?_
    rcases eq_or_mem_of_mem_insertIdx he with rfl | he
    · exact ⟨_, rfl⟩
    · rcases eq_or_mem_of_mem_insertIdx he with rfl | he
      · exact ⟨_, rfl⟩
      · exact absurd he not_mem_nil

/-- Replacing an entry by one with its key keeps the keys. -/
theorem Bnode.setEntry_keys {index : Nat} {e' : BnodeEntry}
    (hindex : node.entries[index]? = some e) (hkey : e'.key = e.key) :
    (node.setEntry index e').entries.map BnodeEntry.key = node.entries.map BnodeEntry.key :=
  map_set_of_eq hindex hkey

/-- The shape is kept by every operation, whatever the contents. -/
theorem shaped_rule : EntryRule (fun _ => True) Shaped where
  create := ⟨le_rfl, fun _ => List.Pairwise.nil, fun _ _ he => absurd he not_mem_nil,
    fun _ _ he => absurd he not_mem_nil⟩
  contents _ _ _ := trivial
  markDirty h := ⟨h.positive, h.sorted, h.leaf, h.internal⟩
  plug {frame child} h hlevel := by
    refine Shaped.of_internal hlevel fun e he => ?_
    rcases BtreeFrame.mem_plug he with he | ⟨old, -, rfl⟩
    · exact h.internal hlevel e he
    · exact ⟨_, rfl⟩
  insertNew h hlevel hnew he := h.insertNew hlevel hnew he
  insertChild key child h hlevel := Shaped.insertChild key child (h.internal hlevel) hlevel
  split h hsplit := h.split hsplit
  newRoot split h := h.newRoot split
  setEntry {leaf key e e'} h hlevel hfind hkey he := by
    refine ⟨h.positive, fun _ => ?_, fun _ x hx => ?_, fun hgt => absurd hlevel (not_le.mpr hgt)⟩
    · have hpair := pairwise_map.mpr (h.sorted hlevel)
      rw [← Bnode.setEntry_keys (Option.filter_eq_some_iff.mp hfind).1 hkey] at hpair
      exact pairwise_map.mp hpair
    · rcases mem_or_eq_of_mem_set hx with hx | rfl
      · exact h.leaf hlevel x hx
      · exact he.slot

end WaveDB.HBTrie
