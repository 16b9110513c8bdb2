import WaveDB.HBTrie.NodeInvariant
import WaveDB.HBTrie.ReadSim

/-!
A trie in memory over its page file.

A loaded bnode is saved when the page under the `child_disk_offset` of the entry above it has its
level, keys, contents and child offsets. A modified bnode is not, and neither is one that a flush
wrote without the offset of a child: `bnode_serialize_entries_v3` leaves out the child of a value
that is not loaded. `reloads_sim` is the main result: a subtree that is saved all the way down
answers every lookup like the page file's copy of it, so it can be dropped and loaded again.
-/

namespace WaveDB.HBTrie

/-! ### The page file -/

def Bnode.Bare (node : Bnode) : Prop := ∀ e ∈ node.entries, e.bnodeBelow = none

variable (load : Loader)

/-- What is read from the page file comes without children. -/
def BarePages : Prop := ∀ offset node, load offset = some node → node.Bare

def Saved (offset : Nat) (node : Bnode) : Prop :=
  offset ≠ 0 ∧ ∃ page, load offset = some page ∧ page.stored = node.stored

/-- The children in memory are those of the page file. For a new child that has no entries yet
nothing is on disk. -/
structure EntrySaved (load : Loader) (e : BnodeEntry) : Prop where
  inner : ∀ child, e.slot = .childBnode (some child) → Saved load e.childDiskOffset child
  under : ∀ next, e.trieNode = some next → Saved load e.childDiskOffset next.btree ∨
    next.btree.Vacant ∧ hbtrieLoadChildNode load e.childDiskOffset = none

def NodeSaved (node : Bnode) : Prop := ∀ e ∈ node.entries, EntrySaved load e

/-- The children of the entry are saved, and all that is in memory below them. -/
structure BnodeEntry.SavedDown (load : Loader) (e : BnodeEntry) : Prop where
  self : EntrySaved load e
  below : e.Below (NodeSaved load)

/-! ### Stored forms -/

/-- A node without children in memory has nothing below it. -/
theorem Bnode.Bare.everywhere {Q : Bnode → Prop} {node : Bnode} (h : node.Bare) (hself : Q node) :
    node.Everywhere Q := by
  refine everywhere_iff.mpr ⟨hself, fun e he => ⟨fun child hslot => ?_, fun next hnode => ?_⟩⟩
  · have hnone := h e he
    rw [BnodeEntry.bnodeBelow_childBnode hslot] at hnone
    cases hnone
  · have hnone := h e he
    rw [BnodeEntry.bnodeBelow_trieNode hnode] at hnone
    cases hnone

/-! ### Dropping a saved subtree -/

section Reload

variable {load : Loader} {R : Bnode → Bnode → Prop}

theorem SubtrieSim.refl (hrefl : ∀ node, R node node) (next : Option HbtrieNode) :
    SubtrieSim R next next := by
  cases next with
  | none => exact .neither
  | some next => exact .both (hrefl _)

theorem EntrySim.refl (hrefl : ∀ node, R node node) (e : BnodeEntry) :
    EntrySim load load R e e := by
  refine ⟨rfl, ?_, SubtrieSim.refl hrefl _⟩
  cases e.loadedBnode load with
  | none => exact .none
  | some child => exact .some (hrefl child)

/-- An entry without its children reads like the one with them, if they are saved. -/
theorem BnodeEntry.SavedDown.sim (hpages : BarePages load) (hrefl : ∀ node, R node node)
    (hreload : ∀ page node : Bnode, page.stored = node.stored → page.Bare →
      node.Everywhere (NodeSaved load) → R page node)
    {e e' : BnodeEntry} (hstored : e.stored = e'.stored) (hbare : e.bnodeBelow = none)
    (h : e'.SavedDown load) : EntrySim load load R e e' := by
  obtain ⟨hentry, hbelow⟩ := h
  have hunder : ∀ next : HbtrieNode, e'.trieNode = some next →
      SubtrieSim R (hbtrieLoadChildNode load e'.childDiskOffset) (some next) := by
    intro next hnext
    rcases hentry.under next hnext with hsaved | ⟨hvacant, hnone⟩
    · obtain ⟨hoffset, page, hload, hpage⟩ := hsaved
      rw [hbtrieLoadChildNode, if_pos hoffset, hload]
      exact .both (hreload page _ hpage (hpages _ _ hload) (hbelow.under next hnext))
    · rw [hnone]
      exact .right hvacant
  obtain ⟨key, slot, offset⟩ := e
  obtain ⟨key', slot', offset'⟩ := e'
  obtain ⟨rfl, hslot, rfl⟩ : key = key' ∧ slot.stored = slot'.stored ∧ offset = offset' := by
    simpa [BnodeEntry.stored] using hstored
  cases slot with
  | child node =>
    obtain rfl : node = none := Option.map_eq_none_iff.mp hbare
    cases slot' with
    | child node' =>
      refine ⟨rfl, .none, ?_⟩
      cases node' with
      | none => exact SubtrieSim.refl hrefl _
      | some next => exact hunder next rfl
    | childBnode node' | value content' meta' node' => cases hslot
  | childBnode node =>
    obtain rfl : node = none := hbare
    cases slot' with
    | child node' | value content' meta' node' => cases hslot
    | childBnode node' =>
      refine ⟨rfl, ?_, SubtrieSim.refl hrefl _⟩
      cases node' with
      | none => exact (EntrySim.refl hrefl _).inner
      | some child =>
        obtain ⟨hoffset, page, hload, hpage⟩ := hentry.inner child rfl
        simp only [BnodeEntry.loadedBnode, if_pos hoffset, hload]
        exact .some (hreload page _ hpage (hpages _ _ hload) (hbelow.inner child rfl))
  | value content pathMeta node =>
    obtain rfl : node = none := Option.map_eq_none_iff.mp hbare
    cases slot' with
    | child node' | childBnode node' => cases hslot
    | value content' meta' node' =>
      have hcontent : content.stored = content'.stored := by
        simpa [Slot.stored] using hslot
      refine ⟨congrArg some hcontent, .none, ?_⟩
      cases node' with
      | none => exact SubtrieSim.refl hrefl _
      | some next => exact hunder next rfl

/-- The same node, or the page file's copy of a saved subtree. -/
def Reloads (load : Loader) (page node : Bnode) : Prop :=
  page = node ∨ page.stored = node.stored ∧ page.Bare ∧ node.Everywhere (NodeSaved load)

/-- A saved subtree reads like the page file's copy of it. -/
theorem reloads_sim (hpages : BarePages load) : ReadSim load load (Reloads load) where
  level := by
    rintro page node (rfl | ⟨hstored, -⟩)
    · rfl
    · exact (Bnode.stored_eq_iff.mp hstored).1
  keys := by
    rintro page node (rfl | ⟨hstored, -⟩)
    · rfl
    · exact Bnode.keys_of_stored_eq hstored
  entry := by
    rintro page node i e e' (rfl | ⟨hstored, hbare, hsaved⟩) he he'
    · obtain rfl : e = e' := Option.some.inj (he.symm.trans he')
      exact EntrySim.refl (fun _ => .inl rfl) e
    · have hpair := congrArg (·[i]?) (Bnode.stored_eq_iff.mp hstored).2
      simp only [List.getElem?_map, he, he', Option.map_some, Option.some.injEq] at hpair
      have hmem' := List.mem_of_getElem? he'
      exact BnodeEntry.SavedDown.sim hpages (fun _ => .inl rfl)
        (fun _ _ hstored hbare hbelow => .inr ⟨hstored, hbare, hbelow⟩) hpair
        (hbare e (List.mem_of_getElem? he)) ⟨hsaved _ .self e' hmem', hsaved.below hmem'⟩

end Reload

end WaveDB.HBTrie
