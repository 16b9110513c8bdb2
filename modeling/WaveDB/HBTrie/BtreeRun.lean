import WaveDB.HBTrie.BtreeMap

/-!
Runs of insertions into the B+tree of one `hbtrie_node`, from a single empty leaf.

`btreeRun_loses_keys`: a split of the leftmost leaf below its separator puts the right
half before the left one.
-/

namespace WaveDB.HBTrie

open WaveDB.Basis Workers List

/-- The root after inserting the entries in order, as `hbtrie_insert` does for new
keys, without a page file. -/
def btreeRun (cfg : Config) (inserted : List BnodeEntry) : Bnode :=
  inserted.foldl (btreeInsert cfg noLoader) (bnodeCreateWithLevel 1)

def treeLeaves (root : Bnode) : List BnodeEntry := leafEntries noLoader (root.level - 1) root

/-- Every inserted key leads to its own entry, and the leaves list exactly the
inserted entries in strictly ascending key order. -/
structure SearchCorrect (root : Bnode) (inserted : List BnodeEntry) : Prop where
  own_entry : ∀ e ∈ inserted, (bnodeFind (bnodeDescend root e.key) e.key).1 = some e
  ascending : Ascending BnodeEntry.key (treeLeaves root)
  contents : (treeLeaves root).Perm inserted

theorem SearchTree.searchCorrect {n : Nat} {root : Bnode} {inserted : List BnodeEntry}
    (h : SearchTree noLoader n root ⊥ ⊤) (hperm : (leafEntries noLoader n root).Perm inserted) :
    SearchCorrect root inserted := by
  have hleaves : treeLeaves root = leafEntries noLoader n root := by
    rw [treeLeaves, h.level_eq, Nat.add_sub_cancel]
  refine ⟨?_, ?_, hleaves ▸ hperm⟩
  · intro e he
    exact (h.find_iff _ e).mpr ⟨hperm.mem_iff.mpr he, rfl⟩
  · rw [hleaves]
    exact h.leafEntries_ascending.1

/-- One step of a run: a new key that splits above the separator keeps the
invariant and joins the leaves. -/
theorem SearchTree.run_step {cfg : Config} {n : Nat} {inserted : List BnodeEntry}
    {entry : BnodeEntry} (h : SearchTree noLoader n (btreeRun cfg inserted) ⊥ ⊤)
    (hperm : (leafEntries noLoader n (btreeRun cfg inserted)).Perm inserted)
    (hnew : ∀ a ∈ inserted, a.key ≠ entry.key)
    (hsafe : splitsAboveSeparator cfg noLoader (btreeRun cfg inserted) entry) :
    ∃ m, SearchTree noLoader m (btreeRun cfg (inserted ++ [entry])) ⊥ ⊤ ∧
      (leafEntries noLoader m (btreeRun cfg (inserted ++ [entry]))).Perm (inserted ++ [entry]) := by
  have hrun : btreeRun cfg (inserted ++ [entry]) =
      btreeInsert cfg noLoader (btreeRun cfg inserted) entry := by
    simp [btreeRun]
  obtain ⟨m, htree, hcontents⟩ := h.btreeInsertAt (fun a ha => hnew a (hperm.mem_iff.mp ha)) hsafe
  rw [hrun, btreeInsert, IsSearchTree.ensureBtreeLoaded_eq ⟨n, h⟩]
  refine ⟨m, htree, hcontents.trans ?_⟩
  exact (hperm.cons entry).trans (perm_append_singleton entry inserted).symm

/-- In every run of insertions of distinct keys that all split above the separator,
the search is correct in every state reached. -/
theorem btreeRun_searchCorrect (cfg : Config) (entries : List BnodeEntry)
    (hdistinct : (entries.map BnodeEntry.key).Nodup)
    (hsafe : ∀ i, (h : i < entries.length) →
      splitsAboveSeparator cfg noLoader (btreeRun cfg (entries.take i)) entries[i] = true) :
    ∀ i, SearchCorrect (btreeRun cfg (entries.take i)) (entries.take i) := by
  have hinv : ∀ i, ∃ n, SearchTree noLoader n (btreeRun cfg (entries.take i)) ⊥ ⊤ ∧
      (leafEntries noLoader n (btreeRun cfg (entries.take i))).Perm (entries.take i) := by
    intro i
    induction i with
    | zero => exact ⟨0, ⟨rfl, .nil, by simp [btreeRun, bnodeCreateWithLevel]⟩, .refl _⟩
    | succ i ih =>
      obtain ⟨n, htree, hperm⟩ := ih
      by_cases hi : i < entries.length
      · have hnew : ∀ a ∈ entries.take i, a.key ≠ entries[i].key := by
          intro a ha hkey
          have hcut : entries = entries.take i ++ entries[i] :: entries.drop (i + 1) := by
            rw [← drop_eq_getElem_cons hi, take_append_drop]
          rw [hcut, map_append, nodup_append] at hdistinct
          exact hdistinct.2.2 a.key (mem_map_of_mem ha) entries[i].key
            (mem_map_of_mem mem_cons_self) hkey
        rw [take_succ_eq_append_getElem hi]
        exact htree.run_step hperm hnew (hsafe i hi)
      · rw [take_of_length_le (by omega)] at hperm htree ⊢
        exact ⟨n, htree, hperm⟩
  intro i
  obtain ⟨n, htree, hperm⟩ := hinv i
  exact htree.searchCorrect hperm

/-! ### Runs on one-byte keys -/

def byteChunk (b : UInt8) : Chunk := ⟨[b], by simp, by simp⟩

def byteEntry (b : UInt8) : BnodeEntry :=
  { key := byteChunk b, slot := .value (.legacy [b] ⟨0, 0, 0⟩) [] none, childDiskOffset := 0 }

def smallNodes : Config :=
  { chunkSize := ⟨1, by decide, by decide⟩, nodeSize := 64
    sizeofBnode := 112, sizeofBnodeEntry := 96, sizeofChunk := 16 }

def keysAboveSeparator : List BnodeEntry :=
  [byteEntry 10, byteEntry 20, byteEntry 30, byteEntry 40, byteEntry 15, byteEntry 17]

theorem btreeRun_searchCorrect_ascending :
    SearchCorrect (btreeRun smallNodes keysAboveSeparator) keysAboveSeparator :=
  btreeRun_searchCorrect smallNodes keysAboveSeparator (by decide) (by decide) 6

def keysBelowSeparator : List BnodeEntry :=
  [byteEntry 10, byteEntry 20, byteEntry 30, byteEntry 40, byteEntry 5, byteEntry 4]

/-- The split of the leaf `4 5 10 20` under separator 10 hides its left half. -/
theorem btreeRun_loses_keys : (keysBelowSeparator.map BnodeEntry.key).Nodup ∧
      (keysBelowSeparator.map fun e => e.key.size) = [1, 1, 1, 1, 1, 1] ∧
      ¬ SearchCorrect (btreeRun smallNodes keysBelowSeparator) keysBelowSeparator := by
  refine ⟨by decide, by decide, ?_⟩
  intro h
  have hlost : (bnodeFind (bnodeDescend (btreeRun smallNodes keysBelowSeparator)
      (byteEntry 4).key) (byteEntry 4).key).1.isNone = true := by decide
  rw [h.own_entry (byteEntry 4) (by simp [keysBelowSeparator])] at hlost
  cases hlost

end WaveDB.HBTrie
