import WaveDB.Database.Iterator
import WaveDB.HBTrie.RecordedPaths

/-!
What scans visit.

`visits_next` and `visits_prev` say what a frame still has to visit before the frames below it:
the items of its node from its index on, in order, or up to its index, backwards. The chunks
collected on the way are those that lead to each item, since every frame below contributes the
chunk it went down from.
-/

namespace WaveDB.Database

open WaveDB.Basis HBTrie Workers List IteratorFrame BnodeEntry

def leafOf (i : StoredItem) : ScanLeaf := ⟨i.chunks, i⟩

section Chunks

variable {bnode : Bnode} {index : Nat} {e : BnodeEntry}

theorem keyChunk_toList (h : bnode.entries[index]? = some e) :
    (keyChunk bnode (some index)).toList = e.keyChunks := by
  rw [keyChunk, bnodeGet, Option.bind_some, h, keyChunks]
  cases hplain : e.isBnodeChild with
  | false | true => simp [Option.filter, hplain]

theorem passedChunks_cons (frame : IteratorFrame) (stack : List IteratorFrame) :
    passedChunks (frame :: stack) = passedChunks stack ++ frame.passedChunk.toList := by
  rw [passedChunks, reverse_cons, filterMap_append, ← passedChunks]
  cases h : frame.passedChunk with
  | none => simp [h]
  | some c => simp [h]

theorem descendedChunks_cons (frame : IteratorFrame) (stack : List IteratorFrame) :
    descendedChunks (frame :: stack) = descendedChunks stack ++ frame.descendedChunk.toList := by
  rw [descendedChunks, reverse_cons, filterMap_append, ← descendedChunks]
  cases h : frame.descendedChunk with
  | none => simp [h]
  | some c => simp [h]

end Chunks

/-! ### Forward -/

section Forward

variable {load : Loader} {depth : Nat} {bnode : Bnode} {above : List Chunk}
  {stack : List IteratorFrame} {rest : List ScanLeaf} {pending : Bool}

theorem passedChunks_advanced {index : Nat} {e : BnodeEntry}
    (h : bnode.entries[index]? = some e) (hstack : passedChunks stack = above) :
    passedChunks (⟨bnode, some (index + 1), pending, above⟩ :: stack) = above ++ e.keyChunks := by
  rw [passedChunks_cons, hstack]
  exact congrArg _ (keyChunk_toList h)

theorem visits_next_entries
    (hchild : ∀ e ∈ bnode.entries, ∀ child, e.loadedBelow load = some child →
      ∀ stack rest, passedChunks stack = above ++ e.keyChunks →
        Visits (scanNextMove load) stack rest →
        Visits (scanNextMove load) (newFrame child (above ++ e.keyChunks) :: stack)
          ((items load depth (above ++ e.keyChunks) child).map leafOf ++ rest))
    (hstack : passedChunks stack = above) (hrest : Visits (scanNextMove load) stack rest)
    (index : Nat) : Visits (scanNextMove load) (⟨bnode, some index, pending, above⟩ :: stack)
      (((bnode.entries.drop index).flatMap (entryItems load depth above)).map leafOf ++ rest) := by
  induction hdrop : bnode.entries.drop index generalizing index with
  | nil =>
    have hnone : bnode.entries[index]? = none := by
      rw [getElem?_eq_none_iff, ← drop_eq_nil_iff]
      exact hdrop
    refine .moved ?_ hrest
    simp [scanNextMove, bnodeGet, hnone]
  | cons e es ih =>
    have hget : bnode.entries[index]? = some e := by
      rw [← head?_drop, hdrop, head?_cons]
    have hnext : bnode.entries.drop (index + 1) = es := by
      rw [← tail_drop, hdrop, tail_cons]
    have hparent := ih (index + 1) hnext
    have hchunks : passedChunks (⟨bnode, some (index + 1), pending, above⟩ :: stack) =
        above ++ e.keyChunks := passedChunks_advanced hget hstack
    rw [flatMap_cons, map_append, append_assoc]
    -- What the pass leaves on the stack visits the items below the entry and then the rest.
    set frame : IteratorFrame := ⟨bnode, some index, pending, above⟩ with hframe
    set advanced : IteratorFrame := ⟨bnode, some (index + 1), pending, above⟩ with hadvanced
    set after := (es.flatMap (entryItems load depth above)).map leafOf ++ rest with hafter
    have hpushed : passedChunks ((frame.below load e).toList ++ advanced :: stack) =
          above ++ e.keyChunks ∧
        Visits (scanNextMove load) ((frame.below load e).toList ++ advanced :: stack)
          ((((e.loadedBelow load).map
            (items load depth (above ++ e.keyChunks))).getD []).map leafOf ++ after) := by
      rw [IteratorFrame.below]
      cases hbelow : e.loadedBelow load with
      | none => exact ⟨hchunks, hparent⟩
      | some child =>
        constructor
        · change passedChunks (newFrame child _ :: advanced :: stack) = _
          rw [passedChunks_cons, hchunks]
          exact append_nil _
        · exact hchild e (mem_of_getElem? hget) child hbelow _ _ hchunks hparent
    have hat : bnodeGet frame.bnode frame.entryIndex = some e := hget
    rw [entryItems, map_append, append_assoc]
    obtain ⟨hcollected, hvisits⟩ := hpushed
    cases hslot : e.slot with
    | child node | childBnode node =>
      rw [own, hslot]
      refine .moved ?_ hvisits
      rw [scanNextMove, hat]
      simp only [hslot]
      rfl
    | value content pathMeta node =>
      have hkey : e.keyChunks = [e.key] := by
        simp [keyChunks, isBnodeChild, hslot]
      rw [hkey] at hcollected
      rw [own, hslot]
      refine .visited ?_ hvisits
      rw [scanNextMove, hat]
      simp only [hslot]
      exact congrArg (fun chunks => Move.visited (ScanLeaf.mk _ ⟨chunks, _, _⟩) _) hcollected

theorem visits_next (h : Within load (depth + 1) bnode) (hstack : passedChunks stack = above)
    (hrest : Visits (scanNextMove load) stack rest) (index : Nat) :
    Visits (scanNextMove load) (⟨bnode, some index, pending, above⟩ :: stack)
      (((bnode.entries.drop index).flatMap (entryItems load depth above)).map leafOf ++ rest) := by
  induction depth generalizing bnode above stack rest pending index with
  | zero =>
    refine visits_next_entries ?_ hstack hrest index
    intro e he child hchild
    exact (h e he child hchild).elim
  | succ depth ih =>
    refine visits_next_entries ?_ hstack hrest index
    intro e he child hchild stack rest hstack hrest
    exact ih (h e he child hchild) hstack hrest 0

end Forward

/-! ### Backward -/

/-- Leaves whose chunks are read as `got` where `above` leads to them. -/
def ReadsAs (leaf : StoredItem → ScanLeaf) (above got : List Chunk) : Prop :=
  ∀ rest content pathMeta, leaf ⟨above ++ rest, content, pathMeta⟩ =
    ⟨above ++ rest, ⟨got ++ rest, content, pathMeta⟩⟩

theorem readsAs_leafOf (above : List Chunk) : ReadsAs leafOf above above := fun _ _ _ => rfl

theorem ReadsAs.append {leaf : StoredItem → ScanLeaf} {above got : List Chunk}
    (h : ReadsAs leaf above got) (more : List Chunk) :
    ReadsAs leaf (above ++ more) (got ++ more) := by
  intro rest content pathMeta
  rw [append_assoc, append_assoc]
  exact h _ _ _

section Backward

variable {load : Loader} {depth count : Nat} {bnode : Bnode} {above got : List Chunk}
  {stack : List IteratorFrame} {rest : List ScanLeaf} {index : Nat} {e : BnodeEntry}
  {leaf : StoredItem → ScanLeaf}

def belowReversed (leaf : StoredItem → ScanLeaf) (load : Loader) (depth : Nat)
    (above : List Chunk) (e : BnodeEntry) : List ScanLeaf :=
  ((((e.loadedBelow load).map (items load depth (above ++ e.keyChunks))).getD []).map leaf).reverse

def firstReversed (leaf : StoredItem → ScanLeaf) (load : Loader) (depth : Nat)
    (above : List Chunk) (bnode : Bnode) (count : Nat) : List ScanLeaf :=
  (((bnode.entries.take count).flatMap (entryItems load depth above)).map leaf).reverse

theorem firstReversed_succ (h : bnode.entries[index]? = some e) :
    firstReversed leaf load depth above bnode (index + 1) = belowReversed leaf load depth above e ++
        (((e.own above).map leaf).reverse ++ firstReversed leaf load depth above bnode index) := by
  rw [firstReversed, take_add_one, h, Option.toList_some, flatMap_append, flatMap_singleton,
    map_append, reverse_append, entryItems, map_append, reverse_append, append_assoc]
  rfl

/-- Child frames visit the items of their nodes backwards, whether they are placed at their last
entry or `seek_to_rightmost` still runs on them. -/
def ChildrenVisited (leaf : StoredItem → ScanLeaf) (load : Loader) (depth : Nat)
    (above got : List Chunk) (bnode : Bnode) : Prop :=
  ∀ e ∈ bnode.entries, ∀ child, e.loadedBelow load = some child → ∀ stack rest,
    descendedChunks stack = got ++ e.keyChunks →
    Visits (scanPrevMove load) ⟨false, stack⟩ rest →
    Visits (scanPrevMove load) ⟨true, newFrame child (above ++ e.keyChunks) :: stack⟩
        (belowReversed leaf load depth above e ++ rest) ∧
      Visits (scanPrevMove load) ⟨false, { newFrame child (above ++ e.keyChunks) with
          entryIndex := decrement child.entries.length } :: stack⟩
        (belowReversed leaf load depth above e ++ rest)

/-- A frame at the entry it went down from adds the chunk of that entry. -/
theorem descendedChunks_left (hget : bnode.entries[index]? = some e)
    (hstack : descendedChunks stack = got) :
    descendedChunks (⟨bnode, decrement index, false, above⟩ :: stack) = got ++ e.keyChunks := by
  have hindex : increment (decrement index) = index := by
    cases index with
    | zero => rfl
    | succ index => rfl
  rw [descendedChunks_cons, hstack, ← keyChunk_toList hget]
  change _ ++ (keyChunk bnode (some (increment (decrement index)))).toList = _
  rw [hindex]

theorem descendedChunks_pending (hget : bnode.entries[index]? = some e)
    (hstack : descendedChunks stack = got) :
    descendedChunks (⟨bnode, some index, true, above⟩ :: stack) = got ++ e.keyChunks := by
  rw [descendedChunks_cons, hstack, ← keyChunk_toList hget]
  rfl

/-- A value is visited at once if it has no subtree or the subtree is behind. -/
theorem visits_prev_value {content : Content} {pathMeta : List PathSubscriptMeta}
    {node : Option HbtrieNode} {pending : Bool} (hleaf : ReadsAs leaf above got)
    (hget : bnode.entries[index]? = some e) (hslot : e.slot = .value content pathMeta node)
    (hstack : descendedChunks stack = got) (hbelow : pending ∨ e.loadedBelow load = none)
    (hrest : Visits (scanPrevMove load) ⟨false, ⟨bnode, decrement index, false, above⟩ :: stack⟩
      rest) : Visits (scanPrevMove load) ⟨false, ⟨bnode, some index, pending, above⟩ :: stack⟩
      (((e.own above).map leaf).reverse ++ rest) := by
  have hkey : e.keyChunks = [e.key] := by
    simp [keyChunks, isBnodeChild, hslot]
  have hfilter : (below load ⟨bnode, some index, pending, above⟩ e).filter
      (fun _ => !pending) = none := by
    rcases hbelow with rfl | hnone
    · exact Option.filter_eq_none_iff.mpr fun _ _ => by simp
    · simp [IteratorFrame.below, hnone]
  rw [own, hslot]
  refine .visited ?_ hrest
  rw [hleaf]
  simp only [scanPrevMove, hget, scanPrevEntry, hslot, hfilter, hstack, keyChunk_toList hget, hkey]

section Leaf

variable (hleaf : ReadsAs leaf above got) (hchild : ChildrenVisited leaf load depth above got bnode)
  (hstack : descendedChunks stack = got) (hrest : Visits (scanPrevMove load) ⟨false, stack⟩ rest)

include hleaf hchild hstack hrest

/-- The first entries of a node, backwards from an index. -/
theorem visits_prev_entries (hcount : count ≤ bnode.entries.length) :
    Visits (scanPrevMove load) ⟨false, ⟨bnode, decrement count, false, above⟩ :: stack⟩
      (firstReversed leaf load depth above bnode count ++ rest) := by
  induction count with
  | zero => exact .moved rfl hrest
  | succ index ih =>
    obtain ⟨e, hget⟩ : ∃ e, bnode.entries[index]? = some e := ⟨_, getElem?_eq_getElem (by omega)⟩
    have hleft := ih (by omega)
    rw [firstReversed_succ hget, append_assoc, append_assoc]
    cases hbelow : e.loadedBelow load with
    | none =>
      rw [belowReversed, hbelow]
      cases hslot : e.slot with
      | value content pathMeta node =>
        exact visits_prev_value hleaf hget hslot hstack (.inr hbelow) hleft
      | childBnode node | child node =>
        rw [BnodeEntry.own, hslot]
        refine .moved ?_ hleft
        simp [scanPrevMove, decrement, hget, scanPrevEntry, hslot, IteratorFrame.below, hbelow]
    | some child =>
      have hdown := hchild e (mem_of_getElem? hget) child hbelow
      cases hslot : e.slot with
      | value content pathMeta node =>
        have hpending := visits_prev_value hleaf hget hslot hstack (.inl rfl) hleft
        refine .moved ?_ (hdown _ _ (descendedChunks_pending hget hstack) hpending).1
        simp [scanPrevMove, decrement, hget, scanPrevEntry, hslot, IteratorFrame.below,
          hbelow, Option.filter]
      | childBnode node =>
        rw [BnodeEntry.own, hslot]
        refine .moved ?_ (hdown _ _ (descendedChunks_left hget hstack) hleft).2
        simp [scanPrevMove, decrement, hget, scanPrevEntry, hslot, IteratorFrame.below,
          hbelow, newFrame]
      | child node =>
        rw [BnodeEntry.own, hslot]
        refine .moved ?_ (hdown _ _ (descendedChunks_left hget hstack) hleft).1
        simp [scanPrevMove, decrement, hget, scanPrevEntry, hslot, IteratorFrame.below, hbelow]

/-- A frame on which `seek_to_rightmost` runs visits all items of its node. -/
theorem visits_prev_seeking (start : Option Nat) :
    Visits (scanPrevMove load) ⟨true, ⟨bnode, start, false, above⟩ :: stack⟩
      (firstReversed leaf load depth above bnode bnode.entries.length ++ rest) := by
  cases hlast : bnode.entries.getLast? with
  | none =>
    have hnil : bnode.entries = [] := getLast?_eq_none_iff.mp hlast
    have hpop : Visits (scanPrevMove load) ⟨false, ⟨bnode, start, false, above⟩ :: stack⟩
        rest := by
      refine .moved ?_ hrest
      cases start with
      | none => rfl
      | some index => simp [scanPrevMove, hnil]
    rw [firstReversed, hnil]
    refine .moved ?_ hpop
    simp [scanPrevMove, seekToRightmostMove, hlast]
  | some e =>
    have hne : bnode.entries ≠ [] := fun hnil => by simp [hnil] at hlast
    obtain ⟨index, hlength⟩ : ∃ index, bnode.entries.length = index + 1 :=
      Nat.exists_eq_succ_of_ne_zero (by simpa using hne)
    have hget : bnode.entries[index]? = some e := by
      rw [getLast?_eq_getElem?, hlength] at hlast
      exact hlast
    have hmem := mem_of_getElem? hget
    have hleft := visits_prev_entries hleaf hchild hstack hrest (show index ≤ _ by omega)
    cases hbelow : e.loadedBelow load with
    | none =>
      refine .moved ?_ (visits_prev_entries hleaf hchild hstack hrest (le_refl _))
      simp [scanPrevMove, seekToRightmostMove, hlast, IteratorFrame.below, hbelow, hlength,
        decrement]
    | some child =>
      rw [hlength, firstReversed_succ hget, append_assoc, append_assoc]
      cases hslot : e.slot with
      | value content pathMeta node =>
        have hpending := visits_prev_value hleaf hget hslot hstack (.inl rfl) hleft
        refine .moved ?_ (hchild e hmem child hbelow _ _
          (descendedChunks_pending hget hstack) hpending).1
        simp [scanPrevMove, seekToRightmostMove, hlast, IteratorFrame.below, hbelow, hlength, hslot]
      | childBnode node | child node =>
        have hown : e.own above = [] := by rw [BnodeEntry.own, hslot]
        rw [hown]
        refine .moved ?_ (hchild e hmem child hbelow _ _ (descendedChunks_left hget hstack) hleft).1
        simp [scanPrevMove, seekToRightmostMove, hlast, IteratorFrame.below, hbelow, hlength, hslot]

end Leaf

theorem belowReversed_eq {child : Bnode} (hbelow : e.loadedBelow load = some child) :
    belowReversed leaf load (depth + 1) above e =
      firstReversed leaf load depth (above ++ e.keyChunks) child child.entries.length := by
  rw [belowReversed, hbelow, firstReversed, take_length]
  rfl

theorem childrenVisited (hleaf : ReadsAs leaf above got) (h : Within load (depth + 1) bnode) :
    ChildrenVisited leaf load depth above got bnode := by
  induction depth generalizing bnode above got with
  | zero =>
    intro e he child hchild
    exact (h e he child hchild).elim
  | succ depth ih =>
    intro e he child hbelow stack rest hstack hrest
    have hchild :
        ChildrenVisited leaf load depth (above ++ e.keyChunks) (got ++ e.keyChunks) child :=
      ih (hleaf.append _) (h e he child hbelow)
    rw [belowReversed_eq hbelow]
    exact ⟨visits_prev_seeking (hleaf.append _) hchild hstack hrest _,
      visits_prev_entries (hleaf.append _) hchild hstack hrest (le_refl _)⟩

/-- A frame visits the items of the entries before its index, backwards. -/
theorem visits_prev (hleaf : ReadsAs leaf above got) (h : Within load (depth + 1) bnode)
    (hstack : descendedChunks stack = got) (hrest : Visits (scanPrevMove load) ⟨false, stack⟩ rest)
    (hcount : count ≤ bnode.entries.length) :
    Visits (scanPrevMove load) ⟨false, ⟨bnode, decrement count, false, above⟩ :: stack⟩
      (firstReversed leaf load depth above bnode count ++ rest) :=
  visits_prev_entries hleaf (childrenVisited hleaf h) hstack hrest hcount

end Backward

/-! ### The whole trie -/

section Whole

variable {load : Loader} {depth : Nat} {bnode : Bnode}

theorem visits_all (h : Within load depth bnode) :
    Visits (scanNextMove load) [newFrame bnode []] ((items load depth [] bnode).map leafOf) := by
  cases depth with
  | zero => exact h.elim
  | succ depth =>
    have hvisits : Visits (scanNextMove load) [newFrame bnode []]
        ((bnode.entries.flatMap (entryItems load depth [])).map leafOf ++ []) :=
      visits_next h (show passedChunks [] = [] from rfl) (.finished rfl) 0
    rwa [append_nil] at hvisits

theorem visits_all_reverse (h : Within load depth bnode) :
    Visits (scanPrevMove load) ⟨true, [newFrame bnode []]⟩
      ((items load depth [] bnode).map leafOf).reverse := by
  cases depth with
  | zero => exact h.elim
  | succ depth =>
    have hvisits : Visits (scanPrevMove load) ⟨true, [newFrame bnode []]⟩
        (firstReversed leafOf load depth [] bnode bnode.entries.length ++ []) :=
      visits_prev_seeking (readsAs_leafOf []) (childrenVisited (readsAs_leafOf []) h)
        (show descendedChunks [] = [] from rfl) (.finished rfl) (some 0)
    rw [append_nil, firstReversed, take_length] at hvisits
    exact hvisits

end Whole

/-! ### With the bounds -/

section Judged

variable {cs : ChunkSize} {load : Loader} {iter : DatabaseIterator} {leaves : List ScanLeaf}

theorem visits_scanNext (hseeking : iter.position.seeking = false)
    (h : Visits (scanNextMove load) iter.position.stack leaves) :
    Visits (databaseScanNextMove cs load) iter (sift (judgeNext cs iter) leaves) := by
  obtain ⟨startPath, endPath, readTxnId, prefixSkip, ⟨seeking, stack⟩⟩ := iter
  obtain rfl : seeking = false := hseeking
  have hstep : ∀ stack, databaseScanNextMove cs load
      ⟨startPath, endPath, readTxnId, prefixSkip, ⟨false, stack⟩⟩ =
        (scanNextMove load stack).judged
          (judgeNext cs ⟨startPath, endPath, readTxnId, prefixSkip, ⟨false, []⟩⟩)
          fun stack => ⟨startPath, endPath, readTxnId, prefixSkip, ⟨false, stack⟩⟩ :=
    fun _ => rfl
  exact h.sift hstep

theorem visits_scanPrev (h : Visits (scanPrevMove load) iter.position leaves) :
    Visits (databaseScanPrevMove cs load) iter (sift (judgePrev cs iter) leaves) := by
  obtain ⟨startPath, endPath, readTxnId, prefixSkip, position⟩ := iter
  have hstep : ∀ position, databaseScanPrevMove cs load
      ⟨startPath, endPath, readTxnId, prefixSkip, position⟩ =
        (scanPrevMove load position).judged
          (judgePrev cs ⟨startPath, endPath, readTxnId, prefixSkip, ⟨false, []⟩⟩)
          fun position => ⟨startPath, endPath, readTxnId, prefixSkip, position⟩ :=
    fun _ => rfl
  exact h.sift hstep

end Judged

end WaveDB.Database
