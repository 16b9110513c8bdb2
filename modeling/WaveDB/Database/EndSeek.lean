import WaveDB.Database.StartSeek

/-!
The seek of bounded reverse scans.

`seek_to_end_path` follows the chunks of the end path as `seek_to_start_path` does, but it goes
on from the entry before a chunk that is missing, and through the last separators before the
chunk (`seekEndChunk_spec` for one chunk). What it leaves on the stack visits, backwards, the
keys of `endPasses`. Where it finds no entry to go on from it gives up (`endBails`); the root
frame may then still be marked as one whose value is pending (`endStale`).
-/

namespace WaveDB.Database

open WaveDB.Basis HBTrie Workers List Option Bool BnodeEntry

/-! ### One chunk of the seek -/

def endLeaf (load : Loader) (c : Chunk) : Nat → Bnode → Option Bnode
  | 0, bnode => some bnode
  | fuel + 1, bnode =>
    if 1 < bnode.level then
      ((decrement (bnodeFind bnode c).2).bind (childBnodeAt load bnode)).bind fun found =>
        endLeaf load c fuel found.2
    else some bnode

/-- The index in the leaf that the seek goes on from: the match, unless the chunk is the last
one, or else the entry before. -/
def endIndex (leaf : Bnode) (c : Chunk) (isLast : Bool) : Option Nat :=
  if !isLast && (bnodeFind leaf c).1.isSome then some (bnodeFind leaf c).2
  else decrement (bnodeFind leaf c).2

def endEntry (load : Loader) (c : Chunk) (isLast : Bool) (fuel : Nat) (bnode : Bnode) :
    Option BnodeEntry :=
  (endLeaf load c fuel bnode).bind fun leaf => bnodeGet leaf (endIndex leaf c isLast)

theorem endLeaf_of_leaf {load : Loader} {bnode : Bnode} {c : Chunk} {fuel : Nat}
    (h : bnode.level ≤ 1) : endLeaf load c fuel bnode = some bnode := by
  cases fuel with
  | zero => rfl
  | succ fuel => simp [endLeaf, h.not_gt]

def resetBottom (stack : List IteratorFrame) : List IteratorFrame :=
  (stack.getLast?.map fun frame => { frame with entryIndex := some 0 }).toList

theorem resetBottom_cons (frame : IteratorFrame) {stack : List IteratorFrame} (h : stack ≠ []) :
    resetBottom (frame :: stack) = resetBottom stack := by
  rw [resetBottom, getLast?_cons_of_ne_nil h]
  rfl

theorem resetBottom_index {bnode : Bnode} {pending : Bool} {above : List Chunk}
    {stack : List IteratorFrame} (index index' : Option Nat) :
    resetBottom (⟨bnode, index, pending, above⟩ :: stack) =
      resetBottom (⟨bnode, index', pending, above⟩ :: stack) := by
  cases stack with
  | nil => rfl
  | cons top stack => rfl

def reversedItems (load : Loader) (below : Nat) (above : List Chunk) (es : List BnodeEntry) :
    List ScanLeaf :=
  ((es.flatMap (entryItems load below above)).map leafOf).reverse

theorem reversedItems_append {load : Loader} {below : Nat} {above : List Chunk}
    (es es' : List BnodeEntry) : reversedItems load below above (es ++ es') =
      reversedItems load below above es' ++ reversedItems load below above es := by
  rw [reversedItems, flatMap_append, map_append, reverse_append]
  rfl

def lastFrame (node : HbtrieNode) (above : List Chunk) : IteratorFrame :=
  { newFrame node.btree above with entryIndex := decrement node.btree.entries.length }

/-- How the seek leaves one chunk: with all items up to the entry it goes on from, or below that
entry with its value still to come. -/
structure EndReach (load : Loader) (below : Nat) (above : List Chunk)
    (bottom : Bool → List IteratorFrame) (rest : List ScanLeaf) (isLast : Bool)
    (lower : List BnodeEntry) (t : BnodeEntry) (move : SeekMove) : Prop where
  positioned : isLast = true ∨ t.loadedTrieNode load = none →
    ∃ stack, move = .positioned stack ∧ Visits (scanPrevMove load) ⟨false, stack⟩
      (reversedItems load below above (lower ++ [t]) ++ rest)
  descended : isLast = false → ∀ next, t.loadedTrieNode load = some next →
    ∃ stack, move = .descended (lastFrame next (above ++ [t.key])) stack ∧ stack ≠ [] ∧
      descendedChunks stack = above ++ [t.key] ∧
      resetBottom stack = bottom t.storedValue.isSome ∧
      Visits (scanPrevMove load) ⟨false, stack⟩
        (((t.own above).map leafOf).reverse ++ (reversedItems load below above lower ++ rest))

/-- The bottom frame after a descent: in a node that is a leaf it is the frame that holds a
pending value. -/
def bottomAfter (bnode : Bnode) (above : List Chunk) (stack : List IteratorFrame)
    (pending : Bool) : List IteratorFrame :=
  resetBottom (⟨bnode, some 0, decide (bnode.level ≤ 1) && pending, above⟩ :: stack)

section Chunk

variable {load : Loader} {n below fuel index : Nat} {bnode : Bnode} {lo : WithBot Chunk}
  {hi : WithTop Chunk} {c : Chunk} {isLast : Bool} {above : List Chunk} {stack : List IteratorFrame}
  {rest : List ScanLeaf}

theorem endIndex_lt (hsorted : bnode.Sorted) (h : endIndex bnode c isLast = some index) :
    index < bnode.entries.length := by
  obtain ⟨lower, upper, hentries, hindex, -, -⟩ := hsorted.bnodeFind_split c
  have hlength := congrArg length hentries
  rw [length_append, length_append] at hlength
  unfold endIndex at h
  split at h
  · rename_i hmatch
    obtain ⟨e, he⟩ := isSome_iff_exists.mp (and_eq_true_iff.mp hmatch).2
    rw [he, toList_some, length_singleton] at hlength
    cases h
    omega
  · rw [hindex] at h
    cases hlower : lower.length with
    | zero =>
      rw [hlower] at h
      cases h
    | succ m =>
      rw [hlower] at h
      cases h
      omega

theorem seekEndLeaf_bail {frame : IteratorFrame} (h : endIndex frame.bnode c isLast = none) :
    seekEndLeaf load c isLast frame stack = .bail (frame :: stack) := by
  unfold seekEndLeaf
  cases isLast with
  | true =>
    have hnone : decrement (bnodeFind frame.bnode c).2 = none := h
    simp [hnone]
  | false =>
    have hnone : (if (bnodeFind frame.bnode c).1.isSome then some (bnodeFind frame.bnode c).2
        else decrement (bnodeFind frame.bnode c).2) = none := h
    simp only [false_eq_true, if_false, hnone]

theorem seekEndLeaf_spec (hsorted : bnode.Sorted) (hwithin : Within load (below + 1) bnode)
    (hplain : ∀ e ∈ bnode.entries, e.isBnodeChild = false) (hlevel : bnode.level ≤ 1)
    (hstack : descendedChunks stack = above)
    (hrest : Visits (scanPrevMove load) ⟨false, stack⟩ rest)
    (hindex : endIndex bnode c isLast = some index) {t : BnodeEntry}
    (hget : bnode.entries[index]? = some t) (start : Option Nat) :
    EndReach load below above (bottomAfter bnode above stack) rest isLast
      (bnode.entries.take index) t
      (seekEndLeaf load c isLast ⟨bnode, start, false, above⟩ stack) := by
  have hlt : index < bnode.entries.length := endIndex_lt hsorted hindex
  have hupto : bnode.entries.take (index + 1) = bnode.entries.take index ++ [t] := by
    rw [take_add_one, hget, toList_some]
  have hvisits := visits_prev (readsAs_leafOf above) hwithin hstack hrest
    (show index + 1 ≤ _ from hlt)
  rw [firstReversed, hupto] at hvisits
  have hlower := visits_prev (readsAs_leafOf above) hwithin hstack hrest hlt.le
  unfold seekEndLeaf
  cases isLast with
  | true =>
    have hsome : decrement (bnodeFind bnode c).2 = some index := hindex
    refine ⟨fun _ => ⟨_, by simp only [if_true, hsome]; rfl, hvisits⟩, by rintro ⟨⟩⟩
  | false =>
    have hsome : (if (bnodeFind bnode c).1.isSome then some (bnodeFind bnode c).2
        else decrement (bnodeFind bnode c).2) = some index := hindex
    have hat : bnodeGet bnode (some index) = some t := hget
    have hkey : t.keyChunks = [t.key] := by
      rw [keyChunks, hplain t (mem_of_getElem? hget)]
      rfl
    simp only [false_eq_true, hsome, hat]
    cases hnext : t.loadedTrieNode load with
    | none => exact ⟨fun _ => ⟨_, rfl, hvisits⟩, fun _ next hsome => by simp [hnext] at hsome⟩
    | some next =>
      refine ⟨fun h => by simp [hnext] at h, fun _ next' hnext' => ?_⟩
      cases some.inj (hnext.symm.trans hnext')
      cases hslot : t.slot with
      | value content pathMeta node =>
        refine ⟨_, rfl, cons_ne_nil _ _, ?_, ?_, ?_⟩
        · rw [← hkey]
          exact descendedChunks_pending hget hstack
        · simp [bottomAfter, hlevel, storedValue, hslot]
          exact resetBottom_index _ _
        · exact visits_prev_value (readsAs_leafOf above) hget hslot hstack (.inl rfl) hlower
      | childBnode node =>
        have hseparator := hplain t (mem_of_getElem? hget)
        rw [isBnodeChild, hslot] at hseparator
        cases hseparator
      | child node =>
        refine ⟨_, rfl, cons_ne_nil _ _, ?_, ?_, ?_⟩
        · rw [← hkey]
          exact descendedChunks_left hget hstack
        · simp [bottomAfter, storedValue, hslot]
          exact resetBottom_index _ _
        · have hown : t.own above = [] := by rw [own, hslot]
          rw [hown]
          exact hlower

theorem seekEndChunk_spec (h : SearchTree load n bnode lo hi)
    (hwithin : Within load (below + (n + 1)) bnode)
    (hplain : ∀ e ∈ leafEntries load n bnode, e.isBnodeChild = false) (hfuel : n ≤ fuel)
    (hstack : descendedChunks stack = above)
    (hrest : Visits (scanPrevMove load) ⟨false, stack⟩ rest) (start : Option Nat) :
    (endEntry load c isLast fuel bnode = none ∧
      ∃ s, seekEndChunk load c isLast fuel ⟨bnode, start, false, above⟩ stack = .bail s ∧
        resetBottom s = bottomAfter bnode above stack false) ∨
    ∃ lower t upper, endEntry load c isLast fuel bnode = some t ∧
      leafEntries load n bnode = lower ++ t :: upper ∧
      EndReach load below above (bottomAfter bnode above stack) rest isLast lower t
        (seekEndChunk load c isLast fuel ⟨bnode, start, false, above⟩ stack) := by
  induction n generalizing bnode lo hi fuel stack rest start with
  | zero =>
    have hlevel : bnode.level ≤ 1 := by rw [h.level_eq]
    have hseek : seekEndChunk load c isLast fuel ⟨bnode, start, false, above⟩ stack =
        seekEndLeaf load c isLast ⟨bnode, start, false, above⟩ stack := by
      cases fuel with
      | zero => rfl
      | succ fuel => simp [seekEndChunk, hlevel.not_gt]
    rw [endEntry, endLeaf_of_leaf hlevel, bind_some, hseek]
    cases hindex : endIndex bnode c isLast with
    | none =>
      refine .inl ⟨rfl, _, seekEndLeaf_bail hindex, ?_⟩
      rw [bottomAfter, Bool.and_false]
      exact resetBottom_index _ _
    | some index =>
      have hlt := endIndex_lt h.sorted hindex
      have hget : bnode.entries[index]? = some bnode.entries[index] := getElem?_eq_getElem hlt
      refine .inr ⟨bnode.entries.take index, _, bnode.entries.drop (index + 1), hget, ?_,
        seekEndLeaf_spec h.sorted hwithin hplain hlevel hstack hrest hindex hget start⟩
      rw [getElem_cons_drop, take_append_drop]
      rfl
  | succ n ih =>
    have hlevel : 1 < bnode.level := by
      rw [h.level_eq]
      omega
    have hbottom : ∀ pending, bottomAfter bnode above stack pending =
        resetBottom (⟨bnode, some 0, false, above⟩ :: stack) := by
      intro pending
      rw [bottomAfter, decide_eq_false hlevel.not_ge, Bool.false_and]
    obtain ⟨fuel, rfl⟩ : ∃ m, fuel = m + 1 := ⟨fuel - 1, by omega⟩
    rw [endEntry, endLeaf, if_pos hlevel, seekEndChunk, if_pos hlevel]
    cases hindex : decrement (bnodeFind bnode c).2 with
    | none =>
      refine .inl ⟨rfl, _, rfl, ?_⟩
      rw [hbottom]
      exact resetBottom_index _ _
    | some index =>
      have hmatch : endIndex bnode c true = some index := hindex
      have hlt := endIndex_lt h.sorted hmatch
      have hget : bnode.entries[index]? = some bnode.entries[index] := getElem?_eq_getElem hlt
      have hsplit : bnode.entries = bnode.entries.take index ++
          bnode.entries[index] :: bnode.entries.drop (index + 1) := by
        rw [getElem_cons_drop, take_append_drop]
      have hmem := mem_of_getElem? hget
      obtain ⟨l, u, ⟨child, hchild, htree, -⟩, -⟩ := h.2.of_mem hmem
      obtain ⟨hseparator, hbelow, -⟩ := of_loadedBnode hchild
      have hat : childBnodeAt load bnode index = some (index, child) := by
        rw [childBnodeAt, hget, bind_some, hchild]
        rfl
      have hleaves := SearchTree.leafEntries_split (n := n) hsplit hchild
      -- The frame of this node goes on before the separator.
      have hrest' : Visits (scanPrevMove load)
          ⟨false, ⟨bnode, decrement index, false, above⟩ :: stack⟩
          (reversedItems load below above
            ((bnode.entries.take index).flatMap (entryLeaves load n)) ++ rest) := by
        rw [reversedItems, ← h.entryItems_eq (take_subset _ _)]
        exact visits_prev (readsAs_leafOf above) hwithin hstack hrest hlt.le
      have hstack' : descendedChunks (⟨bnode, decrement index, false, above⟩ :: stack) =
          above := by
        rw [descendedChunks_left hget hstack, keyChunks, hseparator]
        exact append_nil above
      have hplain' : ∀ e ∈ leafEntries load n child, e.isBnodeChild = false := by
        intro e he
        refine hplain e ?_
        rw [hleaves]
        exact mem_append_right _ (mem_append_left _ he)
      have hdown := ih htree (hwithin _ hmem child hbelow) hplain' (show n ≤ fuel by omega)
        hstack' hrest' (some 0)
      have hbottom' : ∀ pending, bottomAfter child above
          (⟨bnode, decrement index, false, above⟩ :: stack) pending =
            bottomAfter bnode above stack pending := by
        intro pending
        rw [hbottom, bottomAfter, resetBottom_cons _ (cons_ne_nil _ _)]
        exact resetBottom_index _ _
      simp only [bind_some, hat]
      rcases hdown with ⟨hnone, s, hs, hreset⟩ | ⟨lower, t, upper, hsome, hes, hreach⟩
      · exact .inl ⟨hnone, s, hs, hreset.trans (hbottom' false)⟩
      · refine .inr ⟨(bnode.entries.take index).flatMap (entryLeaves load n) ++ lower, t,
          upper ++ (bnode.entries.drop (index + 1)).flatMap (entryLeaves load n), hsome, ?_, ?_⟩
        · rw [hleaves, hes]
          simp only [append_assoc, cons_append]
        · constructor
          · intro hstop
            obtain ⟨s, hs, hvisits⟩ := hreach.positioned hstop
            refine ⟨s, hs, ?_⟩
            rw [append_assoc, reversedItems_append, append_assoc]
            exact hvisits
          · intro hlast next hnext
            obtain ⟨s, hs, hne, hchunks, hreset, hvisits⟩ := hreach.descended hlast next hnext
            refine ⟨s, hs, hne, hchunks, hreset.trans (hbottom' _), ?_⟩
            rw [reversedItems_append, append_assoc]
            exact hvisits

end Chunk

/-! ### The whole seek -/

/-- The seek comes to an identifier without chunks, or to a node where it has no entry to go on
from, and gives up. -/
def endBails (load : Loader) : HbtrieNode → List PathStep → Bool
  | _, [] => false
  | node, .enter identifier :: rest => identifier.chunks.isEmpty || endBails load node rest
  | node, .chunk c :: rest =>
    match endEntry load c rest.isEmpty node.btree.level node.btree with
    | none => true
    | some t => !rest.isEmpty && (t.loadedTrieNode load).any fun next => endBails load next rest

/-- Giving up leaves the root frame with a pending value: the seek went below a value of a root
node that is a leaf. -/
def endStale (load : Loader) (node : HbtrieNode) : List PathStep → Bool
  | [] => false
  | .enter identifier :: rest => !identifier.chunks.isEmpty && endStale load node rest
  | .chunk c :: rest =>
    decide (node.btree.level ≤ 1) &&
      (endEntry load c rest.isEmpty node.btree.level node.btree).any fun t => t.storedValue.isSome

/-- The keys that the seek leaves to be visited, unless it gives up: those up to the entry it goes
on from, and below that entry those that the rest of the path leaves. -/
def endPasses (load : Loader) : HbtrieNode → List PathStep → List Chunk → Bool
  | _, [], _ => true
  | node, .enter _ :: rest, key => endPasses load node rest key
  | _, .chunk _ :: _, [] => true
  | node, .chunk c :: rest, k :: key =>
    (endEntry load c rest.isEmpty node.btree.level node.btree).any fun t =>
      decide (k < t.key) || decide (k = t.key) && (rest.isEmpty || key.isEmpty ||
        (t.loadedTrieNode load).all fun next => endPasses load next rest key)

/-- Steps after whose identifiers a chunk follows, as far as a seek reads them. -/
def Seekable : List PathStep → Prop
  | [] => False
  | .enter identifier :: rest => identifier.chunks = [] ∨ Seekable rest
  | .chunk _ :: rest => rest = [] ∨ Seekable rest

theorem seekable_chunks {chunks : List Chunk} {rest : List PathStep} (h : chunks ≠ [])
    (hrest : rest = [] ∨ Seekable rest) : Seekable (chunks.map PathStep.chunk ++ rest) := by
  induction chunks with
  | nil => exact absurd rfl h
  | cons c chunks ih =>
    cases chunks with
    | nil => exact hrest
    | cons d chunks => exact .inr (ih (cons_ne_nil d chunks))

theorem seekable_pathSteps {path : Path} (h : path ≠ []) : Seekable (pathSteps path) := by
  induction path with
  | nil => exact absurd rfl h
  | cons identifier path ih =>
    have hrest : pathSteps path = [] ∨ Seekable (pathSteps path) := by
      cases path with
      | nil => exact .inl rfl
      | cons next path => exact .inr (ih (cons_ne_nil next path))
    by_cases hempty : identifier.chunks = []
    · exact .inl hempty
    · exact .inr (seekable_chunks hempty hrest)

section Seek

variable {load : Loader} {depth below : Nat} {node : HbtrieNode} {above : List Chunk}
  {stack : List IteratorFrame} {rest : List ScanLeaf} {c : Chunk} {t : BnodeEntry}
  {steps : List PathStep}

def passedItems (load : Loader) (depth : Nat) (above : List Chunk) (node : HbtrieNode)
    (steps : List PathStep) : List StoredItem :=
  (items load depth above node.btree).filter fun i =>
    endPasses load node steps (i.chunks.drop above.length)

/-- The passed items of one level: all before the entry that the seek goes on from, its value,
and the passed items below it. -/
theorem passedItems_eq {n : Nat} (htree : SearchTree load n node.btree ⊥ ⊤)
    (hes : ∀ e ∈ leafEntries load n node.btree, e.Walkable load below)
    {lower upper : List BnodeEntry} (hsplit : leafEntries load n node.btree = lower ++ t :: upper)
    (htarget : endEntry load c steps.isEmpty node.btree.level node.btree = some t) :
    passedItems load (below + (n + 1)) above node (.chunk c :: steps) =
      lower.flatMap (entryItems load below above) ++
        if steps.isEmpty then entryItems load below above t
        else t.own above ++ ((t.loadedTrieNode load).map fun next =>
          passedItems load below (above ++ [t.key]) next steps).getD [] := by
  have hpasses : ∀ k key, endPasses load node (.chunk c :: steps) (k :: key) =
      (decide (k < t.key) || decide (k = t.key) && (steps.isEmpty || key.isEmpty ||
        (t.loadedTrieNode load).all fun next => endPasses load next steps key)) := by
    intro k key
    rw [endPasses, htarget, any_some]
  have hasc := htree.leafEntries_ascending.1
  rw [hsplit] at hasc
  obtain ⟨-, hupper, hlower⟩ := pairwise_append.mp hasc
  have hbefore := filter_entryItems above (endPasses load node (.chunk c :: steps)) (b := true)
    (fun e (he : e ∈ lower) => hes e (by simp [hsplit, he])) fun e he r => by
      simp [hpasses, hlower e he t mem_cons_self]
  have hafter := filter_entryItems above (endPasses load node (.chunk c :: steps)) (b := false)
    (fun e (he : e ∈ upper) => hes e (by simp [hsplit, he])) fun e he r => by
      have hlt := (pairwise_cons.mp hupper).1 e he
      simp [hpasses, hlt.not_gt, hlt.ne']
  have ht := hes t (by simp [hsplit])
  rw [passedItems, htree.items_eq, hsplit, flatMap_append, flatMap_cons, filter_append,
    filter_append, hbefore, hafter, if_pos rfl, if_neg Bool.false_ne_true, append_nil]
  congr 1
  cases hlast : steps.isEmpty with
  | true =>
    have hall := filter_entryItems above (endPasses load node (.chunk c :: steps)) (b := true)
      (forall_mem_singleton.mpr ht) fun e he r => by
        simp [hpasses, hlast, mem_singleton.mp he]
    rw [flatMap_singleton] at hall
    rw [hall]
    rfl
  | false =>
    rw [filter_entryItem above _ (fun next => endPasses load next steps) ht fun next hnext d r => by
      simp [hpasses, hlast, hnext]]
    simp [hpasses, passedItems]

theorem seekSteps_end (h : Walkable load depth node) (hstack : descendedChunks stack = above)
    (hrest : Visits (scanPrevMove load) ⟨false, stack⟩ rest) (hsteps : Seekable steps)
    (start : Option Nat) : if endBails load node steps then
      ∃ s, seekSteps (seekEndChunk load) steps ⟨node.btree, start, false, above⟩ stack = .bail s ∧
        resetBottom s = resetBottom (⟨node.btree, some 0, endStale load node steps, above⟩ :: stack)
    else ∃ s, seekSteps (seekEndChunk load) steps ⟨node.btree, start, false, above⟩ stack =
          .positioned s ∧ Visits (scanPrevMove load) ⟨false, s⟩
          (((passedItems load depth above node steps).map leafOf).reverse ++ rest) := by
  induction steps using stepsInduction generalizing node depth above stack rest start with
  | nil => exact hsteps.elim
  | enter identifier steps ih =>
    rw [endBails, seekSteps]
    by_cases hempty : identifier.chunks = []
    · simp only [hempty]
      refine ⟨_, rfl, ?_⟩
      simp only [endStale, hempty]
      exact resetBottom_index _ _
    · have hfalse : identifier.chunks.isEmpty = false := by simpa using hempty
      simp only [hfalse, if_neg hempty, endStale]
      exact ih h hstack hrest (hsteps.resolve_left hempty) start
  | chunk c steps ih =>
    obtain ⟨n, below, rfl, htree, hes⟩ := h.level
    have hchunk := @seekEndChunk_spec load n below node.btree.level node.btree ⊥ ⊤ c
      steps.isEmpty above stack rest htree h.within (fun e he => (hes e he).1)
      (by rw [htree.level_eq]; omega) hstack hrest start
    rw [endBails, seekSteps]
    rcases hchunk with ⟨hnone, s, hs, hreset⟩ | ⟨lower, t, upper, htarget, hsplit, hreach⟩
    · simp only [hnone, hs, endStale]
      exact ⟨s, rfl, hreset⟩
    · simp only [htarget, endStale]
      rw [passedItems_eq htree hes hsplit htarget]
      by_cases hstop : steps.isEmpty ∨ t.loadedTrieNode load = none
      · obtain ⟨s, hs, hvisits⟩ := hreach.positioned hstop
        have hbails : (!steps.isEmpty &&
            (t.loadedTrieNode load).any fun next => endBails load next steps) = false := by
          rcases hstop with hlast | hnone
          · simp [hlast]
          · simp [hnone]
        rw [hbails, if_neg Bool.false_ne_true]
        refine ⟨s, by simp only [hs], ?_⟩
        have hitems : (lower ++ [t]).flatMap (entryItems load below above) =
            lower.flatMap (entryItems load below above) ++
              if steps.isEmpty then entryItems load below above t
              else t.own above ++ ((t.loadedTrieNode load).map fun next =>
                passedItems load below (above ++ [t.key]) next steps).getD [] := by
          rw [flatMap_append, flatMap_singleton]
          split
          · rfl
          · rename_i hlast
            have hnone := hstop.resolve_left hlast
            rw [entryItems_plain (hes t (by rw [hsplit]; simp)).1, hnone]
            rfl
        rw [← hitems]
        exact hvisits
      · push Not at hstop
        obtain ⟨next, hnext⟩ := ne_none_iff_exists'.mp hstop.2
        have hlast : steps.isEmpty = false := by simpa using hstop.1
        obtain ⟨s, hs, hne, hchunks, hreset, hvisits⟩ := hreach.descended hlast next hnext
        have hwalk := (hes t (by rw [hsplit]; simp)).2 next hnext
        have hdown := ih hwalk hchunks hvisits
          (hsteps.resolve_left fun hnil => by simp [hnil] at hlast)
          (decrement next.btree.entries.length)
        simp only [hs]
        simp only [hlast, hnext, Bool.not_false, Bool.true_and, any_some, false_eq_true, if_false]
        split at hdown
        · rename_i hbails
          obtain ⟨s', hs', hreset'⟩ := hdown
          rw [if_pos hbails]
          refine ⟨s', hs', ?_⟩
          rw [hreset', resetBottom_cons _ hne]
          exact hreset
        · rename_i hbails
          obtain ⟨s', hs', hvisits'⟩ := hdown
          rw [if_neg hbails]
          refine ⟨s', hs', ?_⟩
          simp only [map_append, reverse_append, append_assoc]
          exact hvisits'

end Seek

end WaveDB.Database
