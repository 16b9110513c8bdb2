import WaveDB.Database.FullScan

/-!
The seek of bounded forward scans.

`seek_to_start_path` follows the chunks of the start path down the trie and its B+trees
(`seekStartChunk_spec` for one chunk). What it leaves on the stack visits the items
that the start path is not behind in the order of the chunk sequences
(`visits_databaseScanStart`), unless it comes to an identifier without chunks and gives up.
-/

namespace WaveDB.Database

open WaveDB.Basis HBTrie Workers List Option BnodeEntry

/-! ### One chunk of the seek -/

structure SplitAround (c : Chunk) (es lower : List BnodeEntry) (exact : Option BnodeEntry)
    (upper : List BnodeEntry) : Prop where
  entries : es = lower ++ (exact.toList ++ upper)
  lower_lt : ∀ e ∈ lower, e.key < c
  exact_eq : ∀ e, exact = some e → e.key = c
  upper_gt : ∀ e ∈ upper, c < e.key

theorem SplitAround.exact_iff {c : Chunk} {es lower : List BnodeEntry} {exact : Option BnodeEntry}
    {upper : List BnodeEntry} (h : SplitAround c es lower exact upper) (e : BnodeEntry) :
    exact = some e ↔ e ∈ es ∧ e.key = c := by
  constructor
  · intro he
    refine ⟨?_, h.exact_eq e he⟩
    simp [h.entries, he]
  · rintro ⟨he, hkey⟩
    rw [h.entries, mem_append, mem_append, mem_toList] at he
    rcases he with he | he | he
    · exact absurd hkey (h.lower_lt e he).ne
    · exact he
    · exact absurd hkey (h.upper_gt e he).ne'

/-- How the seek leaves one chunk: at the match or behind it, or below it. -/
structure StartSeek (load : Loader) (below : Nat) (above : List Chunk) (rest : List ScanLeaf)
    (c : Chunk) (isLast : Bool) (exact : Option BnodeEntry) (upper : List BnodeEntry)
    (move : SeekMove) : Prop where
  positioned : isLast = true ∨ (exact.bind fun e => e.loadedTrieNode load) = none →
    ∃ stack, move = .positioned stack ∧
      Visits (scanNextMove load) stack
        (((((if isLast then exact.toList else []) ++ upper).flatMap
          (entryItems load below above)).map leafOf) ++ rest)
  descended : isLast = false → ∀ next,
    (exact.bind fun e => e.loadedTrieNode load) = some next →
    ∃ stack, move = .descended (newFrame next.btree (above ++ [c])) stack ∧
      passedChunks stack = above ++ [c] ∧
      Visits (scanNextMove load) stack
        ((upper.flatMap (entryItems load below above)).map leafOf ++ rest)

section Chunk

variable {load : Loader} {n below fuel : Nat} {bnode : Bnode} {lo : WithBot Chunk}
  {hi : WithTop Chunk} {c : Chunk} {isLast : Bool} {above : List Chunk}
  {stack : List IteratorFrame} {rest : List ScanLeaf}

theorem seekPositionLeaf_spec (hsorted : bnode.Sorted) (hwithin : Within load (below + 1) bnode)
    (hplain : ∀ e ∈ bnode.entries, e.isBnodeChild = false) (hstack : passedChunks stack = above)
    (hrest : Visits (scanNextMove load) stack rest) :
    ∃ lower exact upper, SplitAround c bnode.entries lower exact upper ∧
      StartSeek load below above rest c isLast exact upper
        (seekPositionLeaf load c isLast (newFrame bnode above) stack) := by
  obtain ⟨lower, upper, hentries, hindex, hlower, hupper⟩ := hsorted.bnodeFind_split c
  have hexact : ∀ e, (bnodeFind bnode c).1 = some e → e.key = c := fun e he =>
    ((hsorted.bnodeFind_eq_some c e).mp he).2
  have hvisits : ∀ index, Visits (scanNextMove load) (⟨bnode, some index, false, above⟩ :: stack)
      (((bnode.entries.drop index).flatMap (entryItems load below above)).map leafOf ++ rest) :=
    fun index => visits_next hwithin hstack hrest index
  refine ⟨lower, _, upper, ⟨hentries, hlower, hexact, hupper⟩, ?_⟩
  unfold seekPositionLeaf
  cases hfind : (bnodeFind bnode c).1 with
  | none =>
    rw [hfind] at hentries
    refine ⟨fun _ => ⟨_, by simp only [newFrame, hfind]; rfl, ?_⟩, by rintro - _ ⟨⟩⟩
    have hupper : bnode.entries.drop (bnodeFind bnode c).2 =
        (if isLast then (none : Option BnodeEntry).toList else []) ++ upper := by
      rw [hindex, hentries, drop_left, toList_none, ite_self]
    rw [← hupper]
    exact hvisits _
  | some e =>
    rw [hfind] at hentries
    have hget : bnode.entries[lower.length]? = some e := by
      rw [hentries, getElem?_append_right (le_refl _), Nat.sub_self]
      rfl
    have hplaine := hplain e (mem_of_getElem? hget)
    have hafter : bnode.entries.drop (lower.length + 1) = upper := by
      rw [hentries, ← drop_drop, drop_left]
      rfl
    cases isLast with
    | true =>
      refine ⟨fun _ => ⟨_, by simp only [newFrame, hfind]; rfl, ?_⟩, by rintro ⟨⟩⟩
      have hfrom : bnode.entries.drop (bnodeFind bnode c).2 =
          (if true then (some e).toList else []) ++ upper := by
        rw [hindex, hentries, drop_left, if_pos rfl]
      rw [← hfrom]
      exact hvisits _
    | false =>
      cases hnext : e.loadedTrieNode load with
      | none =>
        refine ⟨fun _ => ⟨_, by simp [newFrame, hfind, hnext]; rfl, ?_⟩, ?_⟩
        · rw [if_neg Bool.false_ne_true, nil_append, ← hafter, ← hindex]
          exact hvisits _
        · intro _ next hsome
          rw [bind_some, hnext] at hsome
          cases hsome
      | some next =>
        constructor
        · rintro (hlast | hnone)
          · cases hlast
          · rw [bind_some, hnext] at hnone
            cases hnone
        · intro _ next' hsome
          obtain rfl : next = next' := by
            rw [bind_some, hnext] at hsome
            exact some.inj hsome
          have hkey := hexact e hfind
          refine ⟨_, by simp [newFrame, hfind, hnext, hkey]; rfl, ?_, ?_⟩
          · rw [hindex]
            refine (passedChunks_advanced hget hstack).trans ?_
            rw [keyChunks, hplaine, hkey]
            rfl
          · rw [hindex, ← hafter]
            exact hvisits _

/-- The separator that the seek goes down from is the one that a lookup follows. -/
theorem startSeparator_eq (h : SearchTree load (n + 1) bnode lo hi) (hlo : lo ≤ c)
    (hhi : (c : WithTop Chunk) < hi) :
    ∃ pre x post child, bnode.entries = pre ++ x :: post ∧ x.loadedBnode load = some child ∧
      startSeparator bnode c = pre.length ∧
      segLo key lo pre x ≤ c ∧ (c : WithTop Chunk) < segHi key hi post := by
  obtain ⟨pre, x, post, child, hsplit, hnext, hchild, -, -, hklo, hkhi⟩ :=
    h.btreeNextChild_eq hlo hhi
  refine ⟨pre, x, post, child, hsplit, hchild, ?_, hklo, hkhi⟩
  unfold btreeNextChild at hnext
  unfold startSeparator
  cases hfind : (bnodeFind bnode c).1 with
  | some e =>
    have hmem := ((h.sorted.bnodeFind_eq_some c e).mp hfind).1
    obtain ⟨l, u, ⟨below, hload, -, -⟩, -⟩ := h.2.of_mem hmem
    rw [hfind, bind_some, hload] at hnext
    simp only [some.injEq, Prod.mk.injEq] at hnext
    simp [(of_loadedBnode hload).1, hnext.1]
  | none =>
    rw [hfind, bind_none] at hnext
    have hindex : ∀ i, childBnodeAt load bnode i = some (pre.length, child) → i = pre.length := by
      intro i hi
      obtain ⟨e, -, hmap⟩ := bind_eq_some_iff.mp hi
      obtain ⟨child', -, hpair⟩ := map_eq_some_iff.mp hmap
      exact congrArg Prod.fst hpair
    by_cases hzero : (bnodeFind bnode c).2 = 0
    · rw [if_pos hzero] at hnext
      rw [hzero]
      exact hindex 0 hnext
    · rw [if_neg hzero] at hnext
      exact hindex _ hnext

theorem seekStartChunk_spec (h : SearchTree load n bnode lo hi) (hlo : lo ≤ c)
    (hhi : (c : WithTop Chunk) < hi) (hwithin : Within load (below + (n + 1)) bnode)
    (hplain : ∀ e ∈ leafEntries load n bnode, e.isBnodeChild = false) (hfuel : n ≤ fuel)
    (hstack : passedChunks stack = above) (hrest : Visits (scanNextMove load) stack rest) :
    ∃ lower exact upper, SplitAround c (leafEntries load n bnode) lower exact upper ∧
      StartSeek load below above rest c isLast exact upper
        (seekStartChunk load c isLast fuel (newFrame bnode above) stack) := by
  induction n generalizing bnode lo hi fuel stack rest with
  | zero =>
    have hleaf : seekStartChunk load c isLast fuel (newFrame bnode above) stack =
        seekPositionLeaf load c isLast (newFrame bnode above) stack := by
      cases fuel with
      | zero => rfl
      | succ fuel => simp [seekStartChunk, newFrame, h.level_eq]
    rw [hleaf]
    exact seekPositionLeaf_spec h.sorted hwithin hplain hstack hrest
  | succ n ih =>
    obtain ⟨pre, x, post, child, hsplit, hchild, hindex, hklo, hkhi⟩ := startSeparator_eq h hlo hhi
    obtain ⟨fuel, rfl⟩ : ∃ m, fuel = m + 1 := ⟨fuel - 1, by omega⟩
    have hseg := h.2
    rw [hsplit] at hseg
    obtain ⟨child', hchild', htree, -⟩ := hseg.focus
    obtain rfl : child = child' := some.inj (hchild.symm.trans hchild')
    have hget : bnode.entries[pre.length]? = some x := by simp [hsplit]
    have hmem := mem_of_getElem? hget
    obtain ⟨hseparator, hbelow, -⟩ := of_loadedBnode hchild
    have hleaves := SearchTree.leafEntries_split (n := n) hsplit hchild
    -- The frame of this node goes on behind the separator, at the leaves of `post`.
    have hdrop : bnode.entries.drop (pre.length + 1) = post := by
      rw [hsplit, ← drop_drop, drop_left]
      rfl
    have hrest' : Visits (scanNextMove load) (⟨bnode, some (pre.length + 1), false, above⟩ :: stack)
        (((post.flatMap (entryLeaves load n)).flatMap (entryItems load below above)).map leafOf ++
          rest) := by
      rw [← hdrop, ← h.entryItems_eq (drop_subset _ _)]
      exact visits_next hwithin hstack hrest _
    have hstack' : passedChunks (⟨bnode, some (pre.length + 1), false, above⟩ :: stack) =
        above := by
      rw [passedChunks_advanced hget hstack, keyChunks, hseparator]
      exact append_nil above
    have hplain' : ∀ e ∈ leafEntries load n child, e.isBnodeChild = false := by
      intro e he
      refine hplain e ?_
      rw [hleaves]
      exact mem_append_right _ (mem_append_left _ he)
    obtain ⟨lower, exact, upper, haround, hseek⟩ :=
      ih htree hklo hkhi (hwithin x hmem child hbelow) hplain'
        (show n ≤ fuel by omega) hstack' hrest'
    have hstep : seekStartChunk load c isLast (fuel + 1) (newFrame bnode above) stack =
        seekStartChunk load c isLast fuel (newFrame child above)
          (⟨bnode, some (pre.length + 1), false, above⟩ :: stack) := by
      have hat : childBnodeAt load bnode pre.length = some (pre.length, child) := by
        simp [childBnodeAt, hget, hchild]
      have hlevel : 1 < bnode.level := by
        rw [h.level_eq]
        omega
      simp only [seekStartChunk, newFrame, hlevel, if_true, hindex, hat]
    rw [hstep]
    refine ⟨pre.flatMap (entryLeaves load n) ++ lower, exact,
      upper ++ post.flatMap (entryLeaves load n), ⟨?_, ?_, haround.exact_eq, ?_⟩, ?_, ?_⟩
    · rw [hleaves, haround.entries]
      simp only [append_assoc]
    · intro e he
      rcases mem_append.mp he with he | he
      · have hlt := (hseg.lt_segLo SearchTree.child_contents he).trans_le hklo
        exact WithBot.coe_lt_coe.mp hlt
      · exact haround.lower_lt e he
    · intro e he
      rcases mem_append.mp he with he | he
      · exact haround.upper_gt e he
      · have hlt := hkhi.trans_le (hseg.segHi_le SearchTree.child_contents he)
        exact WithTop.coe_lt_coe.mp hlt
    · intro hstop
      obtain ⟨s, hs, hvisits⟩ := hseek.positioned hstop
      refine ⟨s, hs, ?_⟩
      rw [← append_assoc, flatMap_append, map_append, append_assoc]
      exact hvisits
    · intro hlast next hnext
      obtain ⟨s, hs, hpassed, hvisits⟩ := hseek.descended hlast next hnext
      refine ⟨s, hs, hpassed, ?_⟩
      rw [flatMap_append, map_append, append_assoc]
      exact hvisits

end Chunk

/-! ### The whole seek -/

def startBails (load : Loader) : HbtrieNode → List PathStep → Bool
  | _, [] => false
  | node, .enter identifier :: rest => identifier.chunks.isEmpty || startBails load node rest
  | node, .chunk c :: rest =>
    match (bnodeFindLeafLazy load node.btree c).bind fun e => e.loadedTrieNode load with
    | none => false
    | some next => startBails load next rest

/-- The start path is not behind the key. A match before its end only counts below the entry. -/
def startBefore : List PathStep → List Chunk → Bool
  | [], _ => true
  | .enter _ :: rest, key => startBefore rest key
  | .chunk _ :: _, [] => false
  | .chunk c :: rest, k :: key =>
    decide (c < k) || (decide (c = k) && (rest.isEmpty || !key.isEmpty && startBefore rest key))

def SeekMove.frames : SeekMove → Option (List IteratorFrame)
  | .positioned stack => some stack
  | .descended frame stack => some (frame :: stack)
  | .bail _ => none

section Seek

variable {load : Loader} {depth below : Nat} {node : HbtrieNode} {above : List Chunk}
  {stack : List IteratorFrame} {rest : List ScanLeaf} {c : Chunk} {e : BnodeEntry}

def reachedItems (load : Loader) (depth : Nat) (above : List Chunk) (steps : List PathStep)
    (bnode : Bnode) : List StoredItem :=
  (items load depth above bnode).filter fun i => startBefore steps (i.chunks.drop above.length)

theorem filter_entryItems (above : List Chunk) (keep : List Chunk → Bool) {b : Bool}
    {es : List BnodeEntry} (hes : ∀ e ∈ es, e.Walkable load below)
    (hconst : ∀ e ∈ es, ∀ r, keep (e.key :: r) = b) :
    ((es.flatMap (entryItems load below above)).filter fun i => keep (i.chunks.drop above.length)) =
      if b then es.flatMap (entryItems load below above) else [] := by
  have hall : ∀ i ∈ es.flatMap (entryItems load below above),
      keep (i.chunks.drop above.length) = b := by
    intro i hi
    obtain ⟨e, he, hi⟩ := mem_flatMap.mp hi
    obtain ⟨r, hr⟩ := chunks_of_mem_entryItems (hes e he) hi
    rw [hr, drop_left, hconst e he]
  cases b with
  | true => exact filter_eq_self.mpr hall
  | false => exact filter_eq_nil_iff.mpr fun i hi => by simp [hall i hi]

theorem filter_entryItem (above : List Chunk) (keep : List Chunk → Bool)
    (inner : HbtrieNode → List Chunk → Bool) (he : e.Walkable load below)
    (hinner : ∀ next, e.loadedTrieNode load = some next →
      ∀ d r, keep (e.key :: d :: r) = inner next (d :: r)) :
    ((entryItems load below above e).filter fun i => keep (i.chunks.drop above.length)) =
      (if keep [e.key] then e.own above else []) ++ ((e.loadedTrieNode load).map fun next =>
        (items load below (above ++ [e.key]) next.btree).filter fun i =>
          inner next (i.chunks.drop (above ++ [e.key]).length)).getD [] := by
  rw [entryItems_plain he.1, filter_append]
  congr 1
  · have hown : ∀ i ∈ e.own above, keep (i.chunks.drop above.length) = keep [e.key] := by
      intro i hi
      rw [(mem_own.mp hi).1, drop_left]
    rw [filter_congr hown]
    cases keep [e.key] with
    | true => exact filter_true _
    | false => exact filter_false _
  · cases hnext : e.loadedTrieNode load with
    | none => rfl
    | some next =>
      refine filter_congr fun i hi => ?_
      obtain ⟨r, hr, hitem⟩ := (mem_items (he.2 next hnext)).mp hi
      cases r with
      | nil => cases hitem
      | cons d r =>
        rw [hr, drop_left, append_assoc, drop_left, ← hinner next hnext, singleton_append]

/-- The reached items of one level: those of the match as far as they are reached, and all
behind it. -/
theorem reachedItems_eq {n : Nat} {bnode : Bnode} (htree : SearchTree load n bnode ⊥ ⊤)
    {lower upper : List BnodeEntry} {exact : Option BnodeEntry}
    (haround : SplitAround c (leafEntries load n bnode) lower exact upper)
    (hes : ∀ e ∈ leafEntries load n bnode, e.Walkable load below) (above : List Chunk)
    (steps : List PathStep) : reachedItems load (below + (n + 1)) above (.chunk c :: steps) bnode =
      ((exact.map fun e => if steps.isEmpty then entryItems load below above e
        else ((e.loadedTrieNode load).map fun next =>
          reachedItems load below (above ++ [c]) steps next.btree).getD []).getD []) ++
        upper.flatMap (entryItems load below above) := by
  have hlower := filter_entryItems above (startBefore (.chunk c :: steps)) (b := false)
    (fun e (he : e ∈ lower) => hes e (by simp [haround.entries, he])) fun e he r => by
      have hlt := haround.lower_lt e he
      simp [startBefore, hlt.not_gt, hlt.ne']
  have hupper := filter_entryItems above (startBefore (.chunk c :: steps)) (b := true)
    (fun e (he : e ∈ upper) => hes e (by simp [haround.entries, he])) fun e he r => by
      simp [startBefore, haround.upper_gt e he]
  rw [reachedItems, htree.items_eq, haround.entries, flatMap_append, flatMap_append, filter_append,
    filter_append, hlower, hupper]
  cases hexact : exact with
  | none => rfl
  | some e =>
    obtain ⟨he, rfl⟩ := (haround.exact_iff e).mp hexact
    rw [toList_some, flatMap_singleton]
    cases steps with
    | nil =>
      have hall := filter_entryItems above (startBefore [.chunk e.key]) (b := true)
        (forall_mem_singleton.mpr (hes e he)) fun e' he' r => by
          simp [startBefore, mem_singleton.mp he']
      rw [flatMap_singleton] at hall
      rw [hall]
      rfl
    | cons step steps =>
      rw [filter_entryItem above _ (fun _ => startBefore (step :: steps)) (hes e he)
        fun next _ d r => by simp [startBefore]]
      simp [startBefore, reachedItems]

theorem seekSteps_start (h : Walkable load depth node) (hstack : passedChunks stack = above)
    (hrest : Visits (scanNextMove load) stack rest) (steps : List PathStep) :
    if startBails load node steps then
      (seekSteps (seekStartChunk load) steps (newFrame node.btree above) stack).frames = none
    else ∃ frames,
      (seekSteps (seekStartChunk load) steps (newFrame node.btree above) stack).frames =
        some frames ∧ Visits (scanNextMove load) frames
        ((reachedItems load depth above steps node.btree).map leafOf ++ rest) := by
  induction steps using stepsInduction generalizing node depth above stack rest with
  | nil =>
    refine ⟨_, rfl, ?_⟩
    have hall : reachedItems load depth above [] node.btree = items load depth above node.btree :=
      filter_eq_self.mpr fun _ _ => rfl
    rw [hall]
    obtain ⟨n, below, rfl, -, -⟩ := h.level
    exact visits_next h.within hstack hrest 0
  | enter identifier steps ih =>
    rw [startBails, seekSteps]
    by_cases hempty : identifier.chunks = []
    · simp [hempty, SeekMove.frames]
    · have hfalse : identifier.chunks.isEmpty = false := by simpa using hempty
      rw [hfalse, Bool.false_or, if_neg hempty]
      exact ih h hstack hrest
  | chunk c steps ih =>
    obtain ⟨n, below, rfl, htree, hes⟩ := h.level
    obtain ⟨lower, exact, upper, haround, hseek⟩ : ∃ lower exact upper,
          SplitAround c (leafEntries load n node.btree) lower exact upper ∧
          StartSeek load below above rest c steps.isEmpty exact upper
            (seekStartChunk load c steps.isEmpty node.btree.level
              (newFrame node.btree above) stack) :=
      seekStartChunk_spec htree bot_le (WithTop.coe_lt_top c) h.within
        (fun e he => (hes e he).1) (by rw [htree.level_eq]; omega) hstack hrest
    have hfind : bnodeFindLeafLazy load node.btree c = exact :=
      ext fun e => (htree.find_iff c e).trans (haround.exact_iff e).symm
    rw [reachedItems_eq htree haround hes, startBails, hfind]
    by_cases hstop : steps.isEmpty ∨ (exact.bind fun e => e.loadedTrieNode load) = none
    · obtain ⟨frames, hmove, hvisits⟩ := hseek.positioned hstop
      have hbails : (match exact.bind fun e => e.loadedTrieNode load with
          | none => false
          | some next => startBails load next steps) = false := by
        rcases hstop with hlast | hnone
        · obtain rfl : steps = [] := isEmpty_iff.mp hlast
          split
          · rfl
          · rfl
        · rw [hnone]
      rw [hbails, if_neg Bool.false_ne_true]
      refine ⟨frames, ?_, ?_⟩
      · rw [seekSteps, show (newFrame node.btree above).bnode.level = node.btree.level from rfl,
          hmove]
        rfl
      · cases exact with
        | none => simpa using hvisits
        | some e =>
          cases hlast : steps.isEmpty with
          | true =>
            rw [hlast] at hvisits
            simpa using hvisits
          | false =>
            have hnone := hstop.resolve_left (by simp [hlast])
            rw [bind_some] at hnone
            rw [hlast] at hvisits
            simpa [hnone] using hvisits
    · push Not at hstop
      obtain ⟨next, hnext⟩ := ne_none_iff_exists'.mp hstop.2
      have hlast : steps.isEmpty = false := by simpa using hstop.1
      obtain ⟨frames, hmove, hpassed, hvisits⟩ := hseek.descended hlast next hnext
      obtain ⟨e, rfl, hload⟩ := bind_eq_some_iff.mp hnext
      have hwalk := (hes e ((haround.exact_iff e).mp rfl).1).2 next hload
      have hbelow := ih hwalk hpassed hvisits
      rw [hnext, seekSteps,
        show (newFrame node.btree above).bnode.level = node.btree.level from rfl, hmove]
      simpa [hlast, hload] using hbelow

theorem seekToStartPath_eq (load : Loader) (root : HbtrieNode) (startPath : Path) :
    seekToStartPath load root startPath =
      (seekSteps (seekStartChunk load) (pathSteps startPath) (newFrame root.btree [])
        []).frames.getD [newFrame root.btree []] := by
  unfold seekToStartPath
  cases seekSteps (seekStartChunk load) (pathSteps startPath) (newFrame root.btree []) [] with
  | positioned stack => rfl
  | descended frame stack => rfl
  | bail stack => rfl

end Seek

def startReaches (load : Loader) (root : HbtrieNode) (startPath : Option Path) (key : List Chunk) :
    Bool :=
  startPath.all fun path =>
    startBails load root (pathSteps path) || startBefore (pathSteps path) key

theorem startBails_eq_false {load : Loader} {root : HbtrieNode} {steps : List PathStep}
    (h : ∀ identifier, .enter identifier ∈ steps → identifier.chunks ≠ []) :
    startBails load root steps = false := by
  induction steps generalizing root with
  | nil => rfl
  | cons step steps ih =>
    have hrest := fun identifier hmem => h identifier (mem_cons_of_mem _ hmem)
    cases step with
    | enter identifier =>
      have hne := h identifier mem_cons_self
      simp [startBails, ih hrest, hne]
    | chunk c =>
      rw [startBails]
      split
      · rfl
      · exact ih hrest

theorem cons_chunks_le {c k : Chunk} {as bs : List Chunk} :
    c :: as ≤ k :: bs ↔ c < k ∨ c = k ∧ as ≤ bs := by
  rw [← not_lt, cons_lt_cons_iff, ← not_lt (a := bs)]
  rcases lt_trichotomy c k with h | rfl | h
  · simp [h, h.not_gt, h.ne']
  · simp
  · simp [h, h.not_gt, h.ne']

theorem startBefore_iff {steps : List PathStep} (h : steps = [] ∨ EndsInChunk steps)
    (key : List Chunk) : startBefore steps key ↔ stepChunks steps ≤ key := by
  induction steps generalizing key with
  | nil => simp [startBefore, ← not_lt]
  | cons step steps ih =>
    have hend := h.resolve_left (cons_ne_nil _ _)
    cases step with
    | enter identifier => exact ih (.inr hend.of_enter) key
    | chunk c =>
      rw [stepChunks_chunk]
      cases key with
      | nil => simp [startBefore]
      | cons k key =>
        rw [cons_chunks_le]
        cases steps with
        | nil => simp [startBefore, ← not_lt]
        | cons step steps =>
          have hih := ih (.inr hend.of_cons) key
          obtain ⟨a, as, has⟩ := exists_cons_of_ne_nil hend.of_cons.stepChunks_ne_nil
          cases key with
          | nil => simp [startBefore, has]
          | cons d key => simp [startBefore, ← hih]

/-- With a chunk in every identifier the seek goes by the chunk sequences. -/
theorem startReaches_iff {load : Loader} {root : HbtrieNode} {path : Path} (h : ValidPath path)
    (key : List Chunk) : startReaches load root (some path) key ↔ pathChunks path ≤ key := by
  have hbails : startBails load root (pathSteps path) = false := by
    refine startBails_eq_false fun identifier hmem => ?_
    obtain ⟨id, hid, hmem⟩ := mem_flatMap.mp hmem
    rcases mem_cons.mp hmem with heq | hmem
    · cases heq
      exact h.2 _ hid
    · obtain ⟨c, -, heq⟩ := mem_map.mp hmem
      cases heq
  rw [startReaches, all_some, hbails, Bool.false_or, startBefore_iff (.inr h.endsInChunk),
    stepChunks_pathSteps]

theorem visits_databaseScanStart {db : Db} {depth : Nat} (h : Walkable db.load depth db.root)
    (startPath endPath : Option Path) :
    Visits (scanNextMove db.load) (databaseScanStart db startPath endPath).position.stack
      (((items db.load depth [] db.root.btree).filter fun i =>
        startReaches db.load db.root startPath i.chunks).map leafOf) := by
  cases startPath with
  | none =>
    have hall : (items db.load depth [] db.root.btree).filter (fun i =>
        startReaches db.load db.root none i.chunks) = items db.load depth [] db.root.btree :=
      filter_eq_self.mpr fun _ _ => rfl
    rw [hall]
    exact visits_all h.within
  | some path =>
    change Visits _ (seekToStartPath db.load db.root path) _
    rw [seekToStartPath_eq]
    have hseek := seekSteps_start h (show passedChunks [] = [] from rfl) (.finished rfl)
      (pathSteps path)
    split at hseek
    · rename_i hbails
      have hall : (items db.load depth [] db.root.btree).filter (fun i =>
          startReaches db.load db.root (some path) i.chunks) =
          items db.load depth [] db.root.btree :=
        filter_eq_self.mpr fun i _ => by simp [startReaches, hbails]
      rw [hseek, hall]
      exact visits_all h.within
    · rename_i hbails
      obtain ⟨frames, hframes, hvisits⟩ := hseek
      rw [hframes]
      rw [append_nil, reachedItems] at hvisits
      simpa [startReaches, hbails] using hvisits

end WaveDB.Database
