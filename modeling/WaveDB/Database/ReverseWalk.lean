import WaveDB.Database.EndSeek

/-!
What reverse scans visit.

A walk whose root frame is marked as pending, as `seek_to_end_path` may leave it, reads the chunks
behind the last value of the root node one entry too low, and leaves out what is below that value
(`visits_stale_root`). `visits_databaseScanStartReverse` puts this together with the seek: the keys
that a reverse scan comes to (`endVisits`), and the chunks it reads for them (`endReads`).
-/

namespace WaveDB.Database

open WaveDB.Basis HBTrie Workers List Option BnodeEntry IteratorFrame

/-! ### Giving up with a pending value -/

def keyBefore (bnode : Bnode) (k : Chunk) : Option Chunk :=
  keyChunk bnode (decrement (bnodeFind bnode k).2)

/-- The chunks that are read for a key: behind `last` the first one is that of the entry before. -/
def readBehind (bnode : Bnode) (last : Chunk) : List Chunk → List Chunk
  | [] => []
  | k :: key => if last < k then (keyBefore bnode k).toList ++ key else k :: key

def readLeaf (bnode : Bnode) (last : Chunk) (i : StoredItem) : ScanLeaf :=
  ⟨i.chunks, { i with chunks := readBehind bnode last i.chunks }⟩

/-- The keys that are visited: all but those below `last`. -/
def notUnder (last : Chunk) : List Chunk → Bool
  | k :: _ :: _ => decide (k ≠ last)
  | _ => true

variable {root : HbtrieNode} {load : Loader}

section Stale

variable {depth : Nat} {bnode : Bnode} {lower mid upper : List BnodeEntry} {v x y : BnodeEntry}
  {rest : List ScanLeaf} {index : Nat}

theorem keyBefore_eq (hsorted : bnode.Sorted) {pre post : List BnodeEntry}
    (hsplit : bnode.entries = pre ++ y :: x :: post) (hplain : y.isBnodeChild = false) :
    keyBefore bnode x.key = some y.key := by
  have hsplit' : bnode.entries = (pre ++ [y]) ++ x :: post := by
    rw [hsplit, append_assoc]
    rfl
  have hget : bnode.entries[pre.length]? = some y := by simp [hsplit]
  rw [keyBefore, hsorted.bnodeFind_index hsplit', length_append]
  change keyChunk bnode (some pre.length) = _
  rw [keyChunk, bnodeGet, bind_some, hget]
  simp [hplain]

theorem readsAs_readLeaf {last k k' : Chunk} (hlt : last < k)
    (hbefore : keyBefore bnode k = some k') : ReadsAs (readLeaf bnode last) [k] [k'] := by
  intro rest content pathMeta
  simp [readLeaf, readBehind, hlt, hbefore]

theorem slot_of_storedValue {content : Content} {pathMeta : List PathSubscriptMeta}
    (h : x.storedValue = some (content, pathMeta)) :
    ∃ node, x.slot = .value content pathMeta node := by
  unfold storedValue at h
  split at h
  · rename_i hslot
    cases h
    exact ⟨_, hslot⟩
  · cases h

theorem slot_of_storedValue_none (hplain : x.isBnodeChild = false) (h : x.storedValue = none) :
    ∃ node, x.slot = .child node := by
  cases hslot : x.slot with
  | child node => exact ⟨node, rfl⟩
  | childBnode node => simp [isBnodeChild, hslot] at hplain
  | value content pathMeta node => simp [storedValue, hslot] at h

theorem entryItems_valueless {leaf : StoredItem → ScanLeaf} {above : List Chunk}
    (hown : x.own above = []) :
    ((entryItems load depth above x).map leaf).reverse = belowReversed leaf load depth above x := by
  rw [entryItems, hown, nil_append]
  rfl

section Pending

variable (hsorted : bnode.Sorted) (hwithin : Within load (depth + 1) bnode)
  (hplain : ∀ e ∈ bnode.entries, e.isBnodeChild = false)

include hsorted hwithin hplain

/-- The subtree of an entry behind the last value is walked with the chunk of the entry before. -/
theorem visits_stale_below {child : Bnode}
    (hsplit : bnode.entries = lower ++ v :: (mid ++ x :: upper))
    (hbelow : x.loadedBelow load = some child) (hrest : Visits (scanPrevMove load)
      ⟨false, [⟨bnode, some (lower.length + mid.length), true, []⟩]⟩ rest) :
    Visits (scanPrevMove load) ⟨true, [newFrame child [x.key],
        ⟨bnode, some (lower.length + mid.length), true, []⟩]⟩
      (belowReversed (readLeaf bnode v.key) load depth [] x ++ rest) := by
  obtain ⟨pre, y, hpre⟩ : ∃ pre y, lower ++ v :: mid = pre ++ [y] :=
    ⟨_, _, (dropLast_append_getLast (by simp)).symm⟩
  have hentries : bnode.entries = pre ++ y :: x :: upper := by
    rw [hsplit, ← cons_append, ← append_assoc, hpre, append_assoc]
    rfl
  have hlength : lower.length + mid.length = pre.length := by
    have hlength := congrArg length hpre
    simp only [length_append, length_cons, length_nil] at hlength
    omega
  have hget : bnode.entries[pre.length]? = some y := by simp [hentries]
  have hplainy := hplain y (mem_of_getElem? hget)
  have hx : x ∈ bnode.entries := by simp [hsplit]
  have hlt : v.key < x.key := by
    have hpair : Ascending key (lower ++ v :: (mid ++ x :: upper)) := hsplit ▸ hsorted
    exact (pairwise_cons.mp (pairwise_append.mp hpair).2.1).1 x (by simp)
  have hleaf := readsAs_readLeaf hlt (keyBefore_eq hsorted hentries hplainy)
  have hkey : x.keyChunks = [x.key] := by
    rw [keyChunks, hplain x hx]
    rfl
  have hstack : descendedChunks [⟨bnode, some pre.length, true, []⟩] = [y.key] := by
    rw [descendedChunks_pending hget (show descendedChunks [] = [] from rfl), keyChunks, hplainy]
    rfl
  have hwithin' := hwithin x hx child hbelow
  rw [hlength] at hrest ⊢
  cases depth with
  | zero => exact hwithin'.elim
  | succ depth =>
    rw [belowReversed_eq hbelow, hkey]
    exact visits_prev_seeking hleaf (childrenVisited hleaf hwithin') hstack hrest (some 0)

/-- The walk from a pending frame: behind the last value the chunks are misread, and the value is
visited without what is below it. -/
theorem visits_stale (hsplit : bnode.entries = lower ++ v :: (mid ++ upper))
    (hvalue : v.storedValue.isSome) (hmid : ∀ e ∈ mid, e.storedValue = none) :
    Visits (scanPrevMove load) ⟨false, [⟨bnode, some (lower.length + mid.length), true, []⟩]⟩
      (((mid.flatMap (entryItems load depth [])).map (readLeaf bnode v.key)).reverse ++
        (((v.own []).map leafOf).reverse ++ reversedItems load depth [] lower)) := by
  -- From the right: each step takes the last entry before `upper`.
  induction mid using reverseRecOn generalizing upper with
  | nil =>
    obtain ⟨⟨content, pathMeta⟩, hstored⟩ := isSome_iff_exists.mp hvalue
    obtain ⟨node, hslot⟩ := slot_of_storedValue hstored
    have hget : bnode.entries[lower.length]? = some v := by simp [hsplit]
    have hlower : Visits (scanPrevMove load) ⟨false, [⟨bnode, decrement lower.length, false, []⟩]⟩
        (firstReversed leafOf load depth [] bnode lower.length ++ []) :=
      visits_prev (readsAs_leafOf []) hwithin (show descendedChunks [] = [] from rfl)
        (.finished rfl) (by simp [hsplit])
    rw [firstReversed, hsplit, take_left, append_nil] at hlower
    exact visits_prev_value (readsAs_leafOf []) hget hslot rfl (.inl rfl) hlower
  | append_singleton mid x ih =>
    have hsplit' : bnode.entries = lower ++ v :: (mid ++ (x :: upper)) := by
      rw [hsplit, append_assoc]
      rfl
    have hrest := ih hsplit' fun e he => hmid e (mem_append_left _ he)
    have hgetx : bnode.entries[lower.length + mid.length + 1]? = some x := by
      rw [hsplit', getElem?_append_right (by omega), add_assoc]
      simp
    have hplainx := hplain x (mem_of_getElem? hgetx)
    obtain ⟨node, hslot⟩ := slot_of_storedValue_none hplainx (hmid x (by simp))
    have hown : x.own [] = [] := by rw [own, hslot]
    have hkey : x.keyChunks = [x.key] := by
      rw [keyChunks, hplainx]
      rfl
    rw [length_append, length_singleton, ← add_assoc, flatMap_append, flatMap_singleton, map_append,
      reverse_append, append_assoc, entryItems_valueless hown]
    cases hbelow : x.loadedBelow load with
    | none =>
      rw [belowReversed, hbelow]
      refine .moved ?_ hrest
      simp [scanPrevMove, hgetx, scanPrevEntry, hslot, IteratorFrame.below, hbelow, decrement]
    | some child =>
      refine .moved ?_ (visits_stale_below hsorted hwithin hplain hsplit' hbelow hrest)
      simp [scanPrevMove, hgetx, scanPrevEntry, hslot, IteratorFrame.below, hbelow, decrement, hkey]

/-- The walk that starts with a pending root frame whose last entry has no value. -/
theorem visits_stale_seeking (hsplit : bnode.entries = lower ++ v :: (mid ++ [x]))
    (hvalue : v.storedValue.isSome) (hmid : ∀ e ∈ mid ++ [x], e.storedValue = none) :
    Visits (scanPrevMove load) ⟨true, [⟨bnode, some 0, true, []⟩]⟩
      ((((mid ++ [x]).flatMap (entryItems load depth [])).map (readLeaf bnode v.key)).reverse ++
        (((v.own []).map leafOf).reverse ++ reversedItems load depth [] lower)) := by
  have hlast : bnode.entries.getLast? = some x := by
    rw [hsplit, ← cons_append, ← append_assoc, getLast?_concat]
  have hlength : bnode.entries.length - 1 = lower.length + mid.length + 1 := by
    rw [hsplit]
    simp [add_assoc]
  have hx := mem_of_getLast? hlast
  obtain ⟨node, hslot⟩ := slot_of_storedValue_none (hplain x hx) (hmid x (by simp))
  have hown : x.own [] = [] := by rw [own, hslot]
  have hkey : x.keyChunks = [x.key] := by
    rw [keyChunks, hplain x hx]
    rfl
  cases hbelow : x.loadedBelow load with
  | none =>
    have hsplit' : bnode.entries = lower ++ v :: ((mid ++ [x]) ++ []) := by
      rw [hsplit, append_nil]
    refine .moved ?_ (visits_stale hsorted hwithin hplain hsplit' hvalue hmid)
    simp [scanPrevMove, seekToRightmostMove, hlast, IteratorFrame.below, hbelow, hlength, add_assoc]
  | some child =>
    have hrest := visits_stale hsorted hwithin hplain hsplit hvalue
      fun e he => hmid e (mem_append_left _ he)
    rw [flatMap_append, flatMap_singleton, map_append, reverse_append,
      append_assoc, entryItems_valueless hown]
    refine .moved ?_ (visits_stale_below hsorted hwithin hplain hsplit hbelow hrest)
    simp [scanPrevMove, seekToRightmostMove, hlast, IteratorFrame.below, hbelow, hlength, hslot,
      decrement, hkey]

end Pending

/-- The walk that starts with a pending root frame whose last entry has a value is not misled. -/
theorem visits_stale_value (hwithin : Within load (depth + 1) bnode)
    (hsplit : bnode.entries = lower ++ [v]) (hvalue : v.storedValue.isSome) :
    Visits (scanPrevMove load) ⟨true, [⟨bnode, some 0, true, []⟩]⟩
      (reversedItems load depth [] bnode.entries) := by
  obtain ⟨⟨content, pathMeta⟩, hstored⟩ := isSome_iff_exists.mp hvalue
  obtain ⟨node, hslot⟩ := slot_of_storedValue hstored
  have hget : bnode.entries[lower.length]? = some v := by simp [hsplit]
  have hlast : bnode.entries.getLast? = some v := by rw [hsplit, getLast?_concat]
  have hlength : bnode.entries.length = lower.length + 1 := by rw [hsplit, length_append]; rfl
  have hlower := visits_prev (readsAs_leafOf []) hwithin (show descendedChunks [] = [] from rfl)
    (.finished rfl) (show lower.length ≤ bnode.entries.length by omega)
  have hpending := visits_prev_value (readsAs_leafOf []) hget hslot
    (show descendedChunks [] = [] from rfl) (.inl rfl) hlower
  have hall : reversedItems load depth [] bnode.entries =
      belowReversed leafOf load depth [] v ++ (((v.own []).map leafOf).reverse ++
        (firstReversed leafOf load depth [] bnode lower.length ++ [])) := by
    rw [append_nil, ← firstReversed_succ hget, ← hlength, firstReversed, take_length]
    rfl
  rw [hall]
  cases hbelow : v.loadedBelow load with
  | none =>
    rw [belowReversed, hbelow]
    refine .moved ?_ hpending
    simp [scanPrevMove, seekToRightmostMove, hlast, IteratorFrame.below, hbelow, hlength]
  | some child =>
    refine .moved ?_ (childrenVisited (readsAs_leafOf []) hwithin v (mem_of_getElem? hget)
      child hbelow _ _ (descendedChunks_pending hget rfl) hpending).1
    simp [scanPrevMove, seekToRightmostMove, hlast, IteratorFrame.below, hbelow, hlength, hslot]

/-- What is visited behind, at and before the last value, as a part of all items. -/
theorem items_stale (hes : ∀ e ∈ root.btree.entries, e.Walkable load depth)
    (hsorted : root.btree.Sorted) (hsplit : root.btree.entries = lower ++ v :: mid) :
    (((items load (depth + 1) [] root.btree).filter fun i => notUnder v.key i.chunks).map
        (readLeaf root.btree v.key)).reverse =
      ((mid.flatMap (entryItems load depth [])).map (readLeaf root.btree v.key)).reverse ++
        (((v.own []).map leafOf).reverse ++ reversedItems load depth [] lower) := by
  have hpair : Ascending key (lower ++ v :: mid) := hsplit ▸ hsorted
  obtain ⟨-, hmid, hlower⟩ := pairwise_append.mp hpair
  have hkeep : ∀ k r, k ≠ v.key → notUnder v.key (k :: r) = true := by
    intro k r hne
    cases r with
    | nil => rfl
    | cons d r => simp [notUnder, hne]
  have hbefore := filter_entryItems [] (notUnder v.key) (b := true)
    (fun e (he : e ∈ lower) => hes e (by simp [hsplit, he]))
    fun e he r => hkeep e.key r (hlower e he v mem_cons_self).ne
  have hbehind := filter_entryItems [] (notUnder v.key) (b := true)
    (fun e (he : e ∈ mid) => hes e (by simp [hsplit, he]))
    fun e he r => hkeep e.key r ((pairwise_cons.mp hmid).1 e he).ne'
  have hown := filter_entryItem [] (notUnder v.key) (fun _ _ => false) (hes v (by simp [hsplit]))
    fun next _ d r => by simp [notUnder]
  have hnone : (((v.loadedTrieNode load).map fun next =>
      (items load depth ([] ++ [v.key]) next.btree).filter fun _ => false).getD []) = [] := by
    cases v.loadedTrieNode load with
    | none => rfl
    | some next => exact filter_false _
  rw [hnone, append_nil, if_pos (show notUnder v.key [v.key] from rfl)] at hown
  have hread : ∀ e ∈ root.btree.entries, e.key ≤ v.key → ∀ i ∈ entryItems load depth [] e,
      readLeaf root.btree v.key i = leafOf i := by
    intro e he hle i hi
    obtain ⟨r, hr⟩ := chunks_of_mem_entryItems (hes e he) hi
    obtain ⟨chunks, content, pathMeta⟩ := i
    obtain rfl : chunks = _ := hr
    simp [readLeaf, readBehind, hle.not_gt, leafOf]
  have hreadlower : (lower.flatMap (entryItems load depth [])).map (readLeaf root.btree v.key) =
      (lower.flatMap (entryItems load depth [])).map leafOf := by
    refine map_congr_left fun i hi => ?_
    obtain ⟨e, he, hi⟩ := mem_flatMap.mp hi
    exact hread e (by simp [hsplit, he]) (hlower e he v mem_cons_self).le i hi
  have hreadown : (v.own []).map (readLeaf root.btree v.key) = (v.own []).map leafOf := by
    refine map_congr_left fun i hi => hread v (by simp [hsplit]) (le_refl _) i ?_
    exact mem_append_left _ hi
  change (((root.btree.entries.flatMap (entryItems load depth [])).filter _).map _).reverse = _
  simp only [length_nil, drop_zero, if_true] at hbefore hbehind hown
  rw [hsplit, flatMap_append, flatMap_cons, filter_append, filter_append, hbefore, hown, hbehind,
    map_append, map_append, hreadlower, hreadown, reverse_append, reverse_append, append_assoc]
  rfl

end Stale

/-! ### What a reverse scan visits -/

def lastValueKey (bnode : Bnode) : Option Chunk :=
  if bnode.entries.getLast?.any fun e => e.storedValue.isSome then none
  else (bnode.entries.reverse.find? fun e => e.storedValue.isSome).map key

def endOverrun (load : Loader) (root : HbtrieNode) (path : Path) : Option Chunk :=
  if endBails load root (pathSteps path) && endStale load root (pathSteps path) then
    lastValueKey root.btree
  else none

def endVisits (load : Loader) (root : HbtrieNode) (endPath : Option Path) (key : List Chunk) :
    Bool :=
  endPath.all fun path =>
    match endOverrun load root path with
    | some last => notUnder last key
    | none => endBails load root (pathSteps path) || endPasses load root (pathSteps path) key

def endReads (load : Loader) (root : HbtrieNode) (endPath : Option Path) (key : List Chunk) :
    List Chunk :=
  match endPath.bind (endOverrun load root) with
  | some last => readBehind root.btree last key
  | none => key

def endLeafOf (load : Loader) (root : HbtrieNode) (endPath : Option Path) (i : StoredItem) :
    ScanLeaf :=
  ⟨i.chunks, { i with chunks := endReads load root endPath i.chunks }⟩

theorem endLeafOf_eq {endPath : Option Path} (h : endPath.bind (endOverrun load root) = none) :
    endLeafOf load root endPath = leafOf := by
  funext i
  rw [endLeafOf, endReads, h]
  rfl

theorem endStale_spec {steps : List PathStep} (h : endStale load root steps) :
    root.btree.level ≤ 1 ∧ ∃ t ∈ root.btree.entries, t.storedValue.isSome = true := by
  induction steps using stepsInduction with
  | nil => cases h
  | enter identifier steps ih => exact ih (Bool.and_eq_true_iff.mp h).2
  | chunk c steps ih =>
    obtain ⟨hlevel, htarget⟩ := Bool.and_eq_true_iff.mp h
    have hlevel := of_decide_eq_true hlevel
    obtain ⟨t, ht, hvalue⟩ := (any_eq_true _ _).mp htarget
    rw [endEntry, endLeaf_of_leaf hlevel, bind_some] at ht
    obtain ⟨index, -, hget⟩ := bind_eq_some_iff.mp ht
    exact ⟨hlevel, t, mem_of_getElem? hget, hvalue⟩

theorem exists_last_value {bnode : Bnode} {t : BnodeEntry} (ht : t ∈ bnode.entries)
    (hvalue : t.storedValue.isSome) :
    ∃ lower v mid, bnode.entries = lower ++ v :: mid ∧ v.storedValue.isSome ∧
      (∀ e ∈ mid, e.storedValue = none) ∧
      lastValueKey bnode = if mid = [] then none else some v.key := by
  have hfound : (bnode.entries.reverse.find? fun e => e.storedValue.isSome).isSome = true :=
    find?_isSome.mpr ⟨t, mem_reverse.mpr ht, hvalue⟩
  obtain ⟨v, hv⟩ := isSome_iff_exists.mp hfound
  obtain ⟨hvalue, behind, before, hreverse, hbehind⟩ := find?_eq_some_iff_append.mp hv
  have hsplit : bnode.entries = before.reverse ++ v :: behind.reverse := by
    have hentries := congrArg reverse hreverse
    rwa [reverse_reverse, reverse_append, reverse_cons, append_assoc] at hentries
  refine ⟨before.reverse, v, behind.reverse, hsplit, hvalue, fun e he => ?_, ?_⟩
  · simpa using hbehind e (mem_reverse.mp he)
  · have hlast : bnode.entries.getLast? = (behind ++ v :: before).head? := by
      rw [← hreverse, head?_reverse]
    rw [lastValueKey, hv, hlast]
    cases behind with
    | nil => simp [hvalue]
    | cons x behind =>
      have hx : x.storedValue = none := by simpa using hbehind x mem_cons_self
      simp [hx]

theorem visits_stale_root {depth : Nat} (h : Walkable load depth root)
    (hlevel : root.btree.level ≤ 1) {t : BnodeEntry} (ht : t ∈ root.btree.entries)
    (hvalue : t.storedValue.isSome) :
    Visits (scanPrevMove load) ⟨true, [⟨root.btree, some 0, true, []⟩]⟩
      (match lastValueKey root.btree with
        | none => ((items load depth [] root.btree).map leafOf).reverse
        | some last => (((items load depth [] root.btree).filter fun i =>
          notUnder last i.chunks).map (readLeaf root.btree last)).reverse) := by
  obtain ⟨n, depth, rfl, htree, hes⟩ := h.level
  obtain rfl : n = 0 := by
    have hn := htree.level_eq
    omega
  have hplain : ∀ e ∈ root.btree.entries, e.isBnodeChild = false := fun e he => (hes e he).1
  obtain ⟨lower, v, mid, hsplit, hv, hmid, hlast⟩ := exists_last_value ht hvalue
  rw [hlast]
  rcases eq_nil_or_concat mid with rfl | ⟨mid, x, rfl⟩
  · exact visits_stale_value h.within hsplit hv
  · rw [concat_eq_append] at hsplit hmid ⊢
    rw [if_neg (by simp)]
    change Visits _ _ (((items load (depth + 1) [] root.btree).filter fun i =>
      notUnder v.key i.chunks).map (readLeaf root.btree v.key)).reverse
    rw [items_stale hes htree.sorted hsplit]
    exact visits_stale_seeking htree.sorted h.within hplain hsplit hv hmid

theorem visits_databaseScanStartReverse {db : Db} {depth : Nat} (h : Walkable db.load depth db.root)
    (startPath endPath : Option Path) :
    Visits (scanPrevMove db.load) (databaseScanStartReverse db startPath endPath).position
      (((items db.load depth [] db.root.btree).filter fun i =>
        endVisits db.load db.root endPath i.chunks).map
          (endLeafOf db.load db.root endPath)).reverse := by
  have hall : endPath.bind (endOverrun db.load db.root) = none →
      (∀ key, endVisits db.load db.root endPath key) →
      (((items db.load depth [] db.root.btree).filter fun i =>
        endVisits db.load db.root endPath i.chunks).map
          (endLeafOf db.load db.root endPath)).reverse =
      ((items db.load depth [] db.root.btree).map leafOf).reverse := by
    intro hoverrun hvisits
    rw [endLeafOf_eq hoverrun, filter_eq_self.mpr fun i _ => hvisits i.chunks]
  cases endPath with
  | none =>
    rw [hall rfl fun _ => rfl]
    exact visits_all_reverse h.within
  | some path =>
    change Visits _ (seekToEndPath db.load db.root path) _
    unfold seekToEndPath
    split
    · rename_i hempty
      subst hempty
      rw [hall rfl fun _ => rfl]
      exact visits_all_reverse h.within
    · rename_i hne
      have hseek := seekSteps_end h (show descendedChunks [] = [] from rfl) (.finished rfl)
        (seekable_pathSteps hne) (some 0)
      split at hseek
      · rename_i hbails
        obtain ⟨s, hs, hreset⟩ := hseek
        change seekSteps _ _ (newFrame db.root.btree []) [] = _ at hs
        simp only [hs]
        change Visits _ (ReversePosition.mk true (resetBottom s)) _
        rw [hreset]
        change Visits _ (ReversePosition.mk true [⟨db.root.btree, some 0,
          endStale db.load db.root (pathSteps path), []⟩]) _
        cases hstale : endStale db.load db.root (pathSteps path) with
        | false =>
          have hoverrun : endOverrun db.load db.root path = none := by
            simp [endOverrun, hstale]
          rw [hall hoverrun fun key => by simp [endVisits, hoverrun, hbails]]
          exact visits_all_reverse h.within
        | true =>
          obtain ⟨hlevel, t, ht, hvalue⟩ := endStale_spec hstale
          have hoverrun : endOverrun db.load db.root path = lastValueKey db.root.btree := by
            simp [endOverrun, hstale, hbails]
          have hwalk := visits_stale_root h hlevel ht hvalue
          cases hlast : lastValueKey db.root.btree with
          | none =>
            rw [hlast] at hoverrun hwalk
            rw [hall hoverrun fun key => by simp [endVisits, hoverrun, hbails]]
            exact hwalk
          | some last =>
            rw [hlast] at hoverrun hwalk
            have hleaf : endLeafOf db.load db.root (some path) = readLeaf db.root.btree last := by
              funext i
              rw [endLeafOf, endReads, bind_some, hoverrun]
              rfl
            rw [hleaf]
            simpa only [endVisits, all_some, hoverrun] using hwalk
      · rename_i hbails
        obtain ⟨s, hs, hvisits⟩ := hseek
        change seekSteps _ _ (newFrame db.root.btree []) [] = _ at hs
        simp only [hs]
        have hoverrun : endOverrun db.load db.root path = none := by
          simp [endOverrun, hbails]
        have hbind : (some path).bind (endOverrun db.load db.root) = none := hoverrun
        rw [endLeafOf_eq hbind]
        simpa [passedItems, endVisits, hoverrun, hbails] using hvisits

end WaveDB.Database
