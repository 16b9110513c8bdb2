import WaveDB.Graph.Scan

/-!
Traversals (`graph_execute_out`, `graph_execute_in` and `graph_execute_has` in
`Layers/graph/graph_ops.c`).

The scanned range goes from the predicate to the predicate with a `0` behind it, so that it holds
every predicate that continues it with a byte below `0` (`between_successor_iff`).
-/

namespace WaveDB.Graph

open WaveDB.Basis HBTrie Database List GraphIndex VertexSet

/-! ### Stored triples -/

/-- A string of a triple: not empty, without `/` and NUL. -/
structure ProperString (data : Bytes) : Prop where
  nonempty : data ≠ []
  slashFree : slash ∉ data
  nulFree : NulFree data

/-- A triple of proper strings that fits the buffers for the end bounds of both indexes. -/
structure Triple.Proper (t : Triple) : Prop where
  subject : ProperString t.subject
  predicate : ProperString t.predicate
  object : ProperString t.object
  fitsSpo : (buildPrefixVec spo.name t.subject t.predicate).length + 2 ≤ bufferSize
  fitsPos : (buildPrefixVec pos.name t.predicate t.object).length + 2 ≤ bufferSize

def GraphIndex.components (index : GraphIndex) (t : Triple) : List Bytes :=
  [index.name, index.first t, index.second t, index.third t]

def scannedIndexes : List GraphIndex := [.spo, .pos]

/-- The layer holds exactly these triples: their keys are visible, and no other key is stored
under the names of the scanned indexes. -/
structure HoldsTriples (db : Db) (subtree : Option DatabaseSubtree) (T : List Triple) : Prop where
  proper : ∀ t ∈ T, t.Proper
  stored : ∀ t ∈ T, ∀ index ∈ scannedIndexes,
    ∃ value, db.Shows (layerPrefix subtree ++ index.components t) value
  only : ∀ index ∈ scannedIndexes, ∀ p value, db.Shows p value →
    BeginsWith db.chunkSize (layerPrefix subtree ++ [index.name]) p →
    ∃ t ∈ T, p = layerPrefix subtree ++ index.components t

/-- An operator succeeds with exactly the expected vertices. -/
def Yields (result : VertexSet × Int) (expected : Bytes → Prop) : Prop :=
  result.2 = 0 ∧ ∀ vertex, vertex ∈ result.1 ↔ expected vertex

/-! ### Components of keys -/

section Keys

variable {a b c name : Bytes}

theorem keyLastComponent_append (front : Bytes) (hslash : slash ∉ c) (hnul : NulFree c) :
    keyLastComponent (front ++ slash :: c) = some (c.take (bufferSize - 1)) := by
  have hmem : slash ∈ front ++ slash :: c := mem_append_right _ mem_cons_self
  have hlast : (front ++ slash :: c).rtakeWhile (· ≠ slash) = c := by
    rw [rtakeWhile, reverse_append, reverse_cons, append_assoc, takeWhile_append_of_pos,
      singleton_append, takeWhile_cons_of_neg, append_nil, reverse_reverse]
    · simp
    · intro x hx
      rw [decide_eq_true_iff]
      rintro rfl
      exact hslash (mem_reverse.mp hx)
  have hstring : cString (c.take (bufferSize - 1)) = c.take (bufferSize - 1) := by
    rw [cString, takeWhile_eq_self_iff]
    intro x hx
    rw [decide_eq_true_iff]
    rintro rfl
    exact hnul (mem_of_mem_take hx)
  rw [keyLastComponent, if_pos hmem, hlast, hstring]

section Proper

variable (h : ProperString a)

include h

theorem ProperString.isSeparator_eq_false {x : UInt8} (hx : x ∈ a) : isSeparator x = false := by
  rw [isSeparator, Bool.or_eq_false_iff, beq_eq_false_iff_ne, beq_eq_false_iff_ne]
  constructor
  · rintro rfl
    exact h.slashFree hx
  · rintro rfl
    exact h.nulFree hx

theorem ProperString.dropWhile_append (rest : Bytes) :
    (a ++ slash :: rest).dropWhile (fun x => !isSeparator x) = slash :: rest := by
  rw [dropWhile_append_of_pos]
  · exact dropWhile_cons_of_neg (by decide)
  · intro x hx
    rw [h.isSeparator_eq_false hx]
    rfl

theorem ProperString.takeWhile_append (rest : Bytes) :
    (a ++ slash :: rest).takeWhile (fun x => !isSeparator x) = a := by
  rw [takeWhile_append_of_pos, takeWhile_cons_of_neg (by decide), append_nil]
  intro x hx
  rw [h.isSeparator_eq_false hx]
  rfl

theorem ProperString.dropWhile_separators (rest : Bytes) :
    (a ++ rest).dropWhile isSeparator = a ++ rest := by
  obtain ⟨x, tail, rfl⟩ := exists_cons_of_ne_nil h.nonempty
  refine dropWhile_cons_of_neg ?_
  rw [h.isSeparator_eq_false mem_cons_self]
  decide

end Proper

theorem skipComponents_append (n : Nat) (ha : ProperString a) (hb : ProperString b) (rest : Bytes) :
    skipComponents (n + 1) (a ++ slash :: (b ++ rest)) = skipComponents n (b ++ rest) := by
  obtain ⟨x, tail, rfl⟩ := exists_cons_of_ne_nil ha.nonempty
  have hdrop := ha.dropWhile_append (b ++ rest)
  rw [cons_append] at hdrop ⊢
  rw [skipComponents, hdrop, dropWhile_cons_of_pos (by decide), hb.dropWhile_separators]

theorem keyNthComponent_two (hname : ProperString name) (ha : ProperString a) (hb : ProperString b)
    (hfits : b.length < bufferSize) :
    keyNthComponent ([slash].intercalate [name, a, b, c]) 2 = some b := by
  have hkey : [slash].intercalate [name, a, b, c] =
      name ++ slash :: (a ++ slash :: (b ++ slash :: c)) := by
    simp
  have hhead : (name ++ slash :: (a ++ slash :: (b ++ slash :: c))).head? ≠ some slash := by
    obtain ⟨x, tail, rfl⟩ := exists_cons_of_ne_nil hname.nonempty
    intro h
    exact hname.slashFree (Option.some.inj h ▸ mem_cons_self)
  rw [hkey, keyNthComponent, if_neg hhead, skipComponents_append 1 hname ha,
    skipComponents_append 0 ha hb, skipComponents, Option.map_some, hb.takeWhile_append]
  simp [Option.filter, hb.nonempty, hfits]

theorem keyLastComponent_intercalate (hc : ProperString c) (hfits : c.length < bufferSize) :
    keyLastComponent ([slash].intercalate [name, a, b, c]) = some c := by
  have hkey : [slash].intercalate [name, a, b, c] =
      (name ++ slash :: (a ++ slash :: b)) ++ slash :: c := by
    simp
  rw [hkey, keyLastComponent_append _ hc.slashFree hc.nulFree, take_of_length_le (by omega)]

end Keys

/-! ### Scans of an index -/

def GraphIndex.keyOf (index : GraphIndex) (rest : Bytes) : Bytes :=
  slash :: index.name ++ slash :: rest

/-- A scan of the index between two keys returns the triple. -/
structure Selected (db : Db) (subtree : Option DatabaseSubtree) (index : GraphIndex)
    (lo hi : Bytes) (t : Triple) : Prop where
  between : Between (rawSegments slash [] lo) (rawSegments slash [] hi)
    [index.first t, index.second t, index.third t]
  reached : db.ScanReaches (some (layerPath db.chunkSize subtree (index.keyOf lo)))
    (some (layerPath db.chunkSize subtree (index.keyOf hi)))
    (layerPrefix subtree ++ index.components t)

variable {p : List Bytes} {a b : Bytes}

section Index

variable {db : Db} {depth : Nat} {subtree : Option DatabaseSubtree} {T : List Triple}
  {scan : LayerScan} {index : GraphIndex} {lo hi : Bytes} {t : Triple}

theorem GraphIndex.name_proper (index : GraphIndex) : ProperString index.name := by
  cases index <;> exact ⟨by decide, by decide, by decide⟩

theorem rawSegments_keyOf (index : GraphIndex) (rest : Bytes) :
    rawSegments slash [] (index.keyOf rest) = index.name :: rawSegments slash [] rest := by
  have hsplit : index.keyOf rest = [] ++ slash :: (index.name ++ slash :: rest) := rfl
  rw [hsplit, rawSegments_append, rawSegments_append,
    rawSegments_eq_self index.name_proper.nonempty index.name_proper.slashFree]
  rfl

theorem layerPath_keyOf (cs : ChunkSize) (index : GraphIndex) (rest : Bytes) :
    layerPath cs subtree (index.keyOf rest) =
      pathOf cs (layerPrefix subtree ++ [index.name] ++ rawSegments slash [] rest) := by
  rw [layerPath, rawSegments_keyOf, append_assoc]
  rfl

theorem LayerScans.beginsWith (h : LayerScans db subtree (index.keyOf lo) (index.keyOf hi) p) :
    BeginsWith db.chunkSize (layerPrefix subtree ++ [index.name]) p := by
  have hinside := h.inside
  rw [layerPath_keyOf, layerPath_keyOf, inRange_some_iff,
    componentChunks_append _ (rawSegments slash [] lo),
    componentChunks_append _ (rawSegments slash [] hi)] at hinside
  exact prefix_of_between hinside.1 hinside.2

theorem LayerScans.longer (h : LayerScans db subtree (index.keyOf lo) (index.keyOf hi) p) :
    (layerPrefix subtree).length < p.length := by
  have hle := h.beginsWith.length_le
  rw [length_append, length_singleton] at hle
  omega

theorem Triple.Proper.strings (h : t.Proper) (index : GraphIndex) :
    ProperString (index.first t) ∧ ProperString (index.second t) ∧
      ProperString (index.third t) := by
  cases index
  · exact ⟨h.subject, h.predicate, h.object⟩
  · exact ⟨h.predicate, h.object, h.subject⟩
  · exact ⟨h.object, h.subject, h.predicate⟩
  · exact ⟨h.predicate, h.subject, h.object⟩

theorem layerPrefix_nonempty {c : Bytes} (h : c ∈ layerPrefix subtree) : c ≠ [] := by
  cases subtree with
  | none => cases h
  | some st => exact (of_mem_rawSegments not_mem_nil h).1

theorem layerKey_components (h : t.Proper) (cs : ChunkSize) (index : GraphIndex) :
    layerKey cs subtree (layerPrefix subtree ++ index.components t) =
      [slash].intercalate (index.components t) := by
  obtain ⟨hfirst, hsecond, hthird⟩ := h.strings index
  rw [layerKey, map_reportedComponent, drop_left]
  intro c hc
  rcases mem_append.mp hc with hc | hc
  · exact layerPrefix_nonempty hc
  · simp only [components, mem_cons, not_mem_nil, or_false] at hc
    rcases hc with rfl | rfl | rfl | rfl
    · exact index.name_proper.nonempty
    · exact hfirst.nonempty
    · exact hsecond.nonempty
    · exact hthird.nonempty

theorem HoldsTriples.scan_keys (hT : HoldsTriples db subtree T) (hdb : db.Ok depth)
    (hclean : CleanSubtree subtree) (hscan : Scans db subtree scan)
    (hindex : index ∈ scannedIndexes) (hlo : NulFree lo) (hhi : NulFree hi) :
    ∃ keys, scan (index.keyOf lo) (index.keyOf hi) = .ok keys ∧
      ∀ key, key ∈ keys ↔ ∃ t ∈ T, Selected db subtree index lo hi t ∧
        key = [slash].intercalate (index.components t) := by
  have hbetween : ∀ t ∈ T, InRange (some (layerPath db.chunkSize subtree (index.keyOf lo)))
      (some (layerPath db.chunkSize subtree (index.keyOf hi)))
      (pathOf db.chunkSize (layerPrefix subtree ++ index.components t)) ↔
      Between (rawSegments slash [] lo) (rawSegments slash [] hi)
        [index.first t, index.second t, index.third t] := by
    intro t ht
    obtain ⟨hfirst, hsecond, hthird⟩ := (hT.proper t ht).strings index
    have hcomponents : layerPrefix subtree ++ index.components t = layerPrefix subtree ++
        [index.name] ++ [index.first t, index.second t, index.third t] := by
      rw [append_assoc]
      rfl
    rw [layerPath_keyOf, layerPath_keyOf, hcomponents]
    refine inRange_layer_iff (fun c => nulFree_of_mem_rawSegments hlo)
      (fun c => nulFree_of_mem_rawSegments hhi) fun c hc => ?_
    simp only [mem_cons, not_mem_nil, or_false] at hc
    rcases hc with rfl | rfl | rfl
    · exact hfirst.nulFree
    · exact hsecond.nulFree
    · exact hthird.nulFree
  obtain ⟨keys, hok, hmem⟩ := hscan.keys hdb hclean (cons_ne_nil _ _)
    (cons_ne_nil _ _) fun _ _ _ hscans => hscans.longer
  refine ⟨keys, hok, fun key => ?_⟩
  rw [hmem]
  constructor
  · rintro ⟨p, value, hshows, hscans, rfl⟩
    obtain ⟨t, ht, rfl⟩ := hT.only index hindex p value hshows hscans.beginsWith
    exact ⟨t, ht, ⟨(hbetween t ht).mp hscans.inside, hscans.reached⟩,
      layerKey_components (hT.proper t ht) _ _⟩
  · rintro ⟨t, ht, hselected, rfl⟩
    obtain ⟨value, hshows⟩ := hT.stored t ht index hindex
    exact ⟨_, value, hshows, ⟨(hbetween t ht).mpr hselected.between, hselected.reached⟩,
      (layerKey_components (hT.proper t ht) _ _).symm⟩

end Index

/-! ### Exactness -/

/-- The triples that are selected give the results that are wanted, and no others. -/
structure SelectsWanted (T : List Triple) (selected wanted : Triple → Prop)
    (result : Triple → Bytes) : Prop where
  sound : ∀ t ∈ T, selected t → ∃ t' ∈ T, wanted t' ∧ result t' = result t
  complete : ∀ t ∈ T, wanted t → ∃ t' ∈ T, selected t' ∧ result t' = result t

/-- What follows the name of the index in the bounds of a scan for two components. -/
def edgeStart (a b : Bytes) : Bytes := a ++ slash :: b ++ [slash]

@[inherit_doc edgeStart]
def edgeEnd (a b : Bytes) : Bytes := a ++ slash :: b ++ [successor]

/-- What follows the name of the index in the bounds of the scan of `graph_execute_has`. -/
def hasLo (predicate value : Bytes) : GraphCmp → Bytes
  | .eq => edgeStart predicate value
  | _ => predicate ++ [slash]

@[inherit_doc hasLo]
def hasHi (predicate value : Bytes) : GraphCmp → Bytes
  | .eq => edgeEnd predicate value
  | .lt => edgeStart predicate value
  | .lte => appendSuccessor (predicate ++ slash :: value)
  | .gt | .gte => predicate ++ [successor]

section Exact

variable {db : Db} {depth : Nat} {subtree : Option DatabaseSubtree} {T : List Triple}
  {scan : LayerScan} {index : GraphIndex} {S output : VertexSet} {vertices : List Bytes}
  {selected wanted : Triple → Prop} {result : Triple → Bytes} {prefixFor : Bytes → Bytes}

theorem appendSuccessor_append (front : Bytes) {rest : Bytes} (hne : rest ≠ []) :
    appendSuccessor (front ++ rest) = front ++ appendSuccessor rest := by
  have hlast : (front ++ rest).getLast? = rest.getLast? := getLast?_append_of_ne_nil _ hne
  rw [appendSuccessor, appendSuccessor, strippedPrefix, strippedPrefix, hlast]
  split
  · rw [dropLast_append_of_ne_nil hne, append_assoc]
  · rw [append_assoc]

theorem appendSuccessor_slash (front : Bytes) :
    appendSuccessor (front ++ [slash]) = front ++ [successor] :=
  appendSuccessor_append front (by decide)

theorem buildPrefixVec_eq (index : GraphIndex) (a b : Bytes) :
    buildPrefixVec index.name a b = index.keyOf (edgeStart a b) := by
  simp [buildPrefixVec, keyOf, edgeStart]

theorem appendSuccessor_buildPrefixVec (index : GraphIndex) (a b : Bytes) :
    appendSuccessor (buildPrefixVec index.name a b) = index.keyOf (edgeEnd a b) := by
  rw [buildPrefixVec, appendSuccessor_slash]
  simp [keyOf, edgeEnd]

theorem hasStart_eq (predicate value : Bytes) (cmp : GraphCmp) :
    hasStart predicate value cmp = pos.keyOf (hasLo predicate value cmp) := by
  cases cmp with
  | eq => exact buildPrefixVec_eq _ _ _
  | gt | gte | lt | lte => simp [hasStart, hasLo, keyOf]

theorem hasEnd_eq (predicate value : Bytes) (cmp : GraphCmp) :
    hasEnd predicate value cmp = pos.keyOf (hasHi predicate value cmp) := by
  cases cmp with
  | eq => exact appendSuccessor_buildPrefixVec _ _ _
  | lt => simp [hasEnd, hasHi, edgeStart, keyOf]
  | lte =>
    have hsplit : slash :: pos.name ++ slash :: predicate ++ slash :: value =
        (slash :: pos.name ++ [slash]) ++ (predicate ++ slash :: value) := by simp
    rw [hasEnd, hsplit, appendSuccessor_append _ (by simp)]
    simp [hasHi, keyOf]
  | gt | gte =>
    rw [hasEnd, appendSuccessor_slash]
    simp [hasHi, keyOf]

theorem nulFree_append (ha : NulFree a) (hb : NulFree b) : NulFree (a ++ b) :=
  fun h0 => (mem_append.mp h0).elim ha hb

theorem nulFree_edge (ha : NulFree a) (hb : NulFree b) :
    NulFree (edgeStart a b) ∧ NulFree (edgeEnd a b) := by
  have hslash : NulFree [slash] := by decide
  have hfront : NulFree (a ++ slash :: b) := nulFree_append ha (nulFree_append hslash hb)
  exact ⟨nulFree_append hfront hslash, nulFree_append hfront (by decide)⟩

theorem nulFree_has {p v : Bytes} (hp : NulFree p) (hv : NulFree v) (cmp : GraphCmp) :
    NulFree (hasLo p v cmp) ∧ NulFree (hasHi p v cmp) := by
  have hslash : NulFree [slash] := by decide
  have hsuccessor : NulFree [successor] := by decide
  cases cmp with
  | eq => exact nulFree_edge hp hv
  | lt => exact ⟨nulFree_append hp hslash, (nulFree_edge hp hv).1⟩
  | lte =>
    refine ⟨nulFree_append hp hslash, nulFree_append (fun h0 => ?_) hsuccessor⟩
    have hboth : NulFree (p ++ slash :: v) := nulFree_append hp (nulFree_append hslash hv)
    unfold strippedPrefix at h0
    split at h0
    · exact hboth (dropLast_subset _ h0)
    · exact hboth h0
  | gt | gte => exact ⟨nulFree_append hp hslash, nulFree_append hp hsuccessor⟩

/-- Results that come from the selected triples are the wanted ones exactly when the selection
gives them. -/
theorem selectsWanted_iff {vertex : Bytes → Prop}
    (h : ∀ v, vertex v ↔ ∃ t ∈ T, selected t ∧ result t = v) :
    (∀ v, vertex v ↔ ∃ t ∈ T, wanted t ∧ result t = v) ↔
      SelectsWanted T selected wanted result := by
  constructor
  · intro hall
    constructor
    · intro t ht hselected
      exact (hall _).mp ((h _).mpr ⟨t, ht, hselected, rfl⟩)
    · intro t ht hwanted
      exact (h _).mp ((hall _).mpr ⟨t, ht, hwanted, rfl⟩)
  · intro hselects v
    rw [h]
    constructor
    · rintro ⟨t, ht, hselected, rfl⟩
      exact hselects.sound t ht hselected
    · rintro ⟨t, ht, hwanted, rfl⟩
      exact hselects.complete t ht hwanted

theorem mem_scanEach (v : Bytes) :
    v ∈ (scanEach scan prefixFor vertices output).1 ↔ v ∈ output ∨ ∃ vertex ∈ vertices,
      (prefixFor vertex).length + 2 ≤ bufferSize ∧ ∃ keys,
        scan (prefixFor vertex) (appendSuccessor (prefixFor vertex)) = .ok keys ∧
          ∃ key ∈ keys, keyLastComponent key = some v := by
  induction vertices generalizing output with
  | nil => simp [scanEach]
  | cons vertex rest ih =>
    rw [scanEach, exists_mem_cons_iff]
    split
    · rename_i hlong
      have hnot : ¬ (prefixFor vertex).length + 2 ≤ bufferSize := by omega
      rw [ih, or_iff_right (not_and_of_not_left _ hnot)]
    · rename_i hfits
      rw [and_iff_right (show (prefixFor vertex).length + 2 ≤ bufferSize by omega)]
      split
      · rename_i rc herror
        simp only [ih, herror, reduceCtorEq, false_and, exists_false, false_or]
      · rename_i keys hok
        simp only [ih, hok, mem_addAll, mem_filterMap, Except.ok.injEq, exists_eq_left', or_assoc]

theorem scanEach_succeeds (h : ∀ vertex ∈ vertices, ∃ keys,
      scan (prefixFor vertex) (appendSuccessor (prefixFor vertex)) = .ok keys) :
    (scanEach scan prefixFor vertices output).2 = 0 := by
  induction vertices generalizing output with
  | nil => rfl
  | cons vertex rest ih =>
    obtain ⟨keys, hok⟩ := h vertex mem_cons_self
    have hrest := fun output => @ih output fun w hw => h w (mem_cons_of_mem _ hw)
    rw [scanEach, hok]
    split
    · exact hrest _
    · exact hrest _

theorem HoldsTriples.keyLastComponent_eq (hT : HoldsTriples db subtree T) {t : Triple}
    (ht : t ∈ T) (hindex : index ∈ scannedIndexes) :
    keyLastComponent ([slash].intercalate (index.components t)) = some (index.third t) := by
  obtain ⟨hsubject, hpredicate, hobject, hspo, hpos⟩ := hT.proper t ht
  simp only [buildPrefixVec, length_append, length_cons] at hspo hpos
  simp only [scannedIndexes, mem_cons, not_mem_nil, or_false] at hindex
  rcases hindex with rfl | rfl
  · exact keyLastComponent_intercalate hobject (by
      change t.object.length < bufferSize
      omega)
  · exact keyLastComponent_intercalate hsubject (by
      change t.subject.length < bufferSize
      omega)

theorem yields_scanEach_iff (hT : HoldsTriples db subtree T) (hdb : db.Ok depth)
    (hclean : CleanSubtree subtree) (hscan : Scans db subtree scan)
    (hindex : index ∈ scannedIndexes) {lo hi : Bytes → Bytes}
    (hstart : ∀ vertex, prefixFor vertex = index.keyOf (lo vertex))
    (hend : ∀ vertex, appendSuccessor (prefixFor vertex) = index.keyOf (hi vertex))
    (hlo : ∀ vertex ∈ S, NulFree (lo vertex)) (hhi : ∀ vertex ∈ S, NulFree (hi vertex)) :
    Yields (scanEach scan prefixFor S.vertices .init)
        (fun v => ∃ t ∈ T, wanted t ∧ index.third t = v) ↔
      SelectsWanted T (fun t => ∃ vertex ∈ S, (prefixFor vertex).length + 2 ≤ bufferSize ∧
        Selected db subtree index (lo vertex) (hi vertex) t) wanted index.third := by
  have hkeys : ∀ vertex ∈ S, ∃ keys,
      scan (prefixFor vertex) (appendSuccessor (prefixFor vertex)) = .ok keys ∧
        ∀ key, key ∈ keys ↔ ∃ t ∈ T, Selected db subtree index (lo vertex) (hi vertex) t ∧
          key = [slash].intercalate (index.components t) := by
    intro vertex hvertex
    rw [hend, hstart]
    exact hT.scan_keys hdb hclean hscan hindex (hlo vertex hvertex) (hhi vertex hvertex)
  have hsucceeds : (scanEach scan prefixFor S.vertices .init).2 = 0 :=
    scanEach_succeeds fun vertex hvertex => (hkeys vertex hvertex).imp fun _ h => h.1
  rw [Yields, and_iff_right hsucceeds]
  refine selectsWanted_iff fun v => ?_
  rw [mem_scanEach, or_iff_right not_mem_init]
  constructor
  · rintro ⟨vertex, hvertex, hfits, keys, hok, key, hkey, hlast⟩
    obtain ⟨keys', hok', hmem⟩ := hkeys vertex hvertex
    obtain rfl := Except.ok.inj (hok.symm.trans hok')
    obtain ⟨t, ht, hselected, rfl⟩ := (hmem key).mp hkey
    rw [hT.keyLastComponent_eq ht hindex] at hlast
    exact ⟨t, ht, ⟨vertex, hvertex, hfits, hselected⟩, Option.some.inj hlast⟩
  · rintro ⟨t, ht, ⟨vertex, hvertex, hfits, hselected⟩, rfl⟩
    obtain ⟨keys, hok, hmem⟩ := hkeys vertex hvertex
    exact ⟨vertex, hvertex, hfits, keys, hok, _, (hmem _).mpr ⟨t, ht, hselected, rfl⟩,
      hT.keyLastComponent_eq ht hindex⟩

end Exact

/-- The scans of `graph_execute_out` select what is wanted. -/
def OutSelects (db : Db) (subtree : Option DatabaseSubtree) (T : List Triple) (S : VertexSet)
    (p : Bytes) : Prop :=
  SelectsWanted T
    (fun t => ∃ s ∈ S, (buildPrefixVec spo.name s p).length + 2 ≤ bufferSize ∧
      Selected db subtree .spo (edgeStart s p) (edgeEnd s p) t)
    (fun t => t.subject ∈ S ∧ t.predicate = p) Triple.object

/-- The scans of `graph_execute_in` select what is wanted. -/
def InSelects (db : Db) (subtree : Option DatabaseSubtree) (T : List Triple) (S : VertexSet)
    (p : Bytes) : Prop :=
  SelectsWanted T
    (fun t => ∃ o ∈ S, (buildPrefixVec pos.name p o).length + 2 ≤ bufferSize ∧
      Selected db subtree .pos (edgeStart p o) (edgeEnd p o) t)
    (fun t => t.object ∈ S ∧ t.predicate = p) Triple.subject

/-- The scan of `graph_execute_has` fits its buffer and selects what is wanted. Equality is left
to the range. -/
def HasSelects (db : Db) (subtree : Option DatabaseSubtree) (T : List Triple) (S : VertexSet)
    (p v : Bytes) (cmp : GraphCmp) : Prop :=
  hasLength p v cmp ≤ bufferSize ∧
    SelectsWanted T
      (fun t => Selected db subtree .pos (hasLo p v cmp) (hasHi p v cmp) t ∧
        (cmp = .eq ∨ cmpStrings t.object v cmp = true) ∧ t.subject ∈ S)
      (fun t => t.subject ∈ S ∧ t.predicate = p ∧ cmpStrings t.object v cmp = true)
      Triple.subject

section Operators

variable {db : Db} {depth : Nat} {subtree : Option DatabaseSubtree} {T : List Triple}
  {scan : LayerScan} {S : VertexSet} {p v : Bytes}

theorem HoldsTriples.hasSubject_eq (hT : HoldsTriples db subtree T) {t : Triple} (ht : t ∈ T)
    (cmp : GraphCmp) : hasSubject v cmp ([slash].intercalate (pos.components t)) =
      if cmp = .eq ∨ cmpStrings t.object v cmp then some t.subject else none := by
  have hlast := hT.keyLastComponent_eq ht (mem_cons_of_mem spo mem_cons_self)
  obtain ⟨hsubject, hpredicate, hobject, hspo, hpos⟩ := hT.proper t ht
  have hsecond : keyNthComponent ([slash].intercalate (pos.components t)) 2 = some t.object := by
    simp only [buildPrefixVec, length_append, length_cons] at hpos
    refine keyNthComponent_two (name_proper .pos) hpredicate hobject ?_
    change t.object.length < bufferSize
    omega
  rw [hasSubject, hsecond, hlast]
  by_cases heq : cmp = .eq
  · rw [if_pos heq, if_pos (.inl heq)]
    rfl
  · rw [if_neg heq, Option.bind_some]
    simp only [heq, false_or]
    rfl

variable (hT : HoldsTriples db subtree T) (hdb : db.Ok depth) (hclean : CleanSubtree subtree)
  (hscan : Scans db subtree scan)

include hT hdb hclean hscan

theorem out_yields_iff (hS : ∀ s ∈ S, NulFree s) (hp : NulFree p) :
    Yields (graphExecuteOut scan S p) (fun o => ∃ s ∈ S, ⟨s, p, o⟩ ∈ T) ↔
      OutSelects db subtree T S p := by
  have hexpected : ∀ o, (∃ s ∈ S, (⟨s, p, o⟩ : Triple) ∈ T) ↔
      ∃ t ∈ T, (t.subject ∈ S ∧ t.predicate = p) ∧ spo.third t = o := by
    intro o
    constructor
    · rintro ⟨s, hs, ht⟩
      exact ⟨_, ht, ⟨hs, rfl⟩, rfl⟩
    · rintro ⟨⟨s, _, o⟩, ht, ⟨hs, rfl⟩, rfl⟩
      exact ⟨s, hs, ht⟩
  simp only [hexpected]
  exact yields_scanEach_iff hT hdb hclean hscan mem_cons_self
    (fun s => buildPrefixVec_eq _ s p) (fun s => appendSuccessor_buildPrefixVec _ s p)
    (fun s hs => (nulFree_edge (hS s hs) hp).1) (fun s hs => (nulFree_edge (hS s hs) hp).2)

theorem in_yields_iff (hS : ∀ o ∈ S, NulFree o) (hp : NulFree p) :
    Yields (graphExecuteIn scan S p) (fun s => ∃ o ∈ S, ⟨s, p, o⟩ ∈ T) ↔
      InSelects db subtree T S p := by
  have hexpected : ∀ s, (∃ o ∈ S, (⟨s, p, o⟩ : Triple) ∈ T) ↔
      ∃ t ∈ T, (t.object ∈ S ∧ t.predicate = p) ∧ pos.third t = s := by
    intro s
    constructor
    · rintro ⟨o, ho, ht⟩
      exact ⟨_, ht, ⟨ho, rfl⟩, rfl⟩
    · rintro ⟨⟨s, _, o⟩, ht, ⟨ho, rfl⟩, rfl⟩
      exact ⟨o, ho, ht⟩
  simp only [hexpected]
  exact yields_scanEach_iff hT hdb hclean hscan (mem_cons_of_mem _ mem_cons_self)
    (fun o => buildPrefixVec_eq _ p o) (fun o => appendSuccessor_buildPrefixVec _ p o)
    (fun o ho => (nulFree_edge hp (hS o ho)).1) (fun o ho => (nulFree_edge hp (hS o ho)).2)

theorem has_yields_iff (hp : NulFree p) (hv : NulFree v) (cmp : GraphCmp) :
    Yields (graphExecuteHas scan (some S) p v cmp)
        (fun s => s ∈ S ∧ ∃ o, ⟨s, p, o⟩ ∈ T ∧ cmpStrings o v cmp) ↔
      HasSelects db subtree T S p v cmp := by
  have hexpected : ∀ s, (s ∈ S ∧ ∃ o, (⟨s, p, o⟩ : Triple) ∈ T ∧ cmpStrings o v cmp) ↔
      ∃ t ∈ T, (t.subject ∈ S ∧ t.predicate = p ∧ cmpStrings t.object v cmp) ∧
        t.subject = s := by
    intro s
    constructor
    · rintro ⟨hs, o, ht, hcmp⟩
      exact ⟨_, ht, ⟨hs, rfl, hcmp⟩, rfl⟩
    · rintro ⟨⟨_, _, o⟩, ht, ⟨hs, rfl, hcmp⟩, rfl⟩
      exact ⟨hs, o, ht, hcmp⟩
  simp only [hexpected]
  obtain ⟨keys, hok, hmem⟩ := hT.scan_keys hdb hclean hscan
    (mem_cons_of_mem spo mem_cons_self) (nulFree_has hp hv cmp).1
    (nulFree_has hp hv cmp).2
  rw [graphExecuteHas, hasStart_eq, hasEnd_eq, hok, HasSelects]
  by_cases hlong : bufferSize < hasLength p v cmp
  · rw [if_pos hlong]
    exact iff_of_false (fun h => absurd h.1 (by decide)) (fun h => absurd h.1 (by omega))
  · rw [if_neg hlong, Yields, and_iff_right rfl, and_iff_right (show _ ≤ _ by omega)]
    refine selectsWanted_iff fun s => ?_
    simp only [mem_addAll, not_mem_init, false_or, mem_filter,
      mem_filterMap, Option.all_some, contains_eq_true]
    constructor
    · rintro ⟨⟨key, hkey, hsubject⟩, hs⟩
      obtain ⟨t, ht, hselected, rfl⟩ := (hmem key).mp hkey
      rw [hT.hasSubject_eq ht] at hsubject
      obtain ⟨hcmp, ⟨⟩⟩ := Option.ite_none_right_eq_some.mp hsubject
      exact ⟨t, ht, ⟨hselected, hcmp, hs⟩, rfl⟩
    · rintro ⟨t, ht, ⟨hselected, hcmp, hs⟩, rfl⟩
      refine ⟨⟨_, (hmem _).mpr ⟨t, ht, hselected, rfl⟩, ?_⟩, hs⟩
      rw [hT.hasSubject_eq ht, if_pos hcmp]

end Operators

/-! ### The range of an edge -/

/-- The string continues another one with a byte below the successor. -/
def Continues (base data : Bytes) : Prop :=
  ∃ b rest, data = base ++ b :: rest ∧ b < successor

theorem between_successor_iff (base data : Bytes) :
    byteOrder base ≤ byteOrder data ∧ byteOrder data < byteOrder (base ++ [successor]) ↔
      data = base ∨ Continues base data := by
  have hsuccessor : byteOrder (base ++ [successor]) = byteOrder base ++ [48] :=
    byteOrder_append base [successor]
  rw [hsuccessor]
  constructor
  · rintro ⟨hle, hlt⟩
    obtain ⟨w, hw⟩ := prefix_of_between (u := []) (by rwa [append_nil]) hlt
    obtain ⟨front, rest, rfl, hfront, rfl⟩ := map_eq_append_iff.mp hw
    obtain rfl := byteOrder_injective hfront
    rw [byteOrder_append, append_lt_append_left] at hlt
    cases rest with
    | nil => exact .inl (append_nil _)
    | cons b rest =>
      refine .inr ⟨b, rest, rfl, ?_⟩
      rcases cons_lt_cons_iff.mp hlt with hb | ⟨-, hnil⟩
      · exact hb
      · exact absurd hnil (not_lt_nil _)
  · rintro (rfl | ⟨b, rest, rfl, hb⟩)
    · refine ⟨le_refl _, ?_⟩
      rw [← append_nil (byteOrder data), append_assoc, append_lt_append_left]
      exact nil_lt_cons _ _
    · rw [byteOrder_append, append_lt_append_left]
      refine ⟨?_, cons_lt_cons_iff.mpr (.inl hb)⟩
      rw [← append_nil (byteOrder base), append_assoc, append_le_append_left]
      exact not_lt.mp (not_lt_nil _)

theorem rawSegments_edge (a b : Bytes) :
    rawSegments slash [] (edgeStart a b) = rawSegments slash [] a ++ rawSegments slash [] b ∧
      rawSegments slash [] (edgeEnd a b) =
        rawSegments slash [] a ++ rawSegments slash [] (b ++ [successor]) := by
  have hstart : edgeStart a b = a ++ slash :: (b ++ slash :: []) := by simp [edgeStart]
  have hend : edgeEnd a b = a ++ slash :: (b ++ [successor]) := by simp [edgeEnd]
  rw [hstart, hend, rawSegments_append, rawSegments_append, rawSegments_append]
  exact ⟨congrArg _ (append_nil _), rfl⟩

theorem rawSegments_successor (hslash : slash ∉ b) :
    rawSegments slash [] (b ++ [successor]) = [b ++ [successor]] := by
  refine rawSegments_eq_self (append_ne_nil_of_right_ne_nil _ (cons_ne_nil _ _)) ?_
  rw [mem_append, not_or]
  exact ⟨hslash, by decide⟩

theorem between_one {y : Bytes} (h : y = b ∨ Continues b y) (rest : List Bytes) :
    Between [b] [b ++ [successor]] (y :: rest) := by
  obtain ⟨hle, hlt⟩ := (between_successor_iff b y).mpr h
  constructor
  · rw [← not_lt, map_cons, map_singleton, cons_lt_cons_iff]
    rintro (hgt | ⟨-, hnil⟩)
    · exact absurd hgt (not_lt.mpr hle)
    · exact absurd hnil (not_lt_nil _)
  · exact cons_lt_cons_iff.mpr (.inl hlt)

/-- The scan for two components is for the keys that begin with the first one and the second one
or a continuation of it. -/
theorem between_edge_iff (ha : ProperString a) (hb : ProperString b) (components : List Bytes) :
    Between (rawSegments slash [] (edgeStart a b)) (rawSegments slash [] (edgeEnd a b)) components ↔
      ∃ y rest, components = a :: y :: rest ∧ (y = b ∨ Continues b y) := by
  rw [(rawSegments_edge a b).1, (rawSegments_edge a b).2, rawSegments_successor hb.slashFree,
    rawSegments_eq_self ha.nonempty ha.slashFree, rawSegments_eq_self hb.nonempty hb.slashFree,
    Between]
  constructor
  · rintro ⟨hle, hlt⟩
    obtain ⟨w, hw⟩ := prefix_of_between (x := [byteOrder a]) hle hlt
    cases components with
    | nil => cases hw
    | cons x components =>
      obtain rfl := byteOrder_injective (cons.inj hw).1
      have hle' := (append_le_append_left (x := [byteOrder x])).mp hle
      have hlt' := (append_lt_append_left (x := [byteOrder x])).mp hlt
      cases components with
      | nil => exact absurd hle' (not_le.mpr (nil_lt_cons _ _))
      | cons y rest =>
        refine ⟨y, rest, rfl, (between_successor_iff b y).mp ⟨?_, ?_⟩⟩
        · rw [← not_lt, map_cons, cons_lt_cons_iff, not_or] at hle'
          exact not_lt.mp hle'.1
        · rcases cons_lt_cons_iff.mp hlt' with hlt' | ⟨-, hnil⟩
          · exact hlt'
          · exact absurd hnil (not_lt_nil _)
  · rintro ⟨y, rest, rfl, hy⟩
    obtain ⟨hle, hlt⟩ := between_one hy rest
    exact ⟨(append_le_append_left (x := [byteOrder a])).mpr hle,
      (append_lt_append_left (x := [byteOrder a])).mpr hlt⟩

/-! ### Exact traversals -/

/-- The traversals return exactly what the stored triples give if and only if the triples that
their scans select give the results that are wanted. -/
theorem graph_traversal_exact_iff (db : Db) (depth : Nat) (subtree : Option DatabaseSubtree)
    (T : List Triple) (scan : LayerScan) (hdb : db.Ok depth) (hclean : CleanSubtree subtree)
    (hT : HoldsTriples db subtree T) (hscan : Scans db subtree scan) (S : VertexSet)
    (p v : Bytes) (cmp : GraphCmp) (hS : ∀ s ∈ S, NulFree s) (hp : NulFree p)
    (hv : NulFree v) :
    (Yields (graphExecuteOut scan S p) (fun o => ∃ s ∈ S, ⟨s, p, o⟩ ∈ T) ∧
      Yields (graphExecuteIn scan S p) (fun s => ∃ o ∈ S, ⟨s, p, o⟩ ∈ T) ∧
      Yields (graphExecuteHas scan (some S) p v cmp)
        (fun s => s ∈ S ∧ ∃ o, ⟨s, p, o⟩ ∈ T ∧ cmpStrings o v cmp = true)) ↔
      OutSelects db subtree T S p ∧ InSelects db subtree T S p ∧
        HasSelects db subtree T S p v cmp := by
  rw [out_yields_iff hT hdb hclean hscan hS hp, in_yields_iff hT hdb hclean hscan hS hp,
    has_yields_iff hT hdb hclean hscan hp hv]

/-! ### Examples -/

def tripleKeys (T : List Triple) : List (List Bytes) :=
  T.flatMap fun t => [spo, .pos, .osp, .pso].map fun index => index.components t

def tripleWrites (T : List Triple) : List TrieOp :=
  (tripleKeys T).map fun key => .insert (pathOf defaultChunkSize key) [] ⟨0, 0, 1⟩

def graphDb (T : List Triple) : Db := memoryDb (tripleWrites T) ⟨0, 0, 1⟩

section Examples

variable {T : List Triple}

theorem trieFrom_graphDb (hsafe : SafeRun defaultConfig noLoader (tripleWrites T)) :
    TrieFrom (graphDb T).chunkSize (graphDb T).load {q | q ∈ tripleKeys T} (graphDb T).root := by
  refine trieFrom_runOps hsafe fun op hop => ?_
  obtain ⟨key, hkey, rfl⟩ := mem_map.mp hop
  exact ⟨key, hkey, rfl⟩

theorem GraphIndex.eq_of_name_chunks {i j : GraphIndex}
    (h : (identifierCreate i.name defaultChunkSize).chunks =
      (identifierCreate j.name defaultChunkSize).chunks) : i = j := by
  cases i <;> cases j <;> first | rfl | exact absurd h (by decide)

theorem graphDb_holds (hsafe : SafeRun defaultConfig noLoader (tripleWrites T))
    (hproper : ∀ t ∈ T, t.Proper) (hitems : ∀ t ∈ T, ∀ index ∈ scannedIndexes,
      itemAt noLoader (graphDb T).root ((graphDb T).chunksOf (index.components t)) =
        some (.legacy [] ⟨0, 0, 1⟩, pathMetadata (pathOf defaultChunkSize (index.components t)))) :
    HoldsTriples (graphDb T) none T := by
  constructor
  · exact hproper
  · intro t ht index hindex
    exact ⟨[], _, ⟨_, hitems t ht index hindex, rfl, .inl rfl⟩, rfl⟩
  · rintro index - p value ⟨content, hstores, -⟩ ⟨rest, hrest⟩
    obtain ⟨t, ht, hp⟩ := mem_flatMap.mp (mem_of_stores (trieFrom_graphDb hsafe) hstores)
    obtain ⟨other, -, rfl⟩ := mem_map.mp hp
    obtain rfl := eq_of_name_chunks (cons.inj hrest).1
    exact ⟨t, ht, rfl⟩

theorem graphDb_reaches (hsafe : SafeRun defaultConfig noLoader (tripleWrites T))
    {start stop : Path}
    (hseek : startReaches noLoader (graphDb T).root (some start) ((graphDb T).chunksOf p))
    (hway : ∀ q ∈ tripleKeys T, (graphDb T).chunksOf q < (graphDb T).chunksOf p →
      pathCompare (pathOf defaultChunkSize q) stop < 0) :
    (graphDb T).ScanReaches (some start) (some stop) p := by
  refine ⟨hseek, ?_⟩
  rintro q content hq - hlt bound ⟨⟩
  exact hway q (mem_of_stores (trieFrom_graphDb hsafe) hq) hlt

end Examples

/-- `a knows b`. -/
def knowsEdge : Triple := ⟨[97], [107, 110, 111, 119, 115], [98]⟩

/-- `a knows-well c`. -/
def knowsWellEdge : Triple := ⟨[97], [107, 110, 111, 119, 115, 45, 119, 101, 108, 108], [99]⟩

def bothEnds : VertexSet := ⟨[[97], [98]], by decide⟩

/-- `a`. -/
def justA : VertexSet := ⟨[[97]], by decide⟩

theorem knowsEdge_proper : knowsEdge.Proper := by
  constructor
  · exact ⟨by decide, by decide, by decide⟩
  · exact ⟨by decide, by decide, by decide⟩
  · exact ⟨by decide, by decide, by decide⟩
  · decide
  · decide

theorem knowsEdge_safe : SafeRun defaultConfig noLoader (tripleWrites [knowsEdge]) :=
  ⟨by decide +kernel, by decide +kernel⟩

theorem knowsEdge_holds : HoldsTriples (graphDb [knowsEdge]) none [knowsEdge] := by
  refine graphDb_holds knowsEdge_safe (fun t ht => ?_) (by decide +kernel)
  rw [mem_singleton.mp ht]
  exact knowsEdge_proper

theorem selectsWanted_knowsEdge {selected wanted : Triple → Prop} {result : Triple → Bytes}
    (hselected : selected knowsEdge) (hwanted : wanted knowsEdge) :
    SelectsWanted [knowsEdge] selected wanted result := by
  constructor
  · intro t ht _
    rw [mem_singleton.mp ht]
    exact ⟨knowsEdge, mem_singleton_self _, hwanted, rfl⟩
  · intro t ht _
    rw [mem_singleton.mp ht]
    exact ⟨knowsEdge, mem_singleton_self _, hselected, rfl⟩

/-- The traversals from `a` and `b` along the only edge. -/
theorem graph_traversal_exact_knows : ∃ scan, Scans (graphDb [knowsEdge]) none scan ∧
      Yields (graphExecuteOut scan bothEnds knowsEdge.predicate)
        (fun o => ∃ s ∈ bothEnds, ⟨s, knowsEdge.predicate, o⟩ ∈ [knowsEdge]) ∧
      Yields (graphExecuteIn scan bothEnds knowsEdge.predicate)
        (fun s => ∃ o ∈ bothEnds, ⟨s, knowsEdge.predicate, o⟩ ∈ [knowsEdge]) ∧
      Yields (graphExecuteHas scan (some bothEnds) knowsEdge.predicate [98] .eq)
        (fun s => s ∈ bothEnds ∧
          ∃ o, ⟨s, knowsEdge.predicate, o⟩ ∈ [knowsEdge] ∧ cmpStrings o [98] .eq = true) := by
  obtain ⟨depth, hdb⟩ := ok_of_trieFrom (trieFrom_graphDb knowsEdge_safe) rfl
  obtain ⟨scan, hscan⟩ := exists_scans hdb none
  have hnul : ∀ s ∈ bothEnds, NulFree s := by
    decide
  refine ⟨scan, hscan, (graph_traversal_exact_iff (graphDb [knowsEdge]) depth none [knowsEdge]
    scan hdb nofun knowsEdge_holds hscan bothEnds knowsEdge.predicate [98] .eq
    hnul (by decide) (by decide)).mpr ⟨?_, ?_, by decide, ?_⟩⟩
  · refine selectsWanted_knowsEdge ⟨[97], by decide, by decide, ?_,
      graphDb_reaches knowsEdge_safe ?_ ?_⟩ (by decide)
    · decide
    · decide +kernel
    · decide +kernel
  · refine selectsWanted_knowsEdge ⟨[98], by decide, by decide, ?_,
      graphDb_reaches knowsEdge_safe ?_ ?_⟩ (by decide)
    · decide
    · decide +kernel
    · decide +kernel
  · refine selectsWanted_knowsEdge ⟨⟨?_, graphDb_reaches knowsEdge_safe ?_ ?_⟩, .inl rfl,
      by decide⟩ (by decide)
    · decide
    · decide +kernel
    · decide +kernel

/-- `knows-well` is followed as `knows`. -/
theorem traversal_takes_continuation : (∃ depth, (graphDb [knowsEdge, knowsWellEdge]).Ok depth) ∧
      HoldsTriples (graphDb [knowsEdge, knowsWellEdge]) none [knowsEdge, knowsWellEdge] ∧
      ∀ scan, Scans (graphDb [knowsEdge, knowsWellEdge]) none scan →
        (graphExecuteOut scan justA knowsEdge.predicate).1.vertices =
            [[98], [99]] ∧
          ¬ Yields (graphExecuteOut scan justA knowsEdge.predicate)
            (fun o => ∃ s ∈ justA,
              ⟨s, knowsEdge.predicate, o⟩ ∈ [knowsEdge, knowsWellEdge]) := by
  have hsafe : SafeRun defaultConfig noLoader (tripleWrites [knowsEdge, knowsWellEdge]) :=
    ⟨by decide +kernel, by decide +kernel⟩
  refine ⟨ok_of_trieFrom (trieFrom_graphDb hsafe) rfl,
    graphDb_holds hsafe ?_ (by decide +kernel), fun scan hscan => ?_⟩
  · intro t ht
    simp only [mem_cons, not_mem_nil, or_false] at ht
    rcases ht with rfl | rfl
    · exact knowsEdge_proper
    · exact ⟨⟨by decide, by decide, by decide⟩, ⟨by decide, by decide, by decide⟩,
        ⟨by decide, by decide, by decide⟩, by decide, by decide⟩
  · have hkeys : scan (buildPrefixVec spo.name [97] knowsEdge.predicate)
        (appendSuccessor (buildPrefixVec spo.name [97] knowsEdge.predicate)) =
        .ok [[slash].intercalate (spo.components knowsEdge),
          [slash].intercalate (spo.components knowsWellEdge)] :=
      hscan.eq_ok 60 (by decide +kernel)
    have hvertices : (graphExecuteOut scan justA
        knowsEdge.predicate).1.vertices = [[98], [99]] := by
      simp only [graphExecuteOut, justA, scanEach, hkeys]
      decide +kernel
    refine ⟨hvertices, fun hyields => ?_⟩
    have hmem : [99] ∈ (graphExecuteOut scan justA knowsEdge.predicate).1 := by
      rw [← mem_vertices, hvertices]
      decide
    obtain ⟨s, -, hstored⟩ := (hyields.2 _).mp hmem
    simp [knowsEdge, knowsWellEdge] at hstored

end WaveDB.Graph
