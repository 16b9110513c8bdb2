import WaveDB.Graph.Traversal
import WaveDB.Graph.Triples

/-!
The keys of a triple.

The strings of a triple are joined with `/` and cut again. `tripleKey` has the segments of all
three; the trie sees them as one sequence of chunks, in which the index can always be told
(`index_eq_of_chunks`).
-/

namespace WaveDB.Graph

open WaveDB.Basis HBTrie Database Workers List GraphIndex

/-! ### Segments -/

section Segments

variable {delimiter : UInt8} {segment x : Bytes}

theorem rawSegments_ne_nil (h : segment ≠ []) (x : Bytes) :
    rawSegments delimiter segment x ≠ [] := by
  induction x generalizing segment with
  | nil =>
    rw [rawSegments, if_neg h]
    exact cons_ne_nil _ _
  | cons b x ih =>
    rw [rawSegments, if_neg h]
    split
    · exact cons_ne_nil _ _
    · exact ih (append_ne_nil_of_left_ne_nil h _)

theorem rawSegments_append_of_eq_nil (h : rawSegments delimiter [] x = []) (y : Bytes) :
    rawSegments delimiter [] (x ++ y) = rawSegments delimiter [] y := by
  induction x with
  | nil => rfl
  | cons b x ih =>
    by_cases hb : b = delimiter
    · rw [rawSegments, if_pos hb, if_pos rfl] at h
      rw [cons_append, rawSegments, if_pos hb, if_pos rfl, ih h]
    · rw [rawSegments, if_neg hb] at h
      exact absurd h (rawSegments_ne_nil (cons_ne_nil _ _) x)

end Segments

/-! ### The keys of one triple -/

def GraphIndex.strings (index : GraphIndex) (t : Triple) : List Bytes :=
  rawSegments slash [] (index.first t) ++ rawSegments slash [] (index.second t) ++
    rawSegments slash [] (index.third t)

def tripleKey (subtree : Option DatabaseSubtree) (t : Triple) (index : GraphIndex) : List Bytes :=
  layerPrefix subtree ++ [index.name] ++ index.strings t

section Keys

variable {cfg : Config} {subtree : Option DatabaseSubtree} {t : Triple} {i j : GraphIndex}

theorem rawSegments_pathVec (index : GraphIndex) (t : Triple) :
    rawSegments slash [] (index.pathVec t) = index.name :: index.strings t := by
  have hsplit : index.pathVec t = index.keyOf (index.first t ++ slash :: (index.second t ++
      slash :: index.third t)) := by
    simp [pathVec, buildPathVec, keyOf]
  rw [hsplit, rawSegments_keyOf, rawSegments_append, rawSegments_append, strings, append_assoc]

variable (cs : ChunkSize)

theorem layerPath_pathVec (index : GraphIndex) :
    layerPath cs subtree (index.pathVec t) = pathOf cs (tripleKey subtree t index) := by
  rw [layerPath, rawSegments_pathVec, tripleKey, append_assoc]
  rfl

theorem pathCreateFromRaw_layer (hclean : CleanSubtree subtree) (cs : ChunkSize) (key : Bytes) :
    pathCreateFromRaw cs (subtree.elim key fun st => databaseSubtreePrependKey st key) slash =
      layerPath cs subtree key := by
  cases subtree with
  | none => rfl
  | some st =>
    rw [Option.elim_some, pathCreateFromRaw, databaseSubtreePrependKey, (hclean st rfl).1,
      rawSegments_append]
    rfl

theorem mem_strings {c : Bytes} : c ∈ i.strings t ↔ c ∈ rawSegments slash [] t.subject ∨
    c ∈ rawSegments slash [] t.predicate ∨ c ∈ rawSegments slash [] t.object := by
  cases i <;> simp only [strings, first, second,
    third, mem_append] <;> tauto

theorem length_name (i : GraphIndex) : i.name.length = 3 := by
  cases i <;> rfl

theorem GraphIndex.name_injective {i j : GraphIndex} (h : i.name = j.name) : i = j := by
  cases i <;> cases j <;> first | rfl | exact absurd h (by decide)

/-- The bytes of a path begin with those of its first component. -/
theorem head_pathChunks (cs : ChunkSize) (b : UInt8) (tail : Bytes) (rest : List Bytes) :
    ((pathChunks (pathOf cs ((b :: tail) :: rest))).flatMap Chunk.data).head? = some b := by
  have hsplit : pathChunks (pathOf cs ((b :: tail) :: rest)) =
      (identifierCreate (b :: tail) cs).chunks ++ pathChunks (pathOf cs rest) := rfl
  rw [hsplit, flatMap_append, identifierCreate_bytes, zeroPadded]
  rfl

/-- A key that begins with `_` is under no index. -/
theorem underscore_ne (cs : ChunkSize) (tail : Bytes) (rest : List Bytes) (index : GraphIndex)
    (w : List Chunk) : pathChunks (pathOf cs ((95 :: tail) :: rest)) ≠
      pathChunks (pathOf cs [index.name]) ++ w := by
  obtain ⟨b, name, hname, hne⟩ : ∃ b name, index.name = b :: name ∧ 95 ≠ b := by
    cases index <;> exact ⟨_, _, rfl, by decide⟩
  intro heq
  have hhead := congrArg (fun chunks => (chunks.flatMap Chunk.data).head?) heq
  simp only [hname, flatMap_append, head?_append, head_pathChunks, Option.some_or,
    Option.some.injEq] at hhead
  exact hne hhead

/-- The chunks of a key tell its index. -/
theorem index_eq_of_chunks {cs : ChunkSize} {rest : List Bytes} {w : List Chunk}
    (h : pathChunks (pathOf cs (layerPrefix subtree ++ [j.name] ++ rest)) =
      pathChunks (pathOf cs (layerPrefix subtree ++ [i.name])) ++ w) : j = i := by
  have hlength : (identifierCreate j.name cs).chunks.length =
      (identifierCreate i.name cs).chunks.length := by
    rw [identifierCreate, identifierCreate, length_map, length_map, length_name, length_name]
  have hname (i : GraphIndex) :
      pathChunks (pathOf cs [i.name]) = (identifierCreate i.name cs).chunks := append_nil _
  rw [pathChunks_append, pathChunks_append, pathChunks_append, append_assoc, append_assoc, hname,
    hname] at h
  exact name_injective ((identifierCreate_chunks_inj j.name_proper.nulFree
    i.name_proper.nulFree).mp (append_inj (append_cancel_left h) hlength).1)

theorem tripleKey_chunks_inj {cs : ChunkSize} {t' : Triple}
    (h : pathChunks (pathOf cs (tripleKey subtree t i)) =
      pathChunks (pathOf cs (tripleKey subtree t' j))) : i = j :=
  index_eq_of_chunks (h.trans (pathChunks_append ..))

theorem tripleKey_valid (t : Triple) (i : GraphIndex) :
    ValidPath (pathOf cs (tripleKey subtree t i)) :=
  pathOf_valid cs (by simp [tripleKey])

theorem pathAccepted_tripleKey (i : GraphIndex) :
    pathAccepted cfg (pathOf cfg.chunkSize (tripleKey subtree t i)) ↔
      pathAccepted cfg (pathOf cfg.chunkSize (layerPrefix subtree ++ spo.strings t)) = true := by
  have hname : identifierRefused cfg (identifierCreate i.name cfg.chunkSize) = false :=
    identifierRefused_create cfg (by rw [length_name]; decide)
  rw [pathAccepted_pathOf, pathAccepted_pathOf]
  constructor
  · intro h c hc
    refine h c ?_
    rw [tripleKey, mem_append, mem_append]
    rcases mem_append.mp hc with hc | hc
    · exact .inl (.inl hc)
    · exact .inr (mem_strings.mpr (mem_strings.mp hc))
  · intro h c hc
    rw [tripleKey, mem_append, mem_append, mem_singleton] at hc
    rcases hc with (hc | rfl) | hc
    · exact h c (mem_append_left _ hc)
    · exact hname
    · exact h c (mem_append_right _ (mem_strings.mpr (mem_strings.mp hc)))

/-- Strings of less than four gigabytes are accepted. -/
theorem pathAccepted_of_short {i : GraphIndex}
    (hbefore : pathAccepted cfg (pathOf cfg.chunkSize (layerPrefix subtree)))
    (hsubject : t.subject.length ≤ 0xFFFFFFFF) (hpredicate : t.predicate.length ≤ 0xFFFFFFFF)
    (hobject : t.object.length ≤ 0xFFFFFFFF) :
    pathAccepted cfg (pathOf cfg.chunkSize (tripleKey subtree t i)) = true := by
  rw [pathAccepted_tripleKey]
  rw [pathAccepted_pathOf] at hbefore ⊢
  have hsegment : ∀ {x c : Bytes}, x.length ≤ 0xFFFFFFFF → c ∈ rawSegments slash [] x →
      c.length ≤ 0xFFFFFFFF := by
    intro x c hx hc
    exact (sublist_of_mem_rawSegments hc).length_le.trans hx
  intro c hc
  rcases mem_append.mp hc with hc | hc
  · exact hbefore c hc
  · refine identifierRefused_create cfg ?_
    rcases mem_strings.mp hc with hc | hc | hc
    · exact hsegment hsubject hc
    · exact hsegment hpredicate hc
    · exact hsegment hobject hc

/-! ### The calls of a triple -/

variable (hclean : CleanSubtree subtree) (cs : ChunkSize) (schema : Option GraphSchema) (t : Triple)

include hclean

theorem batchOps_insertOps :
    ((insertOps schema t).map (layerOp subtree)).map (RawOp.batchOp cs slash) =
      (neededIndexes schema t.predicate).map fun i =>
        .put (pathOf cs (tripleKey subtree t i)) [] := by
  rw [insertOps, map_map, map_map]
  refine map_congr_left fun i _ => ?_
  simp only [Function.comp_apply, layerOp, RawOp.batchOp, pathCreateFromRaw_layer hclean,
    layerPath_pathVec]

theorem batchOps_deleteOps :
    ((deleteOps schema t).map (layerOp subtree)).map (RawOp.batchOp cs slash) =
      (neededIndexes schema t.predicate).map fun i =>
        .delete (pathOf cs (tripleKey subtree t i)) := by
  rw [deleteOps, map_map, map_map]
  refine map_congr_left fun i _ => ?_
  simp only [Function.comp_apply, layerOp, RawOp.batchOp, pathCreateFromRaw_layer hclean,
    layerPath_pathVec]

end Keys

def freshLayer : GraphLayer := ⟨freshDb false, none⟩

end WaveDB.Graph
