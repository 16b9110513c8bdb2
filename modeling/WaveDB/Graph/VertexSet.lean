import Mathlib.Data.List.Nodup
import WaveDB.HBTrie.Version

/-!
Vertex sets (`Layers/graph/graph_set.c`): the vertices in the order they were added, each once.

The buckets only speed up the search for a vertex, and growing the table keeps the order; both
are left out.
-/

namespace WaveDB.Graph

open HBTrie

/-- `vertex_set_t`. A vertex is the C string of its bytes. -/
@[ext]
structure VertexSet where
  vertices : List Bytes
  nodup : vertices.Nodup
deriving DecidableEq

instance : Membership Bytes VertexSet := ⟨fun set vertex => vertex ∈ set.vertices⟩

instance (vertex : Bytes) (set : VertexSet) : Decidable (vertex ∈ set) :=
  inferInstanceAs (Decidable (vertex ∈ set.vertices))

namespace VertexSet

variable (a b : VertexSet)

def init : VertexSet := ⟨[], List.nodup_nil⟩

def single (vertex : Bytes) : VertexSet := ⟨[vertex], List.nodup_singleton vertex⟩

def contains (vertex : Bytes) : Bool := decide (vertex ∈ a.vertices)

def add (vertex : Bytes) : VertexSet :=
  if h : vertex ∈ a.vertices then a
  else ⟨a.vertices ++ [vertex], List.nodup_append.mpr
    ⟨a.nodup, List.nodup_singleton vertex, fun _ hx _ hy =>
      List.mem_singleton.mp hy ▸ fun heq => h (heq ▸ hx)⟩⟩

def addAll (vertices : List Bytes) : VertexSet := vertices.foldl add a

/-- `vertex_set_intersect`: the smaller set is filtered. -/
def intersect : VertexSet :=
  if a.vertices.length ≤ b.vertices.length then init.addAll (a.vertices.filter b.contains)
  else init.addAll (b.vertices.filter a.contains)

def union : VertexSet := (init.addAll a.vertices).addAll b.vertices

def difference : VertexSet := init.addAll (a.vertices.filter fun v => !b.contains v)

/-! ### Membership -/

variable {a b} {v vertex : Bytes} {vertices : List Bytes}

@[simp]
theorem mem_vertices : v ∈ a.vertices ↔ v ∈ a := Iff.rfl

@[simp]
theorem contains_eq_true : a.contains v ↔ v ∈ a := decide_eq_true_iff

@[simp]
theorem contains_eq_false : a.contains v = false ↔ v ∉ a := decide_eq_false_iff_not

@[simp]
theorem not_mem_init : v ∉ init := List.not_mem_nil

@[simp]
theorem mem_single : v ∈ single vertex ↔ v = vertex := List.mem_singleton

@[simp]
theorem mem_add : v ∈ a.add vertex ↔ v ∈ a ∨ v = vertex := by
  unfold add
  split
  · rename_i h
    constructor
    · exact .inl
    · rintro (hv | rfl)
      · exact hv
      · exact h
  · simp [← mem_vertices]

@[simp]
theorem mem_addAll : v ∈ a.addAll vertices ↔ v ∈ a ∨ v ∈ vertices := by
  induction vertices generalizing a with
  | nil => simp [addAll]
  | cons w rest ih =>
    have hstep : a.addAll (w :: rest) = (a.add w).addAll rest := rfl
    rw [hstep, ih, mem_add, List.mem_cons, or_assoc]

theorem add_of_mem (h : v ∈ a) : a.add v = a := dif_pos h

/-- A vertex that is added to both sets is added once. -/
theorem addAll_addAll (a b : VertexSet) (vertices : List Bytes) :
    a.addAll (b.addAll vertices).vertices = (a.addAll b.vertices).addAll vertices := by
  induction vertices generalizing b with
  | nil => rfl
  | cons v rest ih =>
    have hstep : ∀ set : VertexSet, set.addAll (v :: rest) = (set.add v).addAll rest := fun _ => rfl
    rw [hstep, hstep, ih]
    congr 1
    by_cases hv : v ∈ b
    · rw [add_of_mem hv, add_of_mem (mem_addAll.mpr (.inr hv))]
    · have hadd : (b.add v).vertices = b.vertices ++ [v] := congrArg vertices (dif_neg hv)
      rw [hadd, addAll, List.foldl_append]
      rfl

@[simp]
theorem mem_intersect : v ∈ a.intersect b ↔ v ∈ a ∧ v ∈ b := by
  unfold intersect
  split
  · simp
  · simp [and_comm]

@[simp]
theorem mem_union : v ∈ a.union b ↔ v ∈ a ∨ v ∈ b := by
  simp [union]

@[simp]
theorem mem_difference : v ∈ a.difference b ↔ v ∈ a ∧ v ∉ b := by
  simp [difference]

end VertexSet

end WaveDB.Graph
