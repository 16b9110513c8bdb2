import Mathlib.Data.Set.Lattice
import WaveDB.Graph.Query

/-!
Morphisms, and set steps behind other steps, in a chain and inside a morphism (`execute_child_steps`
in `Layers/graph/graph_ops.c`).

Both loops take an empty set to mean that there was no step before, so a set step behind a
traversal that found nothing gives what its children give (`set_step_exact_iff`).
-/

namespace WaveDB.Graph

open HBTrie List VertexSet SetOp

section Execution

-- `execute` is `execute_child_steps` for the chains of children
variable (scan : LayerScan) (morphisms : List (Bytes × List QueryStep))
  (execute : List QueryStep → VertexSet × Int)

/-- One step of a morphism; `outerFirst` if the morphism is the first step of its chain. A fused
filter is not looked at, and a morphism in a morphism gives nothing. -/
def morphismStep (outerFirst : Bool) (current : VertexSet) (first : Bool) : QueryStep → VertexSet
  | .vertex id => init.add id
  | .traverse direction predicate _ => (executeTraversal scan direction current predicate).1
  | .has filter => (executeFilter scan (inputOf (first && outerFirst) current) filter).1
  | .limit count => init.addAll (current.vertices.take count)
  | .morphism _ => .init
  | .combine op children =>
    combineWith op current (combineResults op (children.map fun child => (execute child).1))

def morphismSteps (outerFirst : Bool) (current : VertexSet) (first : Bool) :
    List QueryStep → VertexSet
  | [] => current
  | step :: rest =>
    morphismSteps outerFirst (morphismStep scan execute outerFirst current first step) false rest

def findMorphism (name : Bytes) : Option (Bytes × List QueryStep) :=
  morphisms.find? (·.1 = name)

/-- A `GRAPH_STEP_MORPHISM`: one without steps gives nothing. -/
def followMorphism (current : VertexSet) (first : Bool) (name : Bytes) : VertexSet × Int :=
  match findMorphism morphisms name with
  | none => (.init, -1)
  | some (_, []) => (.init, 0)
  | some (_, step :: rest) =>
    (morphismSteps scan execute first current true (step :: rest), 0)

def QueryStep.isLimit : QueryStep → Bool
  | .limit _ => true
  | _ => false

theorem SameSet.morphismSteps {a b : VertexSet} {steps : List QueryStep} (h : SameSet a b)
    (hlimit : ∀ step ∈ steps, step.isLimit = false) (outerFirst first : Bool) :
    SameSet (morphismSteps scan execute outerFirst a first steps)
      (morphismSteps scan execute outerFirst b first steps) := by
  induction steps generalizing a b first with
  | nil => exact h
  | cons step rest ih =>
    rw [forall_mem_cons] at hlimit
    refine ih ?_ hlimit.2 false
    cases step with
    | vertex | morphism => exact .refl _
    | traverse direction predicate filter => exact h.executeTraversal direction predicate
    | has filter => exact h.executeFilter _ filter
    | limit count => cases hlimit.1
    | combine op children => exact h.combineWith op (.refl _)

/-- A morphism without limits. -/
def isPlain (name : Bytes) : Bool :=
  (findMorphism morphisms name).all fun entry => entry.2.all fun step => !step.isLimit

/-- The environment of the chains of a layer. Morphisms without limits look at the members of a set
only. -/
def layerEnv : QueryEnv where
  scan := scan
  follow := followMorphism scan morphisms execute
  plain := isPlain morphisms
  sameSet := by
    intro name hplain first a b h
    unfold followMorphism
    cases hfind : findMorphism morphisms name with
    | none => exact .refl _
    | some entry =>
      rw [isPlain, hfind, Option.all_some, all_eq_true] at hplain
      obtain ⟨_, _ | ⟨step, rest⟩⟩ := entry
      · exact .refl _
      · exact h.morphismSteps scan execute (fun step hmem => by simpa using hplain step hmem) _ _

end Execution

/-- `execute_child_steps`; one unit of fuel is one level of morphisms. -/
def executeChildSteps (scan : LayerScan) (morphisms : List (Bytes × List QueryStep)) :
    Nat → List QueryStep → VertexSet × Int
  | 0, _ => (.init, -1)
  | fuel + 1, steps =>
    graphExecuteChain (layerEnv scan morphisms (executeChildSteps scan morphisms fuel)) steps

/-! ### What a set step should give -/

def VertexSet.members (set : VertexSet) : Set Bytes := {v | v ∈ set}

def leftDifference : List (Set Bytes) → Set Bytes
  | [] => ∅
  | first :: rest => rest.foldl (· \ ·) first

def SetOp.expected (current : Set Bytes) (results : List (Set Bytes)) : SetOp → Set Bytes
  | .intersect => current ∩ ⋂ r ∈ results, r
  | .union => current ∪ ⋃ r ∈ results, r
  | .difference => current \ leftDifference results

/-- The step has a set to work on, and an intersection a child, or its children leave nothing. -/
def SetOp.Settled (current : Set Bytes) (results : List (Set Bytes)) : SetOp → Prop
  | .intersect => if current = ∅ then results = [] ∨ ⋂ r ∈ results, r = ∅ else results ≠ []
  | .union => True
  | .difference => current ≠ ∅ ∨ leftDifference results = ∅

section Sets

variable {a b : VertexSet} {results : List VertexSet}

theorem members_eq_empty : a.members = ∅ ↔ a.vertices = [] :=
  Set.eq_empty_iff_forall_notMem.trans eq_nil_iff_forall_not_mem.symm

theorem members_intersect : (a.intersect b).members = a.members ∩ b.members :=
  Set.ext fun _ => mem_intersect

theorem members_union : (a.union b).members = a.members ∪ b.members :=
  Set.ext fun _ => mem_union

theorem members_difference : (a.difference b).members = a.members \ b.members :=
  Set.ext fun _ => mem_difference

theorem members_combineResults (op : SetOp) (first : VertexSet) (rest : List VertexSet) :
    (combineResults op (first :: rest)).members = match op with
      | .intersect => ⋂ r ∈ (first :: rest).map members, r
      | .union => ⋃ r ∈ (first :: rest).map members, r
      | .difference => leftDifference ((first :: rest).map members) := by
  cases op <;> simp only [combineResults, leftDifference]
  all_goals
    induction rest generalizing first with
    | nil => simp
    | cons next rest ih =>
      rw [foldl_cons, ih]
      simp [apply, members_intersect, members_union, members_difference, Set.inter_assoc,
        Set.union_assoc]

theorem members_combineWith (op : SetOp) (current : VertexSet) :
    (combineWith op current (combineResults op results)).members =
        op.expected current.members (results.map members) ↔
      op.Settled current.members (results.map members) := by
  have hinit : init.members = ∅ := members_eq_empty.mpr rfl
  unfold combineWith
  by_cases hempty : current.vertices = []
  · have hcurrent := members_eq_empty.mpr hempty
    rw [if_pos hempty, hcurrent]
    cases results with
    | nil => cases op <;>
      simp [combineResults, expected, SetOp.Settled, leftDifference, hinit]
    | cons first rest =>
      rw [members_combineResults]
      cases op <;> simp [expected, SetOp.Settled]
  · have hcurrent : current.members ≠ ∅ := fun h => hempty (members_eq_empty.mp h)
    rw [if_neg hempty]
    cases op with
    | intersect =>
      rw [apply, members_intersect, expected, SetOp.Settled, if_neg hcurrent]
      cases results with
      | nil => simp [combineResults, hinit, hcurrent.symm]
      | cons first rest => simp [members_combineResults]
    | union =>
      rw [apply, members_union, expected, SetOp.Settled]
      cases results with
      | nil => simp [combineResults, hinit]
      | cons first rest => simp only [members_combineResults]
    | difference =>
      rw [apply, members_difference, expected, SetOp.Settled]
      cases results with
      | nil => simp [combineResults, leftDifference, hinit]
      | cons first rest => simp [members_combineResults, hcurrent]

end Sets

/-! ### Set steps behind other steps -/

section Behind

variable (scan : LayerScan) (morphisms : List (Bytes × List QueryStep)) (fuel : Nat)

def setSoFar (front : List QueryStep) : Set Bytes :=
  (executeChildSteps scan morphisms fuel front).1.members

def childSets (children : List (List QueryStep)) : List (Set Bytes) :=
  children.map fun child => (executeChildSteps scan morphisms fuel child).1.members

def morphismSet (outerFirst : Bool) (start : VertexSet) (steps : List QueryStep) : Set Bytes :=
  (morphismSteps scan (executeChildSteps scan morphisms fuel) outerFirst start true steps).members

theorem morphismSteps_combine {op : SetOp} {children : List (List QueryStep)}
    {execute : List QueryStep → VertexSet × Int} (outerFirst : Bool) (front : List QueryStep)
    (current : VertexSet) (first : Bool) :
    morphismSteps scan execute outerFirst current first (front ++ [.combine op children]) =
      combineWith op (morphismSteps scan execute outerFirst current first front)
        (combineResults op (children.map fun child => (execute child).1)) := by
  induction front generalizing current first with
  | nil => rfl
  | cons step front ih => exact ih _ _

/-- A set step behind other steps gives the set before it combined with the results of its
children exactly when it is settled, in a chain and in a morphism. -/
theorem set_step_exact_iff (op : SetOp) (children : List (List QueryStep)) :
    (∀ front, setSoFar scan morphisms (fuel + 1) (front ++ [.combine op children]) =
        op.expected (setSoFar scan morphisms (fuel + 1) front)
          (childSets scan morphisms (fuel + 1) children) ↔
      op.Settled (setSoFar scan morphisms (fuel + 1) front)
        (childSets scan morphisms (fuel + 1) children)) ∧
    ∀ outerFirst start front, morphismSet scan morphisms fuel outerFirst start
          (front ++ [.combine op children]) =
        op.expected (morphismSet scan morphisms fuel outerFirst start front)
          (childSets scan morphisms fuel children) ↔
      op.Settled (morphismSet scan morphisms fuel outerFirst start front)
        (childSets scan morphisms fuel children) := by
  have hsets : ∀ fuel, childSets scan morphisms fuel children =
      (children.map fun child => (executeChildSteps scan morphisms fuel child).1).map members := by
    intro fuel
    rw [map_map]
    rfl
  rw [hsets, hsets]
  constructor
  · intro front
    simp only [setSoFar, executeChildSteps, graphExecuteChain_fst, runSteps_append,
      runSteps_singleton]
    rw [runStep, runChildren_eq]
    simp only [graphExecuteChain_fst]
    exact members_combineWith op _
  · intro outerFirst start front
    rw [morphismSet, morphismSteps_combine]
    exact members_combineWith op _

end Behind

def noTriples : LayerScan := fun _ _ => .ok []

/-- In a store without triples the vertices that `a` leads to, also in `b`, are `b`, and so are they
without `b`, in a chain and in a morphism. -/
theorem set_step_ignores_empty_set :
    setSoFar noTriples [] 1 [.vertex [97], .traverse .out [112] none] = ∅ ∧
    [SetOp.intersect, .difference].map (fun op => (executeChildSteps noTriples [] 2
      [.vertex [97], .traverse .out [112] none, .combine op [[.vertex [98]]]]).1.vertices) =
        [[[98]], [[98]]] ∧
    [SetOp.intersect, .difference].map (fun op => (executeChildSteps noTriples
      [([109], [.combine op [[.vertex [98]]]])] 2
      [.vertex [97], .traverse .out [112] none, .morphism [109]]).1.vertices) = [[[98]], [[98]]] ∧
    intersect.expected ∅ (childSets noTriples [] 1 [[.vertex [98]]]) = ∅ ∧
    difference.expected ∅ (childSets noTriples [] 1 [[.vertex [98]]]) = ∅ :=
  ⟨members_eq_empty.mpr (by decide +kernel), by decide +kernel, by decide +kernel,
    Set.empty_inter _, Set.empty_sdiff _⟩

end WaveDB.Graph
