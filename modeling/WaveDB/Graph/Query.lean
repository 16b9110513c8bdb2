import WaveDB.Graph.Traversal

/-!
Queries (`execute_child_steps` and `graph_execute_chain` in `Layers/graph/graph_ops.c`).

A query is a chain of steps. Each step makes a set of vertices from the set before it; the first
step of a chain has no set before it, so that a filter there takes all vertices. The children of a
set operation are chains of their own.

`SameSet` compares sets without their order. A chain without limits depends on the members of the
set it starts from only (`SameSet.runSteps`). What a morphism makes of a set is left to the
environment here, and given in `Morphism`.
-/

namespace WaveDB.Graph

open HBTrie List VertexSet

/-! ### Steps -/

inductive Direction where
  | out | inward
deriving DecidableEq

/-- The filter of a `HAS` step, or of a traversal that it was fused with. -/
structure HasFilter where
  predicate : Bytes
  value : Bytes
  cmp : GraphCmp
deriving DecidableEq

inductive SetOp where
  | intersect | union | difference
deriving DecidableEq

/-- `query_step_t`. The chain that its `next` makes is a list. -/
inductive QueryStep where
  | vertex (id : Bytes)
  | traverse (direction : Direction) (predicate : Bytes) (filter : Option HasFilter)
  | has (filter : HasFilter)
  | limit (count : Nat)
  | morphism (name : Bytes)
  | combine (op : SetOp) (children : List (List QueryStep))

def SameSet (a b : VertexSet) : Prop := ∀ v, v ∈ a ↔ v ∈ b

/-- What a chain runs against: the scans of the layer, and what a morphism makes of the set before
it, of which `plain` ones look at the members only. -/
structure QueryEnv where
  scan : LayerScan
  follow : VertexSet → Bool → Bytes → VertexSet × Int
  plain : Bytes → Bool
  sameSet : ∀ name, plain name = true → ∀ first a b, SameSet a b →
    SameSet (follow a first name).1 (follow b first name).1

/-! ### Execution -/

section Execution

variable (scan : LayerScan)

def executeTraversal : Direction → VertexSet → Bytes → VertexSet × Int
  | .out => graphExecuteOut scan
  | .inward => graphExecuteIn scan

def executeFilter (input : Option VertexSet) (filter : HasFilter) : VertexSet × Int :=
  graphExecuteHas scan input filter.predicate filter.value filter.cmp

/-- The second phase of `graph_execute_has_out` and `graph_execute_has_in`: each vertex by
itself. -/
def expandEach (direction : Direction) (predicate : Bytes) :
    List Bytes → VertexSet → Int → VertexSet × Int
  | [], output, rc => (output, rc)
  | vertex :: rest, output, rc =>
    expandEach direction predicate rest
      (output.addAll (executeTraversal scan direction (.single vertex) predicate).1.vertices)
      (if (executeTraversal scan direction (.single vertex) predicate).2 ≠ 0 then
        (executeTraversal scan direction (.single vertex) predicate).2 else rc)

def executeHasTraversal (direction : Direction) (input : Option VertexSet) (filter : HasFilter)
    (predicate : Bytes) : VertexSet × Int :=
  if (executeFilter scan input filter).2 ≠ 0 then (.init, (executeFilter scan input filter).2)
  else expandEach scan direction predicate (executeFilter scan input filter).1.vertices .init 0

def SetOp.apply : SetOp → VertexSet → VertexSet → VertexSet
  | .intersect => VertexSet.intersect
  | .union => VertexSet.union
  | .difference => VertexSet.difference

def combineWith (op : SetOp) (current combined : VertexSet) : VertexSet :=
  if current.vertices = [] then combined else op.apply current combined

def inputOf (first : Bool) (current : VertexSet) : Option VertexSet :=
  if first then none else some current

section Chain

variable (q : QueryEnv)

mutual

def runStep (current : VertexSet) (first : Bool) : QueryStep → VertexSet × Int
  | .vertex id => if first then (init.add id, 0) else (.init, 0)
  | .traverse direction predicate none => executeTraversal q.scan direction current predicate
  | .traverse direction predicate (some filter) =>
    executeHasTraversal q.scan direction (inputOf first current) filter predicate
  | .has filter => executeFilter q.scan (inputOf first current) filter
  | .limit count => (init.addAll (current.vertices.take count), 0)
  | .morphism name => q.follow current first name
  | .combine op children => (combineWith op current (runChildren op none children), 0)

/-- The loop of `execute_child_steps` from a set on. -/
def runSteps (current : VertexSet) (first : Bool) : List QueryStep → VertexSet × Int
  | [] => (current, 0)
  | step :: rest =>
    ((runSteps (runStep current first step).1 false rest).1,
      if (runSteps (runStep current first step).1 false rest).2 ≠ 0 then
        (runSteps (runStep current first step).1 false rest).2
      else (runStep current first step).2)

/-- The loop over the children, with what the children before give together. An empty child
gives nothing; errors of children are not looked at. -/
def runChildren (op : SetOp) (combined : Option VertexSet) : List (List QueryStep) → VertexSet
  | [] => combined.getD .init
  | child :: rest =>
    runChildren op (some (combined.elim (runSteps .init true child).1
      fun set => op.apply set (runSteps .init true child).1)) rest

end

def graphExecuteChain (steps : List QueryStep) : VertexSet × Int :=
  if steps = [] then (.init, -1) else runSteps q .init true steps

end Chain

end Execution

/-! ### Sets without order -/

section SameSet

variable {a a' b b' c : VertexSet}

theorem SameSet.refl (a : VertexSet) : SameSet a a := fun _ => Iff.rfl

theorem SameSet.trans (h : SameSet a b) (h' : SameSet b c) : SameSet a c :=
  fun v => (h v).trans (h' v)

theorem SameSet.vertices_eq_nil (h : SameSet a b) : a.vertices = [] ↔ b.vertices = [] := by
  rw [eq_nil_iff_forall_not_mem, eq_nil_iff_forall_not_mem]
  exact forall_congr' fun v => not_congr (h v)

theorem SameSet.combineWith (op : SetOp) (h : SameSet a a') (h' : SameSet b b') :
    SameSet (combineWith op a b) (combineWith op a' b') := by
  unfold Graph.combineWith
  by_cases hempty : a.vertices = []
  · rw [if_pos hempty, if_pos (h.vertices_eq_nil.mp hempty)]
    exact h'
  · rw [if_neg hempty, if_neg fun hnil => hempty (h.vertices_eq_nil.mpr hnil)]
    intro v
    cases op with
    | intersect => rw [SetOp.apply, mem_intersect, mem_intersect, h v, h' v]
    | union => rw [SetOp.apply, mem_union, mem_union, h v, h' v]
    | difference =>
      rw [SetOp.apply, mem_difference, mem_difference, h v, h' v]

end SameSet

/-! ### Members of the steps' sets -/

section Members

variable {scan : LayerScan} {direction : Direction} {predicate v : Bytes} {a b : VertexSet}

theorem mem_executeTraversal (set : VertexSet) :
    v ∈ (executeTraversal scan direction set predicate).1 ↔
      ∃ u ∈ set, v ∈ (executeTraversal scan direction (.single u) predicate).1 := by
  cases direction with
  | out | inward =>
    simp only [executeTraversal, graphExecuteOut, graphExecuteIn, mem_scanEach,
      or_iff_right not_mem_init, single, mem_singleton, exists_eq_left]
    rfl

theorem SameSet.executeTraversal (h : SameSet a b) (direction : Direction) (predicate : Bytes) :
    SameSet (executeTraversal scan direction a predicate).1
      (executeTraversal scan direction b predicate).1 := by
  intro v
  rw [mem_executeTraversal a, mem_executeTraversal b]
  exact exists_congr fun u => and_congr_left fun _ => h u

theorem mem_executeFilter (input : Option VertexSet) (filter : HasFilter) :
    v ∈ (executeFilter scan input filter).1 ↔
      v ∈ (executeFilter scan none filter).1 ∧ ∀ set ∈ input, v ∈ set := by
  unfold executeFilter graphExecuteHas
  split
  · exact iff_of_false not_mem_init fun h => not_mem_init h.1
  · split
    · exact iff_of_false not_mem_init fun h => not_mem_init h.1
    · cases input with
      | none => simp
      | some set => simp

theorem executeFilter_failed {input : Option VertexSet} {filter : HasFilter}
    (h : (executeFilter scan input filter).2 ≠ 0) :
      (executeFilter scan input filter).1 = .init := by
  unfold executeFilter graphExecuteHas at h ⊢
  split at h
  · next hlong => rw [if_pos hlong]
  · rename_i hfits
    rw [if_neg hfits]
    split at h
    · rfl
    · exact absurd rfl h

theorem scanEach_cons (prefixFor : Bytes → Bytes) (vertex : Bytes) (rest : List Bytes)
    (output : VertexSet) : (scanEach scan prefixFor (vertex :: rest) output).1 =
      (scanEach scan prefixFor rest
        (output.addAll (scanEach scan prefixFor [vertex] .init).1.vertices)).1 := by
  rw [scanEach, scanEach]
  split
  · rfl
  · split
    · rfl
    · rw [scanEach, addAll_addAll]
      rfl

theorem expandEach_fst (vertices : List Bytes) (output : VertexSet) (rc : Int) :
    (expandEach scan direction predicate vertices output rc).1 =
      (scanEach scan (match direction with
      | .out => fun vertex => buildPrefixVec GraphIndex.spo.name vertex predicate
      | .inward => fun vertex => buildPrefixVec GraphIndex.pos.name predicate vertex)
        vertices output).1 := by
  induction vertices generalizing output rc with
  | nil => rfl
  | cons u rest ih =>
    rw [expandEach, ih, scanEach_cons]
    cases direction <;> rfl

/-- A fused traversal finds what the filter and the traversal find, in the same order. -/
theorem executeHasTraversal_fst (input : Option VertexSet) (filter : HasFilter) :
    (executeHasTraversal scan direction input filter predicate).1 =
      (executeTraversal scan direction (executeFilter scan input filter).1 predicate).1 := by
  unfold executeHasTraversal
  split
  · rename_i hfailed
    rw [executeFilter_failed hfailed]
    cases direction <;> rfl
  · rw [expandEach_fst]
    cases direction <;> rfl

theorem SameSet.executeFilter (h : SameSet a b) (first : Bool) (filter : HasFilter) :
    SameSet (executeFilter scan (inputOf first a) filter).1
      (executeFilter scan (inputOf first b) filter).1 := by
  intro v
  rw [mem_executeFilter (inputOf first a), mem_executeFilter (inputOf first b)]
  cases first with
  | true => rfl
  | false =>
    refine and_congr_right fun _ => ?_
    simp only [inputOf, Bool.false_eq_true, if_false, Option.mem_some_iff, forall_eq']
    exact h v

end Members

/-! ### Chains without limits -/

section LimitFree

variable (plain : Bytes → Bool)

mutual

def QueryStep.limitFree : QueryStep → Bool
  | .limit _ => false
  | .morphism name => plain name
  | .combine _ children => childrenLimitFree children
  | .vertex _ => true
  | .traverse _ _ _ => true
  | .has _ => true

def chainLimitFree : List QueryStep → Bool
  | [] => true
  | step :: rest => step.limitFree && chainLimitFree rest

def childrenLimitFree : List (List QueryStep) → Bool
  | [] => true
  | child :: rest => chainLimitFree child && childrenLimitFree rest

end

end LimitFree

section Chains

variable {q : QueryEnv} {a b : VertexSet} {first : Bool} {op : SetOp} {steps : List QueryStep}
  {plain : Bytes → Bool}

theorem chainLimitFree_iff :
    chainLimitFree plain steps ↔ ∀ step ∈ steps, step.limitFree plain = true := by
  induction steps with
  | nil => simp [chainLimitFree]
  | cons step rest ih => rw [chainLimitFree, Bool.and_eq_true, ih, forall_mem_cons]

theorem childrenLimitFree_iff {children : List (List QueryStep)} :
    childrenLimitFree plain children ↔ ∀ child ∈ children, chainLimitFree plain child = true := by
  induction children with
  | nil => simp [childrenLimitFree]
  | cons child rest ih => rw [childrenLimitFree, Bool.and_eq_true, ih, forall_mem_cons]

/-- A step without a limit depends on the members of the set before it only. -/
theorem SameSet.runStep {step : QueryStep} (h : SameSet a b) (hlimit : step.limitFree q.plain)
    (first : Bool) : SameSet (runStep q a first step).1 (runStep q b first step).1 := by
  cases step with
  | vertex id => cases first <;> exact .refl _
  | traverse direction predicate filter =>
    cases filter with
    | none =>
      exact h.executeTraversal direction predicate
    | some filter =>
      rw [Graph.runStep, Graph.runStep, executeHasTraversal_fst, executeHasTraversal_fst]
      exact (h.executeFilter first filter).executeTraversal direction predicate
  | has filter =>
    exact h.executeFilter first filter
  | limit count => cases hlimit
  | morphism name => exact q.sameSet name hlimit first a b h
  | combine op children =>
    exact h.combineWith op (.refl _)

theorem SameSet.runSteps (h : SameSet a b) (hlimit : chainLimitFree q.plain steps) (first : Bool) :
    SameSet (runSteps q a first steps).1 (runSteps q b first steps).1 := by
  induction steps generalizing a b first with
  | nil =>
    exact h
  | cons step rest ih =>
    rw [chainLimitFree, Bool.and_eq_true] at hlimit
    exact ih (h.runStep hlimit.1 first) hlimit.2 false

theorem runSteps_append (current : VertexSet) (first : Bool) (front rest : List QueryStep) :
    (runSteps q current first (front ++ rest)).1 =
      (runSteps q (runSteps q current first front).1 (first && front.isEmpty) rest).1 := by
  induction front generalizing current first with
  | nil => rw [nil_append, runSteps, isEmpty_nil, Bool.and_true]
  | cons step front ih =>
    rw [cons_append, runSteps, runSteps, ih, isEmpty_cons, Bool.and_false, Bool.false_and]

theorem runSteps_singleton (current : VertexSet) (first : Bool) (step : QueryStep) :
    (runSteps q current first [step]).1 = (runStep q current first step).1 := by
  rw [runSteps, runSteps]

theorem graphExecuteChain_fst (steps : List QueryStep) :
    (graphExecuteChain q steps).1 = (runSteps q .init true steps).1 := by
  unfold graphExecuteChain
  split
  · rename_i hnil
    subst hnil
    rfl
  · rfl

/-- What children with these results give together. -/
def combineResults (op : SetOp) : List VertexSet → VertexSet
  | [] => .init
  | first :: rest => rest.foldl op.apply first

theorem runChildren_eq (children : List (List QueryStep)) : runChildren q op none children =
      combineResults op (children.map fun child => (graphExecuteChain q child).1) := by
  have hsome : ∀ (children : List (List QueryStep)) set, runChildren q op (some set) children =
      (children.map fun child => (graphExecuteChain q child).1).foldl op.apply set := by
    intro children
    induction children with
    | nil => intro set; rw [runChildren, map_nil, foldl_nil, Option.getD_some]
    | cons child rest ih =>
      intro set
      rw [runChildren, ih, map_cons, foldl_cons, Option.elim_some, graphExecuteChain_fst]
  cases children with
  | nil => rfl
  | cons child rest =>
    rw [runChildren, hsome, Option.elim_none, map_cons, combineResults, graphExecuteChain_fst]

theorem mem_combineResults_intersect {v : Bytes} (results : List VertexSet) :
    v ∈ combineResults .intersect results ↔ results ≠ [] ∧ ∀ set ∈ results, v ∈ set := by
  have hfold : ∀ (rest : List VertexSet) (set : VertexSet),
      v ∈ rest.foldl SetOp.intersect.apply set ↔ v ∈ set ∧ ∀ set ∈ rest, v ∈ set := by
    intro rest
    induction rest with
    | nil => simp
    | cons next rest ih =>
      intro set
      rw [foldl_cons, ih, SetOp.apply, mem_intersect, forall_mem_cons, and_assoc]
  cases results with
  | nil => simp [combineResults]
  | cons first rest => simp [combineResults, hfold]

end Chains

end WaveDB.Graph
