import WaveDB.Basis.ExchangeSort
import WaveDB.Basis.Relink
import WaveDB.Graph.Alias
import WaveDB.Graph.Morphism

/-!
The query optimizer (`Layers/graph/graph_optimizer.c`).

`graph_query_execute_sync` rewrites a chain before it runs it: a filter before a traversal joins
it, a set operation with one child is replaced by the child, and filters and the children of
intersections are sorted by estimates.

* `optimizer_keeps_meaning`: which chains keep their meaning.
* `repeated_query_same`: when a query can be run again.
-/

namespace WaveDB.Graph

open WaveDB.Basis HBTrie Database Workers List QueryStep GraphIndex

/-! ### Passes -/

/-- `fuse_has_traversal`: the filter of a `HAS` step goes to the traversal behind it. -/
def fuseHasTraversal : List QueryStep → List QueryStep
  | .has filter :: .traverse direction predicate _ :: rest =>
    .traverse direction predicate (some filter) :: fuseHasTraversal rest
  | step :: rest => step :: fuseHasTraversal rest
  | [] => []

def startsWithVertex : List QueryStep → Bool
  | .vertex _ :: _ => true
  | _ => false

mutual

/-- What `fold_single_child_ops` puts in the place of a step: the child's chain, which is looked
at in the same way, for an intersection or union with one child. Behind another step a child that
begins with a vertex stays. A missing child would be dereferenced. -/
def foldStep (behind : Bool) : QueryStep → Option (List QueryStep)
  | .combine op [child] =>
    if op = .difference ∨ (behind = true ∧ startsWithVertex child = true) then
      some [.combine op [child]]
    else if child = [] then none
    else foldSteps behind child
  | step => some [step]

/-- `fold_single_child_ops`, behind another step or at the beginning. -/
def foldSteps (behind : Bool) : List QueryStep → Option (List QueryStep)
  | [] => some []
  | step :: rest =>
    (foldStep behind step).bind fun front => (foldSteps true rest).map fun steps => front ++ steps

end

def graphOptimize (steps : List QueryStep) : Option (List QueryStep) :=
  foldSteps false (fuseHasTraversal steps)

/-- What `graph_stats_estimate_has` and `graph_stats_estimate_chain` return. -/
structure GraphEstimates where
  has : HasFilter → Nat
  chain : List QueryStep → Nat

/-- The links of a run of `n` filters before it is sorted; the last one leads on behind the run. -/
def runLinks (n i : Nat) : Option Nat := if i + 1 < n then some (i + 1) else none

/-- A run as it is linked after it was sorted. The link of the new last step is read from
`run_end`, the step that was last before. If the links do not lead on behind the run, the loop that
collects the next run does not end: `none`. -/
def relinkedRun (estimate : HasFilter → Nat) (run : List HasFilter) : Option (List HasFilter) :=
  let order := exchangeSort (fun i => run[i]?.elim 0 estimate) (range run.length)
  order.head?.elim (some []) fun first =>
    (follow (relink (runLinks run.length) order (run.length - 1)) run.length first).map
      (filterMap (run[·]?))

/-- The loop of `graph_optimize_reorder_has`, with the run of filters that it is in. -/
def reorderRuns (estimate : HasFilter → Nat) (run : List HasFilter) :
    List QueryStep → Option (List QueryStep)
  | [] => (relinkedRun estimate run).map (map .has)
  | .has filter :: rest => reorderRuns estimate (run ++ [filter]) rest
  | step :: rest =>
    (relinkedRun estimate run).bind fun front =>
      (reorderRuns estimate [] rest).map fun later => front.map .has ++ step :: later

variable (stats : Option GraphEstimates)

def graphOptimizeReorderHas (steps : List QueryStep) : Option (List QueryStep) :=
  stats.elim (some steps) fun estimates => reorderRuns estimates.has [] steps

def reorderIntersectChildrenInStep (estimate : List QueryStep → Nat) : QueryStep → QueryStep
  | .combine .intersect children => .combine .intersect (exchangeSort estimate children)
  | step => step

/-- A step in `graph_optimize_reorder_intersect_children`: its children are sorted, and then the
intersections in their chains. -/
def reorderIntersectStep (estimate : List QueryStep → Nat) : QueryStep → QueryStep
  | .combine .intersect children =>
    .combine .intersect ((exchangeSort estimate children).map fun child =>
      child.map (reorderIntersectChildrenInStep estimate))
  | step => step

def graphOptimizeReorderIntersectChildren (steps : List QueryStep) : List QueryStep :=
  stats.elim steps fun estimates => steps.map (reorderIntersectStep estimates.chain)

/-- The chain that `graph_query_execute_sync` runs. -/
def optimizeQuery (steps : List QueryStep) : Option (List QueryStep) :=
  (graphOptimize steps).bind fun steps =>
    (graphOptimizeReorderHas stats steps).map (graphOptimizeReorderIntersectChildren stats)

/-! ### Conditions on a chain -/

mutual

/-- A child that takes the place of its step is not empty, and the step is the first one: behind
another step the operation with the vertices before it would be lost. -/
def QueryStep.foldsSafely (behind : Bool) : QueryStep → Bool
  | .combine op [child] => decide (op = .difference) ||
      if behind then startsWithVertex child else !child.isEmpty && chainFoldsSafely false child
  | _ => true

def chainFoldsSafely (behind : Bool) : List QueryStep → Bool
  | [] => true
  | step :: rest => step.foldsSafely behind && chainFoldsSafely true rest

end

/-- Joining the two steps loses no filter. -/
def joinsSafely : QueryStep → QueryStep → Bool
  | .has _, .traverse _ _ (some _) => false
  | _, _ => true

/-- The chain without the filters that join a traversal. -/
def standing : List QueryStep → List QueryStep
  | .has _ :: .traverse direction predicate filter :: rest =>
    .traverse direction predicate filter :: standing rest
  | step :: rest => step :: standing rest
  | [] => []

/-- The chain with the child in the place of a first step that is folded. -/
def opened : List QueryStep → List QueryStep
  | .combine op [child] :: rest =>
    if op = .difference then .combine op [child] :: rest else opened child ++ rest
  | steps => steps

/-- All runs of filters and all set operations of a chain fit, with the run that it is in. -/
def chainFits (fits : List HasFilter → Bool) (fitsOp : SetOp → List (List QueryStep) → Bool)
    (run : List HasFilter) : List QueryStep → Bool
  | [] => fits run
  | .has filter :: rest => chainFits fits fitsOp (run ++ [filter]) rest
  | .combine op children :: rest => fits run && fitsOp op children && chainFits fits fitsOp [] rest
  | _ :: rest => fits run && chainFits fits fitsOp [] rest

/-- No filter of a run has a larger estimate than the last one. -/
def lastLargest (estimate : HasFilter → Nat) (run : List HasFilter) : Bool :=
  run.getLast?.all fun last => run.all fun filter => estimate filter ≤ estimate last

/-- The runs of filters that are sorted end with their largest estimate. -/
def sortsSafely (steps : List QueryStep) : Bool :=
  stats.all fun estimates =>
    chainFits (lastLargest estimates.has) (fun _ _ => true) [] (opened (standing steps))

def atMostOneChild : QueryStep → Bool
  | .combine .intersect children => decide (children.length < 2)
  | _ => true

def sortsNothing (steps : List QueryStep) : Bool :=
  stats.all fun _ => chainFits (·.length < 2)
    (fun op children => atMostOneChild (.combine op children) &&
      children.all fun child => child.all atMostOneChild) [] (opened (standing steps))

/-! ### Relinking -/

section Relinking

variable {estimate : HasFilter → Nat} {run sorted : List HasFilter} {steps : List QueryStep}

theorem filterMap_range_getElem? (run : List HasFilter) :
    (range run.length).filterMap (run[·]?) = run := by
  induction run using reverseRecOn with
  | nil => rfl
  | append_singleton run filter ih =>
    rw [length_append, length_singleton, range_succ, filterMap_append]
    congr 1
    · conv_rhs => rw [← ih]
      refine filterMap_congr fun i hi => ?_
      exact getElem?_append_left (mem_range.mp hi)
    · simp

/-- The sort leaves the last step last exactly if no estimate is larger. Otherwise the steps are
linked to a ring. -/
theorem follow_sorted (estimate : Nat → Nat) (n : Nat) :
    ∃ first rest, exchangeSort estimate (range (n + 1)) = first :: rest ∧
      ((∀ i < n, estimate i ≤ estimate n) →
        follow (relink (runLinks (n + 1)) (first :: rest) n) (n + 1) first =
          some (first :: rest)) ∧
      ((∃ i < n, estimate n < estimate i) → ∀ fuel,
        follow (relink (runLinks (n + 1)) (first :: rest) n) fuel first = none) := by
  have hperm := exchangeSort_perm estimate (range (n + 1))
  have hlast : (exchangeSort estimate (range (n + 1))).getLast? = some n ↔
      ∀ i < n, estimate i ≤ estimate n := by
    rw [range_succ, getLast?_exchangeSort estimate not_mem_range_self]
    exact forall_congr' fun i => imp_congr_left mem_range
  obtain ⟨first, rest, horder⟩ : ∃ first rest, exchangeSort estimate (range (n + 1)) =
      first :: rest := exists_cons_of_length_pos (by rw [hperm.length_eq, length_range]; omega)
  rw [horder] at hperm hlast
  refine ⟨first, rest, horder, fun hall => ?_, ?_⟩
  · have hend : runLinks (n + 1) n = none := if_neg (lt_irrefl (n + 1))
    have hfollow := follow_relink (hperm.nodup_iff.mpr nodup_range) (hlast.mpr hall) hend
    rwa [hperm.length_eq, length_range] at hfollow
  · rintro ⟨i, hi, hless⟩ fuel
    have hold : n ∈ first :: rest := hperm.mem_iff.mpr (by simp)
    refine follow_relink_eq_none hold (fun heq => ?_) fuel mem_cons_self
    exact absurd (hlast.mp heq i hi) (not_le.mpr hless)

theorem relinkedRun_spec (estimate : HasFilter → Nat) (run : List HasFilter) :
    if lastLargest estimate run then
      ∃ sorted, relinkedRun estimate run = some sorted ∧ sorted.Perm run
    else relinkedRun estimate run = none := by
  rcases eq_nil_or_concat' run with rfl | ⟨front, last, hrun⟩
  · exact ⟨[], rfl, .refl _⟩
  · have hlength : run.length = front.length + 1 := by rw [hrun, length_append, length_singleton]
    have hestimate : run[front.length]?.elim 0 estimate = estimate last := by simp [hrun]
    have hlargest : lastLargest estimate run = true ↔ ∀ i < front.length,
        run[i]?.elim 0 estimate ≤ run[front.length]?.elim 0 estimate := by
      rw [hestimate]
      simp only [lastLargest, hrun, getLast?_concat, Option.all_some, all_eq_true,
        decide_eq_true_eq, forall_mem_append, forall_mem_singleton, le_refl, and_true]
      rw [forall_mem_iff_getElem]
      refine forall_congr' fun i => forall_congr' fun hi => ?_
      rw [getElem?_append_left hi, getElem?_eq_getElem hi]
      rfl
    obtain ⟨first, rest, horder, hfits, hring⟩ :=
      follow_sorted (fun i => run[i]?.elim 0 estimate) front.length
    have hrelinked : relinkedRun estimate run = (follow (relink (runLinks (front.length + 1))
        (first :: rest) front.length) (front.length + 1) first).map (filterMap (run[·]?)) := by
      rw [relinkedRun, hlength, horder]
      rfl
    rw [hrelinked]
    split
    · rename_i hlast
      rw [hfits (hlargest.mp hlast)]
      refine ⟨_, rfl, ?_⟩
      have hperm := (exchangeSort_perm (fun i => run[i]?.elim 0 estimate)
        (range run.length)).filterMap (run[·]?)
      rwa [filterMap_range_getElem?, hlength, horder] at hperm
    · rename_i hlast
      rw [hlargest] at hlast
      push Not at hlast
      rw [hring hlast, Option.map_none]

end Relinking

/-! ### Sorting -/

section Sorting

variable {q : QueryEnv} {steps : List QueryStep}

theorem mem_runSteps_has {v : Bytes} (current : VertexSet) (first : Bool) (run : List HasFilter) :
    v ∈ (runSteps q current first (run.map .has)).1 ↔ (run = [] ∨ first = false → v ∈ current) ∧
        ∀ filter ∈ run, v ∈ (executeFilter q.scan none filter).1 := by
  induction run generalizing current first with
  | nil => simp [runSteps]
  | cons filter run ih =>
    rw [map_cons, runSteps, ih, runStep, mem_executeFilter (inputOf first current), forall_mem_cons]
    cases first with
    | true => simp [inputOf]
    | false =>
      simp only [inputOf, Bool.false_eq_true, if_false, Option.mem_some_iff, forall_eq']
      tauto

theorem sameSet_map {change : QueryStep → QueryStep} (hlimit : chainLimitFree q.plain steps)
    (hchange : ∀ step ∈ steps, ∀ current first, SameSet (runStep q current first (change step)).1
      (runStep q current first step).1) (current : VertexSet) (first : Bool) :
    SameSet (runSteps q current first (steps.map change)).1
      (runSteps q current first steps).1 := by
  induction steps generalizing current first with
  | nil => exact .refl _
  | cons step rest ih =>
    rw [chainLimitFree, Bool.and_eq_true] at hlimit
    rw [forall_mem_cons] at hchange
    exact (ih hlimit.2 hchange.2 _ _).trans ((hchange.1 current first).runSteps hlimit.2 _)

theorem sameSet_run {run sorted : List HasFilter} (h : sorted.Perm run) (current : VertexSet)
    (first : Bool) : SameSet (runSteps q current first (sorted.map .has)).1
      (runSteps q current first (run.map .has)).1 := by
  intro v
  rw [mem_runSteps_has, mem_runSteps_has, ← length_eq_zero_iff, h.length_eq, length_eq_zero_iff]
  exact and_congr_right fun _ => forall_congr' fun filter => imp_congr_left h.mem_iff

theorem chainFits_cons {fits : List HasFilter → Bool} {run : List HasFilter} {step : QueryStep}
    (h : ∀ filter, step ≠ .has filter) (rest : List QueryStep) :
    chainFits fits (fun _ _ => true) run (step :: rest) =
      (fits run && chainFits fits (fun _ _ => true) [] rest) := by
  cases step with
  | has filter => exact absurd rfl (h filter)
  | combine op children => rw [chainFits, Bool.and_true]
  | _ => rfl

/-- The pass returns if every run ends with its largest estimate, and then the chain finds the same
vertices. -/
theorem reorderRuns_spec (q : QueryEnv) (estimate : HasFilter → Nat) (run : List HasFilter)
    (steps : List QueryStep) :
    if chainFits (lastLargest estimate) (fun _ _ => true) run steps then
      ∃ sorted, reorderRuns estimate run steps = some sorted ∧
        sorted.Perm (run.map .has ++ steps) ∧ (chainLimitFree q.plain steps →
          ∀ current first, SameSet (runSteps q current first sorted).1
            (runSteps q current first (run.map .has ++ steps)).1)
    else reorderRuns estimate run steps = none := by
  fun_induction reorderRuns estimate run steps with
  | case1 run =>
    have hspec := relinkedRun_spec estimate run
    rw [chainFits]
    split at hspec
    · rename_i hfits
      obtain ⟨sorted, hsorted, hperm⟩ := hspec
      rw [if_pos hfits, hsorted, append_nil]
      exact ⟨_, rfl, hperm.map _, fun _ => sameSet_run hperm⟩
    · rename_i hring
      rw [if_neg hring, hspec, Option.map_none]
  | case2 run filter rest ih =>
    rw [chainFits]
    rw [map_append, append_assoc] at ih
    refine (if_congr Iff.rfl ?_ rfl).mp ih
    simp only [chainLimitFree, limitFree, Bool.true_and]
    rfl
  | case3 run step rest hstep ih =>
    have hspec := relinkedRun_spec estimate run
    rw [chainFits_cons (fun filter heq => hstep filter heq)]
    split at hspec
    · rename_i hfits
      obtain ⟨front, hfront, hperm⟩ := hspec
      rw [hfits, Bool.true_and, hfront, Option.bind_some]
      split at ih
      · rename_i hrest
        obtain ⟨later, hlater, hlaterPerm, hsame⟩ := ih
        rw [if_pos hrest, hlater]
        refine ⟨_, rfl, (hperm.map _).append (hlaterPerm.cons step), ?_⟩
        intro hlimit current first
        have hempty : (front.map has).isEmpty = (run.map has).isEmpty := by
          rw [Bool.eq_iff_iff, isEmpty_iff_length_eq_zero, isEmpty_iff_length_eq_zero,
            (hperm.map has).length_eq]
        have hlimitRest := hlimit
        rw [chainLimitFree, Bool.and_eq_true] at hlimitRest
        rw [runSteps_append, runSteps_append, hempty]
        refine SameSet.trans ?_ ((sameSet_run hperm current first).runSteps hlimit _)
        rw [runSteps, runSteps]
        exact hsame hlimitRest.2 _ _
      · rename_i hring
        rw [if_neg hring, ih, Option.map_none]
    · rename_i hring
      rw [Bool.not_eq_true] at hring
      rw [hring, Bool.false_and, hspec, Option.bind_none]
      rfl

theorem sameSet_intersect {children : List (List QueryStep)} {change : List QueryStep →
    List QueryStep} (estimate : List QueryStep → Nat) (hchange : ∀ child ∈ children,
      SameSet (runSteps q .init true (change child)).1 (runSteps q .init true child).1)
    (current : VertexSet) (first : Bool) : SameSet (runStep q current first
        (.combine .intersect ((exchangeSort estimate children).map change))).1
      (runStep q current first (.combine .intersect children)).1 := by
  have hperm := exchangeSort_perm estimate children
  apply (SameSet.refl current).combineWith
  intro v
  simp only [runChildren_eq, mem_combineResults_intersect, forall_mem_map, graphExecuteChain_fst,
    ne_eq, ← length_eq_zero_iff, length_map, hperm.length_eq]
  apply and_congr_right
  intro _
  constructor
  · intro hall child hmem
    exact (hchange child hmem v).mp (hall child (hperm.mem_iff.mpr hmem))
  · intro hall child hmem
    exact (hchange child (hperm.mem_iff.mp hmem) v).mpr (hall child (hperm.mem_iff.mp hmem))

theorem sameSet_reorderIntersectStep (estimate : List QueryStep → Nat) {step : QueryStep}
    (hlimit : step.limitFree q.plain) (current : VertexSet) (first : Bool) :
    SameSet (runStep q current first (reorderIntersectStep estimate step)).1
      (runStep q current first step).1 := by
  unfold reorderIntersectStep
  split
  · rename_i children
    rw [limitFree, childrenLimitFree_iff] at hlimit
    apply sameSet_intersect
    intro child hmem
    apply sameSet_map (hlimit child hmem)
    intro step _ current first
    unfold reorderIntersectChildrenInStep
    split
    · rename_i children _
      rw [← map_id (exchangeSort estimate children)]
      exact sameSet_intersect estimate (fun child _ => .refl _) current first
    · exact .refl _
  · exact .refl _

theorem sameSet_reorderIntersectChildren (stats : Option GraphEstimates)
    (hlimit : chainLimitFree q.plain steps) (current : VertexSet) (first : Bool) :
    SameSet (runSteps q current first (graphOptimizeReorderIntersectChildren stats steps)).1
      (runSteps q current first steps).1 := by
  cases stats with
  | none => exact .refl _
  | some estimates =>
    refine sameSet_map hlimit (fun step hmem => ?_) current first
    exact sameSet_reorderIntersectStep estimates.chain (chainLimitFree_iff.mp hlimit step hmem)

/-- A chain in which there is nothing to sort stays as it is. -/
theorem reorderRuns_short (estimate : HasFilter → Nat)
    {fitsOp : SetOp → List (List QueryStep) → Bool} {run : List HasFilter}
    (h : chainFits (·.length < 2) fitsOp run steps) :
    reorderRuns estimate run steps = some (run.map .has ++ steps) := by
  have hshort : ∀ {run : List HasFilter}, run.length < 2 → relinkedRun estimate run = some run := by
    intro run hlength
    rcases run with _ | ⟨filter, _ | ⟨next, rest⟩⟩
    · rfl
    · rfl
    · exact absurd hlength (by simp)
  fun_induction reorderRuns estimate run steps with
  | case1 run =>
    rw [hshort (of_decide_eq_true h), append_nil]
    rfl
  | case2 run filter rest ih =>
    rw [ih h, map_append, append_assoc]
    rfl
  | case3 run step rest hstep ih =>
    obtain ⟨hrun, hrest⟩ : run.length < 2 ∧
        chainFits (·.length < 2) fitsOp [] rest = true := by
      cases step with
      | has filter => exact absurd rfl (hstep filter)
      | combine op children =>
        simp only [chainFits, Bool.and_eq_true, decide_eq_true_eq] at h
        exact ⟨h.1.1, h.2⟩
      | _ => simpa [chainFits] using h
    rw [hshort hrun, ih hrest]
    rfl

theorem exchangeSort_short {α : Type} {estimate : α → Nat} {xs : List α} (h : xs.length < 2) :
    exchangeSort estimate xs = xs := by
  rcases xs with _ | ⟨x, _ | ⟨y, rest⟩⟩
  · rfl
  · rfl
  · exact absurd h (by simp)

end Sorting

/-! ### Joining and folding -/

section Folding

variable {q : QueryEnv} {behind : Bool} {steps : List QueryStep} {plain : Bytes → Bool}

/-- Filters that join traversals without one find the same vertices there. -/
theorem runSteps_fuseHasTraversal (h : steps.IsChain fun a b => joinsSafely a b = true)
    (current : VertexSet) (first : Bool) :
    (runSteps q current first (fuseHasTraversal steps)).1 = (runSteps q current first steps).1 := by
  fun_induction fuseHasTraversal steps generalizing current first with
  | case1 filter direction predicate old rest ih =>
    obtain ⟨hjoin, hrest⟩ := isChain_cons_cons.mp h
    cases old with
    | some filter' => cases hjoin
    | none =>
      rw [runSteps, runSteps, runSteps, ih hrest.tail, runStep, runStep, runStep,
        executeHasTraversal_fst]
  | case2 step rest _ ih => rw [runSteps, runSteps, ih h.tail]
  | case3 => rfl

theorem chainLimitFree_fuseHasTraversal (h : chainLimitFree plain steps) :
    chainLimitFree plain (fuseHasTraversal steps) = true := by
  fun_induction fuseHasTraversal steps with
  | case1 filter direction predicate old rest ih =>
    simp only [chainLimitFree, Bool.and_eq_true] at h ⊢
    exact ⟨rfl, ih h.2.2⟩
  | case2 step rest _ ih =>
    rw [chainLimitFree, Bool.and_eq_true] at h ⊢
    exact ⟨h.1, ih h.2⟩
  | case3 => rfl

theorem chainFoldsSafely_fuseHasTraversal :
    chainFoldsSafely behind (fuseHasTraversal steps) = chainFoldsSafely behind steps := by
  fun_induction fuseHasTraversal steps generalizing behind with
  | case1 filter direction predicate old rest ih =>
    simp [chainFoldsSafely, foldsSafely, ih]
  | case2 step rest _ ih => rw [chainFoldsSafely, chainFoldsSafely, ih]
  | case3 => rfl

/-- Behind another step nothing is folded. -/
theorem foldSteps_behind (h : chainFoldsSafely true steps) : foldSteps true steps = some steps := by
  induction steps with
  | nil => rfl
  | cons step rest ih =>
    rw [chainFoldsSafely, Bool.and_eq_true] at h
    have hstep : foldStep true step = some [step] := by
      unfold foldStep
      split
      · rename_i op child
        refine if_pos ?_
        simpa [foldsSafely] using h.1
      · rfl
    rw [foldSteps, hstep, Option.bind_some, ih h.2]
    rfl

theorem foldSteps_first (h : chainFoldsSafely false steps) :
    foldSteps false steps = some (opened steps) := by
  fun_induction opened steps with
  | case1 child rest =>
    rw [chainFoldsSafely, Bool.and_eq_true] at h
    rw [foldSteps, foldStep, if_pos (.inl rfl), Option.bind_some, foldSteps_behind h.2]
    rfl
  | case2 op child rest hop ih =>
    simp only [chainFoldsSafely, foldsSafely, hop, decide_false, Bool.false_or, Bool.false_eq_true,
      if_false, Bool.and_eq_true, Bool.not_eq_true', isEmpty_eq_false_iff] at h
    rw [foldSteps, foldStep, if_neg (by simp [hop]), if_neg h.1.1, ih h.1.2, Option.bind_some,
      foldSteps_behind h.2]
    rfl
  | case3 steps hother =>
    cases steps with
    | nil => rfl
    | cons step rest =>
      rw [chainFoldsSafely, Bool.and_eq_true] at h
      rw [foldSteps, foldStep, Option.bind_some, foldSteps_behind h.2]
      · rfl
      · intro op child heq
        exact hother op child rest (by rw [heq])

/-- A child in the place of a first step finds what the step makes of it. -/
theorem runSteps_opened (h : chainFoldsSafely false steps) :
    (opened steps).isEmpty = steps.isEmpty ∧
      (runSteps q .init true (opened steps)).1 = (runSteps q .init true steps).1 := by
  fun_induction opened steps with
  | case1 | case3 => exact ⟨rfl, rfl⟩
  | case2 op child rest hop ih =>
    simp only [chainFoldsSafely, foldsSafely, hop, decide_false, Bool.false_or, Bool.false_eq_true,
      if_false, Bool.and_eq_true, Bool.not_eq_true'] at h
    obtain ⟨hempty, hsame⟩ := ih h.1.2
    rw [h.1.1] at hempty
    constructor
    · simpa using fun hnil => absurd hnil (isEmpty_eq_false_iff.mp hempty)
    · have hstep : (runStep q .init true (.combine op [child])).1 =
          (runSteps q .init true child).1 := rfl
      rw [runSteps_append, hsame, hempty, runSteps, hstep]
      rfl

theorem chainLimitFree_opened (h : chainLimitFree plain steps) :
    chainLimitFree plain (opened steps) = true := by
  fun_induction opened steps with
  | case1 | case3 => exact h
  | case2 op child rest hop ih =>
    rw [chainLimitFree, limitFree, childrenLimitFree, childrenLimitFree, Bool.and_true,
      Bool.and_eq_true] at h
    rw [chainLimitFree_iff, forall_mem_append, ← chainLimitFree_iff, ← chainLimitFree_iff]
    exact ⟨ih h.1, h.2⟩

theorem graphOptimize_eq (h : chainFoldsSafely false steps) :
    graphOptimize steps = some (opened (fuseHasTraversal steps)) :=
  foldSteps_first (chainFoldsSafely_fuseHasTraversal.trans h)

/-- The first two passes keep the vertices that a chain finds, and their order. -/
theorem runSteps_graphOptimize (hjoins : steps.IsChain fun a b => joinsSafely a b = true)
    (hfolds : chainFoldsSafely false steps) :
    (runSteps q .init true (opened (fuseHasTraversal steps))).1 =
      (runSteps q .init true steps).1 := by
  rw [(runSteps_opened (chainFoldsSafely_fuseHasTraversal.trans hfolds)).2,
    runSteps_fuseHasTraversal hjoins]

variable {fits : List HasFilter → Bool} {fitsOp : SetOp → List (List QueryStep) → Bool}

theorem chainFits_fuseHasTraversal (run : List HasFilter) :
    chainFits fits fitsOp run (fuseHasTraversal steps) =
      chainFits fits fitsOp run (standing steps) := by
  fun_induction fuseHasTraversal steps generalizing run with
  | case1 filter direction predicate old rest ih =>
    rw [standing]
    exact congrArg (fits run && ·) (ih [])
  | case2 step rest hother ih =>
    rw [standing]
    · cases step <;> simp only [chainFits, ih]
    · exact hother
  | case3 => rfl

theorem chainFits_append (front rest rest' : List QueryStep)
    (h : ∀ run, chainFits fits fitsOp run rest = chainFits fits fitsOp run rest')
    (run : List HasFilter) : chainFits fits fitsOp run (front ++ rest) =
      chainFits fits fitsOp run (front ++ rest') := by
  induction front generalizing run with
  | nil => exact h run
  | cons step front ih => cases step <;> simp only [cons_append, chainFits, ih]

/-- Which filters joined a traversal does not matter for the filters that are left. -/
theorem chainFits_opened (steps : List QueryStep) :
    chainFits fits fitsOp [] (opened (fuseHasTraversal steps)) =
      chainFits fits fitsOp [] (opened (standing steps)) := by
  have hself : ∀ {steps : List QueryStep},
      (∀ op child rest, steps ≠ .combine op [child] :: rest) → opened steps = steps := by
    intro steps hother
    rw [opened]
    exact hother
  cases steps with
  | nil => rfl
  | cons step rest =>
    by_cases hstep : ∃ op child, step = .combine op [child]
    · obtain ⟨op, child, rfl⟩ := hstep
      have hopened : ∀ rest, opened (.combine op [child] :: rest) =
          if op = .difference then .combine op [child] :: rest else opened child ++ rest := by
        intro rest
        rw [opened]
      rw [fuseHasTraversal, standing, hopened, hopened]
      split
      · exact congrArg (fits [] && fitsOp op [child] && ·) (chainFits_fuseHasTraversal [])
      · exact chainFits_append _ _ _ chainFits_fuseHasTraversal []
      · simp
      · simp
    · push Not at hstep
      rw [hself, hself, chainFits_fuseHasTraversal]
      · intro op child tail heq
        rw [standing.eq_def] at heq
        split at heq <;> simp_all
      · intro op child tail heq
        rw [fuseHasTraversal.eq_def] at heq
        split at heq <;> simp_all

end Folding

/-! ### Chains that keep their meaning -/

section Meaning

variable (q : QueryEnv) (stats : Option GraphEstimates)

def found (steps : List QueryStep) : VertexSet := (graphExecuteChain q steps).1

/-- The query finds the vertices of the chain that it was made of. -/
def KeepsMeaning (steps : List QueryStep) : Prop :=
  ∃ optimized, optimizeQuery stats steps = some optimized ∧
    SameSet (found q optimized) (found q steps)

variable {q stats} {steps : List QueryStep}

theorem optimizeQuery_eq (h : chainFoldsSafely false steps) : optimizeQuery stats steps =
      (graphOptimizeReorderHas stats (opened (fuseHasTraversal steps))).map
        (graphOptimizeReorderIntersectChildren stats) := by
  rw [optimizeQuery, graphOptimize_eq h, Option.bind_some]

theorem fitsOp_of_mem {fits : List HasFilter → Bool}
    {fitsOp : SetOp → List (List QueryStep) → Bool} {run : List HasFilter}
    (h : chainFits fits fitsOp run steps) {op : SetOp} {children : List (List QueryStep)}
    (hmem : .combine op children ∈ steps) : fitsOp op children = true := by
  fun_induction chainFits fits fitsOp run steps with
  | case1 => cases hmem
  | case2 run filter rest ih => exact ih h (by simpa using hmem)
  | case3 run op' children' rest ih =>
    rw [Bool.and_eq_true, Bool.and_eq_true] at h
    rcases mem_cons.mp hmem with heq | hmem
    · obtain ⟨rfl, rfl⟩ := combine.inj heq
      exact h.1.2
    · exact ih h.2 hmem
  | case4 run step rest _ hstep ih =>
    rw [Bool.and_eq_true] at h
    rcases mem_cons.mp hmem with heq | hmem
    · exact absurd heq.symm (hstep op children)
    · exact ih h.2 hmem

theorem reorderIntersectStep_of_fits {estimate : List QueryStep → Nat} {step : QueryStep}
    (h : ∀ children, step = .combine .intersect children →
      (atMostOneChild (.combine .intersect children) &&
        children.all fun child => child.all atMostOneChild) = true) :
    reorderIntersectStep estimate step = step := by
  unfold reorderIntersectStep
  split
  · rename_i children
    have hfits := h children rfl
    rw [Bool.and_eq_true, atMostOneChild, decide_eq_true_eq] at hfits
    rw [exchangeSort_short hfits.1]
    refine congrArg (combine .intersect) ((map_congr_left fun child hchild => ?_).trans (map_id _))
    refine (map_congr_left fun step hmem => ?_).trans (map_id _)
    have hstep := all_eq_true.mp (all_eq_true.mp hfits.2 child hchild) step hmem
    unfold reorderIntersectChildrenInStep
    split
    · rw [exchangeSort_short (of_decide_eq_true hstep)]
      rfl
    · rfl
  · rfl

/-- Where there is nothing to sort, limits do no harm. -/
theorem keepsMeaning_of_sortsNothing (hjoins : steps.IsChain fun a b => joinsSafely a b = true)
    (hfolds : chainFoldsSafely false steps) (h : sortsNothing stats steps) :
    KeepsMeaning q stats steps := by
  refine ⟨opened (fuseHasTraversal steps), ?_, ?_⟩
  · rw [optimizeQuery_eq hfolds]
    cases stats with
    | none => rfl
    | some estimates =>
      rw [sortsNothing, Option.all_some, ← chainFits_opened] at h
      rw [graphOptimizeReorderHas, Option.elim_some, reorderRuns_short estimates.has h,
        Option.map_some, graphOptimizeReorderIntersectChildren, Option.elim_some]
      refine congrArg some ((map_congr_left fun step hmem => ?_).trans (map_id _))
      exact reorderIntersectStep_of_fits fun children heq => fitsOp_of_mem h (heq ▸ hmem)
  · rw [found, found, graphExecuteChain_fst, graphExecuteChain_fst,
      runSteps_graphOptimize hjoins hfolds]
    exact .refl _

theorem keepsMeaning_iff (hlimit : chainLimitFree q.plain steps)
    (hjoins : steps.IsChain fun a b => joinsSafely a b = true)
    (hfolds : chainFoldsSafely false steps) :
    KeepsMeaning q stats steps ↔ sortsSafely stats steps = true := by
  have hpasses := @runSteps_graphOptimize q steps hjoins hfolds
  simp only [KeepsMeaning, optimizeQuery_eq hfolds, found, graphExecuteChain_fst]
  cases stats with
  | none => exact iff_of_true ⟨_, rfl, hpasses ▸ .refl _⟩ rfl
  | some estimates =>
    have hspec := reorderRuns_spec q estimates.has [] (opened (fuseHasTraversal steps))
    rw [chainFits_opened, map_nil, nil_append] at hspec
    rw [sortsSafely, Option.all_some, graphOptimizeReorderHas, Option.elim_some]
    split at hspec
    · rename_i hfits
      obtain ⟨sorted, hsorted, hperm, hsame⟩ := hspec
      have hfree := chainLimitFree_opened (chainLimitFree_fuseHasTraversal hlimit)
      have hsortedFree : chainLimitFree q.plain sorted = true := by
        rw [chainLimitFree_iff] at hfree ⊢
        exact fun step hmem => hfree step (hperm.mem_iff.mp hmem)
      refine iff_of_true ⟨_, by rw [hsorted]; rfl, ?_⟩ hfits
      rw [← hpasses]
      exact (sameSet_reorderIntersectChildren (some estimates) hsortedFree _ _).trans
        (hsame hfree _ _)
    · rename_i hring
      refine iff_of_false ?_ hring
      rw [hspec]
      rintro ⟨_, ⟨⟩, -⟩

end Meaning

/-- A chain without limits, in which no filter is lost and nothing folded behind another step, keeps
its meaning exactly if the runs of filters that are sorted end with their largest estimate. -/
theorem optimizer_keeps_meaning (q : QueryEnv) (stats : Option GraphEstimates)
    (steps : List QueryStep) (hlimit : chainLimitFree q.plain steps = true)
    (hjoins : steps.IsChain fun a b => joinsSafely a b = true)
    (hfolds : chainFoldsSafely false steps = true) :
    KeepsMeaning q stats steps ↔ sortsSafely stats steps = true :=
  keepsMeaning_iff hlimit hjoins hfolds

section Stores

attribute [local instance] headCbor

/-! ### Examples -/

/-- `knows` `b`. -/
def knowsFilter : HasFilter := ⟨knowsEdge.predicate, [98], .eq⟩

/-- The vertex `a`, those it knows, and of them those who know `b`. -/
def knownWhoKnow : List QueryStep :=
  [.vertex [97], .traverse .out knowsEdge.predicate none, .has knowsFilter]

/-- The vertex `b`, with those who know `b`. -/
def withThoseWhoKnow : List QueryStep :=
  [.vertex [98], .combine .union [[.has knowsFilter]]]

theorem knownWhoKnow_keeps_meaning : chainFoldsSafely false knownWhoKnow = true ∧
      ∀ q stats, sortsSafely stats knownWhoKnow = true ∧ KeepsMeaning q stats knownWhoKnow := by
  refine ⟨rfl, fun q stats => ?_⟩
  have hsorts : sortsSafely stats knownWhoKnow = true := by
    cases stats with
    | none => rfl
    | some estimates => simp [sortsSafely, knownWhoKnow, standing, opened, chainFits, lastLargest]
  exact ⟨hsorts, (optimizer_keeps_meaning q stats knownWhoKnow rfl (by decide) rfl).mpr hsorts⟩

theorem executeFilter_knows {scan : LayerScan} (hscan : Scans knowsDb none scan)
    (input : Option VertexSet) : executeFilter scan input knowsFilter =
      (VertexSet.init.addAll ([[97]].filter fun subject => input.all fun set =>
        set.contains subject), 0) := by
  have hkeys : scan (hasStart knowsFilter.predicate knowsFilter.value .eq)
      (hasEnd knowsFilter.predicate knowsFilter.value .eq) =
        .ok [[slash].intercalate (pos.name :: pos.strings knowsEdge)] :=
    hscan.eq_ok 60 (by decide +kernel)
  simp only [executeFilter, graphExecuteHas, show knowsFilter.cmp = .eq from rfl, hkeys]
  rfl

/-- In the store of `a knows b` the vertex `b`, with those who know it, becomes the vertex `b`, if
it knows itself. -/
theorem fold_turns_union_into_filter : (∃ scan, Scans knowsDb none scan) ∧
      ∀ q stats, Scans knowsDb none q.scan →
        chainLimitFree q.plain withThoseWhoKnow = true ∧
        optimizeQuery stats withThoseWhoKnow = some [.vertex [98], .has knowsFilter] ∧
        (found q withThoseWhoKnow).vertices = [[98], [97]] ∧
        (found q [.vertex [98], .has knowsFilter]).vertices = [] ∧
        ¬ KeepsMeaning q stats withThoseWhoKnow := by
  refine ⟨exists_scans_insertedDb (by decide +kernel), ?_⟩
  intro q stats hscan
  have hfilter := executeFilter_knows hscan
  have hunion : (found q withThoseWhoKnow).vertices = [[98], [97]] := by
    simp only [found, graphExecuteChain_fst, withThoseWhoKnow, runSteps, runStep, runChildren,
      inputOf, if_true, Option.elim_none, Option.getD_some, hfilter]
    decide +kernel
  have hfolded : (found q [.vertex [98], .has knowsFilter]).vertices = [] := by
    simp only [found, graphExecuteChain_fst, runSteps, runStep, inputOf, if_true, hfilter]
    decide +kernel
  have hquery : optimizeQuery stats withThoseWhoKnow = some [.vertex [98], .has knowsFilter] := by
    cases stats <;> rfl
  refine ⟨rfl, hquery, hunion, hfolded, ?_⟩
  rintro ⟨optimized, hopt, hsame⟩
  obtain rfl := Option.some.inj (hquery.symm.trans hopt)
  have hnil := hsame.vertices_eq_nil.mp hfolded
  rw [hunion] at hnil
  cases hnil

/-! ### Repeated execution -/

/-- A chain in which no filter is lost, nothing is folded behind another step and no run linked to a
ring, and which has no limits or nothing to sort. -/
def repeatable (plain : Bytes → Bool) (stats : Option GraphEstimates) (steps : List QueryStep) :
    Bool :=
  decide (steps.IsChain fun a b => joinsSafely a b = true) && chainFoldsSafely false steps &&
    sortsSafely stats steps && (chainLimitFree plain steps || sortsNothing stats steps)

/-- The chain that a call of `graph_query_execute_sync` leaves in the query. -/
def executeQuery (stats : Option GraphEstimates) (steps : List QueryStep) (_ : Unit) :
    Option (List QueryStep) :=
  optimizeQuery stats steps

theorem keepsMeaning_of_repeatable {q : QueryEnv} {stats : Option GraphEstimates}
    {steps : List QueryStep} (h : repeatable q.plain stats steps) : KeepsMeaning q stats steps := by
  simp only [repeatable, Bool.and_eq_true, Bool.or_eq_true, decide_eq_true_eq] at h
  obtain ⟨⟨⟨hjoins, hfolds⟩, hsorts⟩, hlimit | hnothing⟩ := h
  · exact (keepsMeaning_iff hlimit hjoins hfolds).mpr hsorts
  · exact keepsMeaning_of_sortsNothing hjoins hfolds hnothing

/-- As long as no call meets a chain in which it would lose a filter, all of them find the same
vertices, and none fails to return. Steps may name the morphisms of a layer. -/
theorem repeated_query_same (scan : LayerScan) (morphisms : List (Bytes × List QueryStep))
    (fuel : Nat) {stats : Option GraphEstimates} {first steps : List QueryStep}
    (hrun : Reaches (executeQuery stats)
      (fun steps _ => repeatable (isPlain morphisms) stats steps) first steps) :
    SameSet (executeChildSteps scan morphisms (fuel + 1) steps).1
        (executeChildSteps scan morphisms (fuel + 1) first).1 ∧
      (repeatable (isPlain morphisms) stats steps = true →
        (executeQuery stats steps ()).isSome = true) := by
  have hkeeps : ∀ steps, repeatable (isPlain morphisms) stats steps = true →
      KeepsMeaning (layerEnv scan morphisms (executeChildSteps scan morphisms fuel)) stats steps :=
    fun steps h => keepsMeaning_of_repeatable (q := layerEnv scan morphisms _) h
  constructor
  · apply hrun.invariant (fun steps => SameSet (executeChildSteps scan morphisms (fuel + 1) steps).1
      (executeChildSteps scan morphisms (fuel + 1) first).1) (.refl _)
    intro steps _ steps' hsame hallowed hstep
    obtain ⟨optimized, hopt, hkept⟩ := hkeeps steps hallowed
    obtain rfl := Option.some.inj (hopt.symm.trans hstep)
    exact hkept.trans hsame
  · intro hrepeatable
    obtain ⟨optimized, hopt, -⟩ := hkeeps steps hrepeatable
    exact Option.isSome_of_mem hopt

/-- Whom those know who know `b`, along a morphism. -/
def knownByThose : List QueryStep :=
  [.has knowsFilter, .traverse .out knowsEdge.predicate none, .morphism [109]]

theorem repeated_query_same_twice :
    let later := [.traverse .out knowsEdge.predicate (some knowsFilter), .morphism [109]]
    Reaches (executeQuery none) (fun steps _ => repeatable (isPlain []) none steps)
        knownByThose later ∧
      ∀ scan, SameSet (executeChildSteps scan [] 1 later).1
        (executeChildSteps scan [] 1 knownByThose).1 := by
  have hrun : Reaches (executeQuery none) (fun steps _ => repeatable (isPlain []) none steps)
      knownByThose
      [.traverse .out knowsEdge.predicate (some knowsFilter), .morphism [109]] :=
    (Reaches.start.next () rfl rfl).next () rfl rfl
  exact ⟨hrun, fun scan => (repeated_query_same scan [] 0 hrun).1⟩

/-- Whom those know who know `b` and `c`. -/
def knownByBoth : List QueryStep :=
  [.has knowsFilter, .has { knowsFilter with value := [99] },
    .traverse .out knowsEdge.predicate none]

/-- In the store of `a knows b` the first call finds nothing. In the chain that it leaves, the
second call loses a filter, and finds `b`. -/
theorem repeated_query_loses_filter : (∃ scan, Scans knowsDb none scan) ∧
      ∀ q stats, Scans knowsDb none q.scan →
        ∃ once twice, executeQuery stats knownByBoth () = some once ∧
          executeQuery stats once () = some twice ∧ (found q once).vertices = [] ∧
          (found q twice).vertices = [[98]] := by
  refine ⟨exists_scans_insertedDb (by decide +kernel), ?_⟩
  intro q stats hscan
  refine ⟨[.has knowsFilter,
      .traverse .out knowsEdge.predicate (some { knowsFilter with value := [99] })],
    [.traverse .out knowsEdge.predicate (some knowsFilter)], ?_, ?_, ?_, ?_⟩
  · have hopt : graphOptimize knownByBoth = some [.has knowsFilter,
        .traverse .out knowsEdge.predicate (some { knowsFilter with value := [99] })] := rfl
    rw [executeQuery, optimizeQuery, hopt]
    cases stats <;> rfl
  · cases stats <;> rfl
  · have hkeys : q.scan (hasStart knowsFilter.predicate [99] .eq)
        (hasEnd knowsFilter.predicate [99] .eq) = .ok [] := hscan.eq_ok 60 (by decide +kernel)
    simp only [found, graphExecuteChain_fst, runSteps, runStep, executeHasTraversal, executeFilter,
      graphExecuteHas,
      show knowsFilter.cmp = .eq from rfl, hkeys]
    rfl
  · have hkeys : q.scan (buildPrefixVec spo.name [97] knowsEdge.predicate)
        (appendSuccessor (buildPrefixVec spo.name [97] knowsEdge.predicate)) =
          .ok [[slash].intercalate (spo.name :: spo.strings knowsEdge)] :=
      hscan.eq_ok 60 (by decide +kernel)
    have hfilter : executeFilter q.scan none knowsFilter = (.single [97], 0) :=
      executeFilter_knows hscan none
    simp only [found, graphExecuteChain_fst, runSteps, runStep, executeHasTraversal, inputOf,
      if_true, hfilter, ne_eq,
      not_true_eq_false, if_false, VertexSet.single, expandEach, executeTraversal, graphExecuteOut,
      scanEach, hkeys]
    decide +kernel

end Stores

end WaveDB.Graph
