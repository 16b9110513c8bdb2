import Mathlib.Algebra.BigOperators.Group.List.Basic

/-!
Runs of a partial step function, and lists of calls of which one takes a step.

An action is taken when `step` enables it and the guard `allowed` admits it; the
constant guard admits every interleaving.

* `Reaches.invariant` is the induction rule: what holds at the start and is kept by
  every admitted step holds in every state reached.
-/

namespace WaveDB.Basis

open List Option

variable {σ α : Type}

/-- The states reached from `start` by admitted steps. -/
inductive Reaches (step : σ → α → Option σ) (allowed : σ → α → Bool) (start : σ) : σ → Prop
  | start : Reaches step allowed start start
  | next {s s' : σ} (a : α) : Reaches step allowed start s → allowed s a = true →
      step s a = some s' → Reaches step allowed start s'

def always (_ : σ) (_ : α) : Bool := true

def perform (step : σ → α → Option σ) (allowed : σ → α → Bool) : σ → List α → Option σ
  | s, [] => some s
  | s, a :: rest => if allowed s a then (step s a).bind (perform step allowed · rest) else none

section

variable {step : σ → α → Option σ} {allowed : σ → α → Bool} {start : σ}

/-- What holds at the start and is kept by every allowed step holds in every reached state. -/
theorem Reaches.invariant (Inv : σ → Prop) (hstart : Inv start)
    (hstep : ∀ s a s', Inv s → allowed s a → step s a = some s' → Inv s') {s : σ}
    (h : Reaches step allowed start s) : Inv s := by
  induction h with
  | start => exact hstart
  | next a _ hallowed hs ih => exact hstep _ a _ ih hallowed hs

theorem Reaches.perform {s s' : σ} {actions : List α} (h : Reaches step allowed start s)
    (hrun : Basis.perform step allowed s actions = some s') : Reaches step allowed start s' := by
  induction actions generalizing s with
  | nil =>
    obtain rfl : s = s' := some.inj hrun
    exact h
  | cons a rest ih =>
    rw [Basis.perform] at hrun
    split at hrun
    · rename_i hallowed
      obtain ⟨mid, hmid, hrest⟩ := bind_eq_some_iff.mp hrun
      exact ih (h.next a hallowed hmid) hrest
    · cases hrun

theorem Reaches.unguarded {s : σ} (h : Reaches step allowed start s) :
    Reaches step always start s := by
  induction h with
  | start => exact .start
  | next a _ _ hstep ih => exact ih.next a rfl hstep

/-- Guards that agree as long as an invariant holds, which the second one keeps. -/
theorem perform_congr {allowed' : σ → α → Bool} (Inv : σ → Prop)
    (hstep : ∀ s a s', Inv s → step s a = some s' →
      allowed s a = allowed' s a ∧ (allowed' s a → Inv s')) {s : σ} (hs : Inv s)
    (actions : List α) :
    Basis.perform step allowed s actions = Basis.perform step allowed' s actions := by
  induction actions generalizing s with
  | nil => rfl
  | cons a rest ih =>
    rw [Basis.perform, Basis.perform]
    cases hnext : step s a with
    | none => simp
    | some s' =>
      obtain ⟨heq, hkeep⟩ := hstep s a s' hs hnext
      rw [heq]
      split
      · exact ih (hkeep ‹_›)
      · rfl

/-- A sequence of actions that evaluates to a state with `p` reaches such a state. -/
theorem exists_reaches {p : σ → Prop} [DecidablePred p] (actions : List α)
    (h : (perform step allowed start actions).any (fun s => decide (p s))) :
    ∃ s, Reaches step allowed start s ∧ p s := by
  cases hrun : perform step allowed start actions with
  | none => simp [hrun] at h
  | some s =>
    rw [hrun, any_some, decide_eq_true_eq] at h
    exact ⟨s, Reaches.start.perform hrun, h⟩

/-- The same with what holds in every state reached. -/
theorem exists_reaches_and {p q : σ → Prop} [DecidablePred p] (actions : List α)
    (h : (perform step allowed start actions).any (fun s => decide (p s)))
    (hq : ∀ s, Reaches step allowed start s → q s) :
    ∃ s, Reaches step allowed start s ∧ p s ∧ q s := by
  obtain ⟨s, hs, hp⟩ := exists_reaches actions h
  exact ⟨s, hs, hp, hq s hs⟩

end

/-! ### Calls that take turns -/

section Calls

variable [DecidableEq α]

def moveCall (calls : List α) (i : Nat) (source target : α) : Option (List α) :=
  if calls[i]? = some source then some (calls.set i target) else none

variable {calls calls' : List α} {i : Nat} {source target : α}

theorem moveCall_eq_some : moveCall calls i source target = some calls' ↔
    calls[i]? = some source ∧ calls' = calls.set i target := by
  rw [moveCall, ite_none_right_eq_some, some.injEq, eq_comm (a := calls')]

theorem countP_moveCall (p : α → Bool) (h : moveCall calls i source target = some calls') :
    calls'.countP p + (p source).toNat = calls.countP p + (p target).toNat := by
  obtain ⟨hi, rfl⟩ := moveCall_eq_some.mp h
  clear h
  induction calls generalizing i with
  | nil => cases hi
  | cons x rest ih =>
    cases i with
    | zero =>
      cases hi
      rw [set_cons_zero, countP_cons, countP_cons]
      cases p source <;> cases p target <;> simp
    | succ i =>
      have hrest := ih hi
      rw [set_cons_succ, countP_cons, countP_cons]
      omega

end Calls

section Set

variable {β : Type} {f : α → β} {xs : List α} {i j : Nat} {x y a : α}

theorem getElem?_set_cases (h : (xs.set i y)[j]? = some a) :
    i = j ∧ a = y ∨ i ≠ j ∧ xs[j]? = some a := by
  rw [getElem?_set] at h
  split at h
  · rename_i hij
    split at h
    · exact .inl ⟨hij, (some.inj h).symm⟩
    · cases h
  · exact .inr ⟨‹_›, h⟩

theorem eq_or_mem_set (hx : xs[i]? = some x) (ha : a ∈ xs) : a = x ∨ a ∈ xs.set i y := by
  obtain ⟨j, hj⟩ := mem_iff_getElem?.mp ha
  by_cases hij : i = j
  · subst hij
    exact .inl (some.inj (hj.symm.trans hx))
  · exact .inr (mem_of_getElem? ((getElem?_set_ne hij).trans hj))

theorem mem_modify_cases {g : α → α} (h : a ∈ xs.modify i g) :
    a ∈ xs ∨ ∃ x, xs[i]? = some x ∧ a = g x := by
  obtain ⟨j, hj⟩ := mem_iff_getElem?.mp h
  rw [getElem?_modify] at hj
  obtain ⟨x, hx, rfl⟩ := map_eq_some_iff.mp hj
  split
  · next hij => exact .inr ⟨x, hij ▸ hx, rfl⟩
  · exact .inl (mem_of_getElem? hx)

theorem map_set_of_eq (hx : xs[i]? = some x) (hy : f y = f x) : (xs.set i y).map f = xs.map f := by
  obtain ⟨hi, rfl⟩ := List.getElem?_eq_some_iff.mp hx
  rw [map_set, hy, ← map_set, set_getElem_self]

/-- Where the calls have keys of their own, a call other than the new one has another key than the
call it took the place of. -/
theorem mem_set_of_nodup (hnodup : (xs.map f).Nodup) (hx : xs[i]? = some x)
    (ha : a ∈ xs.set i y) : a = y ∨ a ∈ xs ∧ f a ≠ f x := by
  obtain ⟨j, hj⟩ := mem_iff_getElem?.mp ha
  rcases getElem?_set_cases hj with ⟨-, hay⟩ | ⟨hne, hj⟩
  · exact .inl hay
  · refine .inr ⟨mem_of_getElem? hj, fun heq => hne ?_⟩
    have hlt : i < (xs.map f).length := by
      rw [length_map]
      exact (List.getElem?_eq_some_iff.mp hx).1
    refine (getElem?_inj hlt hnodup).mp ?_
    rw [getElem?_map, getElem?_map, hx, hj, map_some, map_some, heq]

end Set

/-- The sum over the calls, before and after one of them changes. -/
theorem sum_map_set {M : Type} [AddCommMonoid M] (f : α → M) {xs : List α} {i : Nat} {x y : α}
    (h : xs[i]? = some x) : ((xs.set i y).map f).sum + f x = (xs.map f).sum + f y := by
  induction xs generalizing i with
  | nil => cases h
  | cons a xs ih =>
    cases i with
    | zero =>
      cases h
      simp only [set_cons_zero, map_cons, sum_cons]
      rw [add_comm (f y), add_right_comm, add_comm (xs.map f).sum]
    | succ i =>
      simp only [set_cons_succ, map_cons, sum_cons]
      rw [add_assoc, ih h, add_assoc]

end WaveDB.Basis
