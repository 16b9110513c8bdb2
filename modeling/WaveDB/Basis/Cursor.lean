import Mathlib.Data.List.Basic

/-!
Cursors: machines that move silently and now and then report something.

`Visits` says what a cursor reports until it is finished. `next` is one call, up to the next
report, and `collect` calls it until nothing is reported; both run on fuel.

`Visits.sift`: a cursor that judges what another one visits reports what `sift` keeps.
-/

namespace WaveDB.Basis

open List

variable {σ τ α ρ : Type}

inductive Move (σ ρ : Type) where
  | finished
  | moved (s : σ)
  | visited (r : ρ) (s : σ)

/-- What a cursor reports from a state on. -/
inductive Visits (step : σ → Move σ ρ) : σ → List ρ → Prop
  | finished {s : σ} (h : step s = .finished) : Visits step s []
  | moved {s s' : σ} {rs : List ρ} (h : step s = .moved s') (rest : Visits step s' rs) :
      Visits step s rs
  | visited {s s' : σ} {r : ρ} {rs : List ρ} (h : step s = .visited r s')
      (rest : Visits step s' rs) : Visits step s (r :: rs)

/-- The moves up to the next report; the outer `none` when the fuel runs out. -/
protected def next (step : σ → Move σ ρ) : Nat → σ → Option (Option (ρ × σ))
  | 0, _ => none
  | fuel + 1, s =>
    match step s with
    | .finished => some none
    | .moved s' => Basis.next step fuel s'
    | .visited r s' => some (some (r, s'))

def collect (step : σ → Move σ ρ) : Nat → σ → Option (List ρ)
  | 0, _ => none
  | fuel + 1, s =>
    match Basis.next step (fuel + 1) s with
    | none => none
    | some none => some []
    | some (some (r, s')) => (collect step fuel s').map (r :: ·)

/-! ### Fuel -/

section Fuel

variable {step : σ → Move σ ρ} {s : σ} {rs rs' : List ρ} {fuel : Nat}

theorem next_succ {o : Option (ρ × σ)} (h : Basis.next step fuel s = some o) :
    Basis.next step (fuel + 1) s = some o := by
  induction fuel generalizing s with
  | zero => cases h
  | succ fuel ih =>
    rw [Basis.next] at h ⊢
    cases hstep : step s with
    | finished | visited r s' =>
      rw [hstep] at h
      exact h
    | moved s' =>
      rw [hstep] at h
      exact ih h

theorem Visits.unique (h : Visits step s rs) (h' : Visits step s rs') : rs = rs' := by
  induction h generalizing rs' with
  | finished hstep =>
    cases h' with
    | finished => rfl
    | moved hstep' | visited hstep' => exact nomatch hstep.symm.trans hstep'
  | moved hstep _ ih =>
    cases h' with
    | finished hstep' | visited hstep' => exact nomatch hstep.symm.trans hstep'
    | moved hstep' rest' =>
      cases hstep.symm.trans hstep'
      exact ih rest'
  | visited hstep _ ih =>
    cases h' with
    | finished hstep' | moved hstep' => exact nomatch hstep.symm.trans hstep'
    | visited hstep' rest' =>
      cases hstep.symm.trans hstep'
      rw [ih rest']

theorem Visits.collect (h : Visits step s rs) :
    ∃ n, ∀ fuel, n ≤ fuel → Basis.collect step fuel s = some rs := by
  induction h with
  | finished hstep =>
    refine ⟨1, fun fuel hfuel => ?_⟩
    obtain ⟨fuel, rfl⟩ := Nat.exists_eq_add_of_le' hfuel
    rw [Basis.collect, Basis.next, hstep]
  | @moved s s' rs hstep _ ih =>
    obtain ⟨n, ih⟩ := ih
    refine ⟨n + 2, fun fuel hfuel => ?_⟩
    obtain ⟨fuel, rfl⟩ := Nat.exists_eq_add_of_le' (show 2 ≤ fuel by omega)
    have hcall : Basis.next step (fuel + 2) s = Basis.next step (fuel + 1) s' := by
      rw [Basis.next, hstep]
    have hless := ih (fuel + 1) (by omega)
    have hmore := ih (fuel + 2) (by omega)
    rw [Basis.collect] at hless hmore
    rw [Basis.collect, hcall]
    -- The call from `s'` ends within the smaller fuel, so the larger one ends in the same way.
    cases hnext : Basis.next step (fuel + 1) s' with
    | none =>
      rw [hnext] at hless
      cases hless
    | some o =>
      rw [next_succ hnext] at hmore
      exact hmore
  | visited hstep _ ih =>
    obtain ⟨n, ih⟩ := ih
    refine ⟨n + 1, fun fuel hfuel => ?_⟩
    obtain ⟨fuel, rfl⟩ := Nat.exists_eq_add_of_le' (show 1 ≤ fuel by omega)
    simp only [Basis.collect, Basis.next, hstep, ih fuel (show n ≤ fuel by omega), Option.map_some]

theorem visits_nil_of_next (h : Basis.next step fuel s = some none) : Visits step s [] := by
  induction fuel generalizing s with
  | zero => cases h
  | succ fuel ih =>
    rw [Basis.next] at h
    cases hstep : step s with
    | finished => exact .finished hstep
    | moved s' =>
      rw [hstep] at h
      exact .moved hstep (ih h)
    | visited r s' =>
      rw [hstep] at h
      cases h

theorem visits_cons_of_next {r : ρ} {s' : σ} (h : Basis.next step fuel s = some (some (r, s')))
    (rest : Visits step s' rs) : Visits step s (r :: rs) := by
  induction fuel generalizing s with
  | zero => cases h
  | succ fuel ih =>
    rw [Basis.next] at h
    cases hstep : step s with
    | finished =>
      rw [hstep] at h
      cases h
    | moved mid =>
      rw [hstep] at h
      exact .moved hstep (ih h)
    | visited r' mid =>
      rw [hstep] at h
      cases h
      exact .visited hstep rest

theorem visits_of_collect (h : collect step fuel s = some rs) : Visits step s rs := by
  induction fuel generalizing s rs with
  | zero => cases h
  | succ fuel ih =>
    rw [collect] at h
    split at h
    · cases h
    · rename_i hnext
      cases h
      exact visits_nil_of_next hnext
    · rename_i r s' hnext
      obtain ⟨rest, hrest, rfl⟩ := Option.map_eq_some_iff.mp h
      exact visits_cons_of_next hnext (ih hrest)

/-- Whatever is collected is what enough fuel collects. -/
theorem collect_unique {n : Nat} (h : collect step fuel s = some rs)
    (h' : ∀ fuel, n ≤ fuel → collect step fuel s = some rs') : rs = rs' :=
  (visits_of_collect h).unique (visits_of_collect (h' n (Nat.le_refl n)))

/-- What any amount of fuel beyond some point gives. -/
theorem enough_unique {run : Nat → Option α} {n m : Nat} {a b : α}
    (h : ∀ fuel, n ≤ fuel → run fuel = some a) (h' : ∀ fuel, m ≤ fuel → run fuel = some b) :
    a = b :=
  Option.some.inj ((h _ (Nat.le_max_left n m)).symm.trans (h' _ (Nat.le_max_right n m)))

end Fuel

/-! ### Judging what is visited -/

/-- What becomes of a visited thing: nothing, a report, or the end of the walk. -/
inductive Verdict (ρ : Type) where
  | skip
  | report (r : ρ)
  | stop

def sift (judge : α → Verdict ρ) : List α → List ρ
  | [] => []
  | a :: rest =>
    match judge a with
    | .skip => sift judge rest
    | .report r => r :: sift judge rest
    | .stop => []

def Move.judged (judge : α → Verdict ρ) (wrap : σ → τ) : Move σ α → Move τ ρ
  | .finished => .finished
  | .moved s => .moved (wrap s)
  | .visited a s =>
    match judge a with
    | .skip => .moved (wrap s)
    | .report r => .visited r (wrap s)
    | .stop => .finished

theorem Visits.sift {step : σ → Move σ α} {step' : τ → Move τ ρ} {judge : α → Verdict ρ}
    {wrap : σ → τ} (hstep : ∀ s, step' (wrap s) = (step s).judged judge wrap) {s : σ}
    {as : List α} (h : Visits step s as) : Visits step' (wrap s) (Basis.sift judge as) := by
  induction h with
  | finished hs => exact .finished (by rw [hstep, hs]; rfl)
  | moved hs _ ih => exact .moved (by rw [hstep, hs]; rfl) ih
  | @visited s s' a as hs _ ih =>
    have hmove : step' (wrap s) = (Move.visited a s').judged judge wrap := by rw [hstep, hs]
    rw [Move.judged] at hmove
    rw [Basis.sift]
    cases hjudge : judge a with
    | skip =>
      rw [hjudge] at hmove
      exact .moved hmove ih
    | report r =>
      rw [hjudge] at hmove
      exact .visited hmove ih
    | stop =>
      rw [hjudge] at hmove
      exact .finished hmove

/-- A report comes from something that no stop precedes. -/
theorem mem_sift {judge : α → Verdict ρ} {as : List α} {r : ρ} :
    r ∈ sift judge as ↔ ∃ before a after, as = before ++ a :: after ∧ judge a = .report r ∧
      ∀ x ∈ before, judge x ≠ .stop := by
  induction as with
  | nil =>
    constructor
    · exact fun h => absurd h not_mem_nil
    · rintro ⟨before, a, after, h, -⟩
      exact absurd h.symm (append_ne_nil_of_right_ne_nil _ (cons_ne_nil a after))
  | cons a rest ih =>
    have htail : (∃ before b after, a :: rest = before ++ b :: after ∧ judge b = .report r ∧
        ∀ x ∈ before, judge x ≠ .stop) ↔
        judge a = .report r ∨ judge a ≠ .stop ∧ r ∈ sift judge rest := by
      rw [ih]
      constructor
      · rintro ⟨before, b, after, hsplit, hb, hbefore⟩
        cases before with
        | nil =>
          cases hsplit
          exact .inl hb
        | cons x before =>
          cases hsplit
          exact .inr ⟨hbefore _ mem_cons_self, before, b, after, rfl, hb,
            fun y hy => hbefore y (mem_cons_of_mem _ hy)⟩
      · rintro (ha | ⟨ha, before, b, after, rfl, hb, hbefore⟩)
        · exact ⟨[], a, rest, rfl, ha, fun x hx => absurd hx not_mem_nil⟩
        · refine ⟨a :: before, b, after, rfl, hb, fun x hx => ?_⟩
          rcases mem_cons.mp hx with rfl | hx
          · exact ha
          · exact hbefore x hx
    rw [htail, sift]
    cases hjudge : judge a with
    | skip => simp
    | report r' => simp [eq_comm]
    | stop => simp

theorem pairwise_sift {R : α → α → Prop} {S : ρ → ρ → Prop} {judge : α → Verdict ρ}
    (hjudge : ∀ a b r s, R a b → judge a = .report r → judge b = .report s → S r s)
    {as : List α} (h : as.Pairwise R) : (sift judge as).Pairwise S := by
  induction as with
  | nil => exact List.Pairwise.nil
  | cons a as ih =>
    obtain ⟨hhead, htail⟩ := pairwise_cons.mp h
    rw [sift]
    cases ha : judge a with
    | skip => exact ih htail
    | report r =>
      refine pairwise_cons.mpr ⟨fun s hs => ?_, ih htail⟩
      obtain ⟨before, b, after, rfl, hs, -⟩ := mem_sift.mp hs
      exact hjudge a b r s (hhead b (by simp)) ha hs
    | stop => exact List.Pairwise.nil

/-- In a list ordered by `lt`, what precedes something is what is below it. -/
theorem mem_sift_of_pairwise {lt : α → α → Prop} (hasymm : ∀ a b, lt a b → ¬ lt b a)
    {judge : α → Verdict ρ} {as : List α} (h : as.Pairwise lt) {r : ρ} :
    r ∈ sift judge as ↔ ∃ a ∈ as, judge a = .report r ∧ ∀ x ∈ as, lt x a → judge x ≠ .stop := by
  rw [mem_sift]
  constructor
  · rintro ⟨before, a, after, rfl, ha, hbefore⟩
    obtain ⟨-, hafter, -⟩ := pairwise_append.mp h
    refine ⟨a, by simp, ha, fun x hx hlt => ?_⟩
    rcases mem_append.mp hx with hx | hx
    · exact hbefore x hx
    · rcases mem_cons.mp hx with rfl | hx
      · exact absurd hlt (hasymm _ _ hlt)
      · exact absurd hlt (hasymm _ _ ((pairwise_cons.mp hafter).1 x hx))
  · rintro ⟨a, hmem, ha, hbelow⟩
    obtain ⟨before, after, rfl⟩ := append_of_mem hmem
    obtain ⟨-, -, hbefore⟩ := pairwise_append.mp h
    exact ⟨before, a, after, rfl, ha, fun x hx =>
      hbelow x (mem_append_left _ hx) (hbefore x hx a mem_cons_self)⟩

end WaveDB.Basis
