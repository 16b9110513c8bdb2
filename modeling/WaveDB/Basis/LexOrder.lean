import Mathlib.Data.List.Lex
import Mathlib.Order.Lattice

/-!
Lists in lexicographic order.

A common beginning does not count (`append_lt_append_left`), and everything between two lists
with a common beginning has it too (`prefix_of_between`).
-/

namespace WaveDB.Basis

open List

variable {α : Type*} [LinearOrder α] {as bs x u v q : List α}

theorem append_lt_append_iff (h : as.length = bs.length) :
    as ++ u < bs ++ v ↔ as < bs ∨ as = bs ∧ u < v := by
  induction as generalizing bs with
  | nil =>
    obtain rfl := eq_nil_of_length_eq_zero h.symm
    simp
  | cons a as ih =>
    cases bs with
    | nil => cases h
    | cons b bs =>
      simp only [cons_append, cons_lt_cons_iff, cons.injEq, ih (Nat.succ.inj h)]
      tauto

theorem append_lt_append_left : x ++ u < x ++ v ↔ u < v := by
  rw [append_lt_append_iff rfl]
  simp

theorem append_le_append_left : x ++ u ≤ x ++ v ↔ u ≤ v := by
  rw [← not_lt, append_lt_append_left, not_lt]

theorem self_le_append (x u : List α) : x ≤ x ++ u := by
  have hle := append_le_append_left (x := x).mpr (not_lt.mp (not_lt_nil u))
  rwa [append_nil] at hle

/-- What lies between two lists with a common beginning begins in the same way. -/
theorem prefix_of_between (hle : x ++ u ≤ q) (hlt : q < x ++ v) : ∃ w, q = x ++ w := by
  induction x generalizing q with
  | nil => exact ⟨q, rfl⟩
  | cons a x ih =>
    cases q with
    | nil => exact absurd hle (not_le.mpr (nil_lt_cons _ _))
    | cons b q =>
      rw [cons_append, ← not_lt, cons_lt_cons_iff, not_or, not_and] at hle
      rw [cons_append, cons_lt_cons_iff] at hlt
      have hab : a = b := by
        rcases hlt with hlt | ⟨heq, -⟩
        · exact absurd hlt hle.1
        · exact heq.symm
      subst hab
      have hlt' : q < x ++ v := by
        rcases hlt with hlt | ⟨-, hlt⟩
        · exact absurd hlt (lt_irrefl _)
        · exact hlt
      obtain ⟨w, rfl⟩ := ih (not_lt.mp (hle.2 rfl)) hlt'
      exact ⟨w, rfl⟩

end WaveDB.Basis
