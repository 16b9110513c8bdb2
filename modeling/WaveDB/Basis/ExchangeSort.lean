import Mathlib.Data.List.Perm.Basic

/-!
Sorting by exchange: each place in turn is compared with those behind it, and takes the smaller
element. `exchangeSort_perm`: the result is a permutation. `getLast?_exchangeSort`: the last element
stays last exactly if none is larger.
-/

namespace WaveDB.Basis

variable {α : Type}

/-- The comparisons for one place: what it holds afterwards, and the places behind it. -/
def exchange (estimate : α → Nat) : α → List α → α × List α
  | x, [] => (x, [])
  | x, y :: rest =>
    if estimate y < estimate x then
      ((exchange estimate y rest).1, x :: (exchange estimate y rest).2)
    else ((exchange estimate x rest).1, y :: (exchange estimate x rest).2)

/-- The loop over the places, of which there are `n`. -/
def exchangePlaces (estimate : α → Nat) : Nat → List α → List α
  | 0, xs => xs
  | _ + 1, [] => []
  | n + 1, x :: rest =>
    (exchange estimate x rest).1 :: exchangePlaces estimate n (exchange estimate x rest).2

def exchangeSort (estimate : α → Nat) (xs : List α) : List α :=
  exchangePlaces estimate xs.length xs

variable (estimate : α → Nat)

theorem exchange_perm (x : α) (rest : List α) :
    ((exchange estimate x rest).1 :: (exchange estimate x rest).2).Perm (x :: rest) := by
  induction rest generalizing x with
  | nil => exact .refl _
  | cons y rest ih =>
    rw [exchange]
    split
    · exact (List.Perm.swap ..).trans ((ih y).cons x)
    · exact (List.Perm.swap ..).trans (((ih x).cons y).trans (List.Perm.swap ..))

theorem exchangePlaces_perm (n : Nat) (xs : List α) : (exchangePlaces estimate n xs).Perm xs := by
  induction n generalizing xs with
  | zero => exact .refl _
  | succ n ih =>
    cases xs with
    | nil => exact .refl _
    | cons x rest => exact ((ih _).cons _).trans (exchange_perm estimate x rest)

theorem exchangeSort_perm (xs : List α) : (exchangeSort estimate xs).Perm xs :=
  exchangePlaces_perm estimate _ xs

/-- The comparison with the last place comes last. -/
theorem exchange_concat (x : α) (rest : List α) (last : α) : exchange estimate x (rest ++ [last]) =
      if estimate last < estimate (exchange estimate x rest).1 then
        (last, (exchange estimate x rest).2 ++ [(exchange estimate x rest).1])
      else ((exchange estimate x rest).1, (exchange estimate x rest).2 ++ [last]) := by
  induction rest generalizing x with
  | nil => rfl
  | cons y rest ih =>
    rw [List.cons_append, exchange, exchange]
    split
    · rw [ih]
      split <;> rfl
    · rw [ih]
      split <;> rfl

theorem getLast?_exchangePlaces {last : α} {n : Nat} {front : List α} (hlength : front.length ≤ n)
    (hlast : last ∉ front) : (exchangePlaces estimate n (front ++ [last])).getLast? = some last ↔
      ∀ x ∈ front, estimate x ≤ estimate last := by
  induction n generalizing front with
  | zero =>
    obtain rfl := List.length_eq_zero_iff.mp (Nat.le_zero.mp hlength)
    simp [exchangePlaces]
  | succ n ih =>
    cases front with
    | nil => cases n <;> simp [exchangePlaces, exchange]
    | cons x rest =>
      have hperm := exchange_perm estimate x rest
      -- what the later places hold has the last element of the whole
      have hlater : ∀ y ys, ys ≠ [] → (y :: exchangePlaces estimate n ys).getLast? =
          (exchangePlaces estimate n ys).getLast? := by
        intro y ys hne
        rw [List.getLast?_cons, List.getLast?_eq_some_getLast, Option.getD_some]
        rwa [← List.length_pos_iff_ne_nil, (exchangePlaces_perm estimate n ys).length_eq,
          List.length_pos_iff_ne_nil]
      simp only [List.cons_append, exchangePlaces, exchange_concat, ← hperm.mem_iff]
      rw [← hperm.mem_iff, List.mem_cons, not_or] at hlast
      split
      · rename_i hless
        rw [hlater _ _ (by simp)]
        refine iff_of_false (fun hget => ?_) fun hall => ?_
        · have hmem := (exchangePlaces_perm estimate n _).mem_iff.mp (List.mem_of_getLast? hget)
          simp [hlast] at hmem
        · exact absurd (hall _ List.mem_cons_self) (Nat.not_le.mpr hless)
      · rename_i hle
        have hrest : (exchange estimate x rest).2.length ≤ n := by
          have := hperm.length_eq
          simp only [List.length_cons] at this hlength
          omega
        rw [hlater _ _ (by simp), ih hrest hlast.2, List.forall_mem_cons,
          and_iff_right (Nat.not_lt.mp hle)]

theorem getLast?_exchangeSort {last : α} {front : List α} (hlast : last ∉ front) :
    (exchangeSort estimate (front ++ [last])).getLast? = some last ↔
      ∀ x ∈ front, estimate x ≤ estimate last :=
  getLast?_exchangePlaces estimate (by simp) hlast

end WaveDB.Basis
