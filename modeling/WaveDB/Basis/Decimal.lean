import Mathlib.Data.List.TakeWhile
import Mathlib.Tactic.Ring

/-!
Signed numbers as decimal text, as `snprintf("%lld")` writes and `strtoll(…, 10)` reads them.

`strtoll_formatLld`: a number of 64 bits comes back. Reading skips white space, takes an
optional sign and stops at the first byte that is no digit; a number out of range is cut off
at the nearest bound.
-/

namespace WaveDB.Basis

open List

/-- The least and the greatest `int64_t`. -/
def int64Min : Int := -2 ^ 63

@[inherit_doc int64Min]
def int64Max : Int := 2 ^ 63 - 1

/-! ### Writing -/

def digitByte (d : Nat) : UInt8 := UInt8.ofNat (48 + d)

/-- The decimal digits of a number below `10 ^ (fuel + 1)`. -/
def decimalDigits : Nat → Nat → List UInt8
  | 0, n => [digitByte (n % 10)]
  | fuel + 1, n =>
    if n < 10 then [digitByte n] else decimalDigits fuel (n / 10) ++ [digitByte (n % 10)]

def formatLld (v : Int) : List UInt8 :=
  if v < 0 then 45 :: decimalDigits 19 v.natAbs else decimalDigits 19 v.natAbs

theorem decimalDigits_length (fuel n : Nat) :
    0 < (decimalDigits fuel n).length ∧ (decimalDigits fuel n).length ≤ fuel + 1 := by
  induction fuel generalizing n with
  | zero => simp [decimalDigits]
  | succ fuel ih =>
    rw [decimalDigits]
    split
    · simp
    · obtain ⟨-, hle⟩ := ih (n / 10)
      rw [length_append, length_singleton]
      omega

/-- The text is not empty and at most 21 bytes long. -/
theorem formatLld_length (v : Int) : 0 < (formatLld v).length ∧ (formatLld v).length ≤ 21 := by
  obtain ⟨hpos, hle⟩ := decimalDigits_length 19 v.natAbs
  unfold formatLld
  split
  · rw [length_cons]
    omega
  · omega

/-! ### Reading -/

def isSpace (b : UInt8) : Bool := b == 32 || (9 ≤ b && b ≤ 13)

def isDigit (b : UInt8) : Bool := 48 ≤ b && b ≤ 57

def leadingNumber (s : List UInt8) : Nat :=
  (s.takeWhile isDigit).foldl (fun n b => 10 * n + (b.toNat - 48)) 0

def strtoll (s : List UInt8) : Int :=
  match s.dropWhile isSpace with
  | 45 :: rest => max int64Min (-(leadingNumber rest : Int))
  | 43 :: rest => min int64Max (leadingNumber rest)
  | rest => min int64Max (leadingNumber rest)

/-! ### Round trip -/

theorem isDigit_digitByte : ∀ d < 10, isDigit (digitByte d) ∧
    (digitByte d).toNat - 48 = d ∧ isSpace (digitByte d) = false ∧ digitByte d ≠ 45 ∧
      digitByte d ≠ 43 := by
  decide

theorem isDigit_of_mem_decimalDigits {fuel n : Nat} {b : UInt8} (h : b ∈ decimalDigits fuel n) :
    ∃ d < 10, b = digitByte d := by
  induction fuel generalizing n with
  | zero => exact ⟨n % 10, Nat.mod_lt _ (by decide), mem_singleton.mp h⟩
  | succ fuel ih =>
    rw [decimalDigits] at h
    split at h
    · next hlt => exact ⟨n, hlt, mem_singleton.mp h⟩
    · rcases mem_append.mp h with h | h
      · exact ih h
      · exact ⟨n % 10, Nat.mod_lt _ (by decide), mem_singleton.mp h⟩

theorem leadingNumber_decimalDigits {fuel n : Nat} (h : n < 10 ^ (fuel + 1)) :
    leadingNumber (decimalDigits fuel n) = n := by
  have hall : (decimalDigits fuel n).takeWhile isDigit = decimalDigits fuel n := by
    refine takeWhile_eq_self_iff.mpr fun b hb => ?_
    obtain ⟨d, hd, rfl⟩ := isDigit_of_mem_decimalDigits hb
    exact (isDigit_digitByte d hd).1
  rw [leadingNumber, hall]
  clear hall
  induction fuel generalizing n with
  | zero =>
    have hlt : n < 10 := by simpa using h
    simp [decimalDigits, Nat.mod_eq_of_lt hlt, (isDigit_digitByte n hlt).2.1]
  | succ fuel ih =>
    rw [decimalDigits]
    split
    · next hlt => simp [(isDigit_digitByte n hlt).2.1]
    · have hdiv : n / 10 < 10 ^ (fuel + 1) := by
        rw [Nat.div_lt_iff_lt_mul (by decide)]
        exact lt_of_lt_of_eq h (by ring)
      rw [foldl_append, ih hdiv, foldl_cons, foldl_nil,
        (isDigit_digitByte _ (Nat.mod_lt n (by decide))).2.1]
      omega

/-- The first byte of a number is neither white space nor a sign. -/
theorem decimalDigits_cons (fuel n : Nat) :
    ∃ d < 10, ∃ rest, decimalDigits fuel n = digitByte d :: rest := by
  cases hlist : decimalDigits fuel n with
  | nil =>
    cases fuel with
    | zero => cases hlist
    | succ fuel =>
      rw [decimalDigits] at hlist
      split at hlist <;> simp at hlist
  | cons b rest =>
    obtain ⟨d, hd, rfl⟩ :=
      isDigit_of_mem_decimalDigits (hlist ▸ mem_cons_self : b ∈ decimalDigits fuel n)
    exact ⟨d, hd, rest, rfl⟩

/-- A 64-bit number is read back from its decimal text. -/
theorem strtoll_formatLld {v : Int} (hmin : int64Min ≤ v) (hmax : v ≤ int64Max) :
    strtoll (formatLld v) = v := by
  have hnat : v.natAbs < 10 ^ (19 + 1) := by
    unfold int64Min at hmin
    unfold int64Max at hmax
    omega
  have hnumber := leadingNumber_decimalDigits hnat
  unfold formatLld
  split
  · rename_i hneg
    have hspace : isSpace 45 = false := by decide
    rw [strtoll, dropWhile_cons_of_neg (by simp [hspace])]
    simp only [hnumber]
    omega
  · rename_i hpos
    obtain ⟨d, hd, rest, hdigits⟩ := decimalDigits_cons 19 v.natAbs
    obtain ⟨-, -, hspace, hminus, hplus⟩ := isDigit_digitByte d hd
    rw [strtoll, hdigits, dropWhile_cons_of_neg (by simp [hspace]), ← hdigits]
    split
    · rename_i heq
      rw [hdigits] at heq
      exact absurd (cons.inj heq).1 hminus
    · rename_i heq
      rw [hdigits] at heq
      exact absurd (cons.inj heq).1 hplus
    · rw [hnumber]
      omega

theorem strtoll_range (s : List UInt8) : int64Min ≤ strtoll s ∧ strtoll s ≤ int64Max := by
  unfold strtoll int64Min int64Max
  split <;> omega

end WaveDB.Basis
