import Mathlib.Data.List.Induction
import Mathlib.Data.List.Basic
import Mathlib.Tactic.Ring

/-!
Readers of byte strings and the writers they undo.

A reader takes a value off the front of a byte string or fails. `Reads r bytes a` says that
`r` takes exactly `bytes` and returns `a`, whatever follows; the rules below compose it
along the structure of a reader. Integers are big-endian and of a fixed width, so that a
number that does not fit loses its upper bytes (`Reads.uint_mod`).
-/

namespace WaveDB.Basis

open List Option

abbrev Reader (α : Type) := StateT (List UInt8) Option α

def readBytes (n : Nat) : Reader (List UInt8) := fun bytes =>
  if n ≤ bytes.length then some (bytes.take n, bytes.drop n) else none

def ofDigits (bytes : List UInt8) : Nat := bytes.foldl (fun n b => n * 256 + b.toNat) 0

def readUint (width : Nat) : Reader Nat := ofDigits <$> readBytes width

/-- The low `width` bytes of a number, big-endian. -/
def writeUint : Nat → Nat → List UInt8
  | 0, _ => []
  | width + 1, n => writeUint width (n / 256) ++ [UInt8.ofNat n]

def readMany {α : Type} (reader : Reader α) : Nat → Reader (List α)
  | 0 => pure []
  | n + 1 => do
      let a ← reader
      (a :: ·) <$> readMany reader n

/-- The same reader as long as it succeeds, at most `fuel` times. -/
def readWhile {α : Type} (reader : Reader α) : Nat → List UInt8 → List α
  | 0, _ => []
  | fuel + 1, bytes =>
    match reader bytes with
    | none => []
    | some (a, rest) => a :: readWhile reader fuel rest

/-- The reader takes exactly these bytes and returns the value. -/
def Reads {α : Type} (reader : Reader α) (bytes : List UInt8) (a : α) : Prop :=
  ∀ rest, reader (bytes ++ rest) = some (a, rest)

/-! ### Composition -/

section Compose

variable {α β : Type} {reader : Reader α} {next : α → Reader β} {xs bytes : List UInt8} {a : α}
  {b : β}

theorem Reads.pure (a : α) : Reads (Pure.pure a) [] a := fun _ => rfl

theorem Reads.bind {ys : List UInt8} (h : Reads reader xs a) (hnext : Reads (next a) ys b) :
    Reads (reader >>= next) (xs ++ ys) b := by
  intro rest
  rw [append_assoc]
  change (reader (xs ++ (ys ++ rest))).bind (fun p => next p.1 p.2) = some (b, rest)
  rw [h, bind_some]
  exact hnext rest

theorem Reads.last (h : Reads reader xs a) (hnext : Reads (next a) [] b) :
    Reads (reader >>= next) xs b := by
  have hread := h.bind hnext
  rwa [append_nil] at hread

theorem Reads.map (f : α → β) (h : Reads reader bytes a) : Reads (f <$> reader) bytes (f a) := by
  intro rest
  change (reader (bytes ++ rest)).bind (fun p => some (f p.1, p.2)) = some (f a, rest)
  rw [h]
  rfl

theorem Reads.many {write : β → List UInt8} {f : β → α} {bs : List β}
    (h : ∀ b ∈ bs, Reads reader (write b) (f b)) :
    Reads (readMany reader bs.length) (bs.flatMap write) (bs.map f) := by
  induction bs with
  | nil => exact .pure _
  | cons b bs ih =>
    have hrest := ih fun b' hb' => h b' (mem_cons_of_mem _ hb')
    exact (h b mem_cons_self).bind (hrest.map (f b :: ·))

theorem Reads.bind_append (h : Reads reader xs a) (rest : List UInt8) :
    (reader >>= next) (xs ++ rest) = next a rest := by
  change (reader (xs ++ rest)).bind (fun p => next p.1 p.2) = next a rest
  rw [h, bind_some]

theorem Reads.run_eq (h : Reads reader bytes a) : reader.run bytes = some (a, []) := by
  have hread := h []
  rwa [append_nil] at hread

theorem readWhile_append {write : α → List UInt8} {as : List α}
    (h : ∀ a ∈ as, Reads reader (write a) a) (fuel : Nat) (tail : List UInt8) :
    readWhile reader (as.length + fuel) (as.flatMap write ++ tail) =
      as ++ readWhile reader fuel tail := by
  induction as with
  | nil => simp
  | cons a as ih =>
    have hrest := ih fun b hb => h b (mem_cons_of_mem _ hb)
    rw [length_cons, Nat.add_right_comm, readWhile, flatMap_cons, append_assoc, h a mem_cons_self]
    simp only [hrest, cons_append]

/-- Where every read takes at least a byte, fuel for every byte is enough. -/
theorem readWhile_fuel
    (hshorter : ∀ bytes a rest, reader bytes = some (a, rest) → rest.length < bytes.length)
    {fuel fuel' : Nat} (h : bytes.length ≤ fuel) (h' : bytes.length ≤ fuel') :
    readWhile reader fuel bytes = readWhile reader fuel' bytes := by
  induction fuel generalizing bytes fuel' with
  | zero =>
    obtain rfl : bytes = [] := length_eq_zero_iff.mp (Nat.le_zero.mp h)
    cases fuel' with
    | zero => rfl
    | succ fuel' =>
      cases hread : reader [] with
      | none => rw [readWhile, readWhile, hread]
      | some result => exact absurd (hshorter _ _ _ hread) (Nat.not_lt_zero _)
  | succ fuel ih =>
    cases hread : reader bytes with
    | none =>
      cases fuel' <;> simp [readWhile, hread]
    | some result =>
      have hlt := hshorter _ _ _ hread
      obtain ⟨fuel', rfl⟩ : ∃ k, fuel' = k + 1 := Nat.exists_eq_add_one.mpr (by omega)
      simp only [readWhile, hread]
      exact congrArg (result.1 :: ·) (ih (by omega) (by omega))

end Compose

/-! ### What a successful read says -/

section Inversion

variable {α β : Type} {reader : Reader α} {bytes rest : List UInt8} {b : β} {n : Nat} {as : List α}

theorem bind_eq_some_reader {next : α → Reader β} : (reader >>= next) bytes = some (b, rest) ↔
      ∃ a mid, reader bytes = some (a, mid) ∧ next a mid = some (b, rest) := by
  change (reader bytes).bind (fun p => next p.1 p.2) = some (b, rest) ↔ _
  rw [bind_eq_some_iff]
  constructor
  · rintro ⟨⟨a, mid⟩, h, hnext⟩
    exact ⟨a, mid, h, hnext⟩
  · rintro ⟨a, mid, h, hnext⟩
    exact ⟨(a, mid), h, hnext⟩

theorem map_eq_some_reader {f : α → β} :
    (f <$> reader) bytes = some (b, rest) ↔ ∃ a, reader bytes = some (a, rest) ∧ f a = b := by
  change (reader bytes).bind (fun p => some (f p.1, p.2)) = some (b, rest) ↔ _
  rw [bind_eq_some_iff]
  constructor
  · rintro ⟨⟨a, mid⟩, h, heq⟩
    cases heq
    exact ⟨a, h, rfl⟩
  · rintro ⟨a, h, rfl⟩
    exact ⟨(a, rest), h, rfl⟩

theorem readMany_cons_eq_some {a : α} : readMany reader (n + 1) bytes = some (a :: as, rest) ↔
      ∃ mid, reader bytes = some (a, mid) ∧ readMany reader n mid = some (as, rest) := by
  rw [readMany, bind_eq_some_reader]
  constructor
  · rintro ⟨a', mid, h, hrest⟩
    obtain ⟨as', hrest, heq⟩ := map_eq_some_reader.mp hrest
    cases heq
    exact ⟨mid, h, hrest⟩
  · rintro ⟨mid, h, hrest⟩
    exact ⟨a, mid, h, map_eq_some_reader.mpr ⟨as, hrest, rfl⟩⟩

theorem readMany_length (h : readMany reader n bytes = some (as, rest)) : as.length = n := by
  induction n generalizing bytes as with
  | zero =>
    cases h
    rfl
  | succ n ih =>
    rw [readMany, bind_eq_some_reader] at h
    obtain ⟨a, mid, -, hrest⟩ := h
    obtain ⟨as', hmany, rfl⟩ := map_eq_some_reader.mp hrest
    rw [length_cons, ih hmany]

theorem readBytes_length {out : List UInt8} (h : readBytes n bytes = some (out, rest)) :
    out.length = n := by
  simp only [readBytes, ite_none_right_eq_some] at h
  obtain ⟨hle, heq⟩ := h
  cases heq
  rw [length_take, Nat.min_eq_left hle]

end Inversion

/-! ### Bytes and integers -/

theorem Reads.bytes {n : Nat} {bytes : List UInt8} (h : bytes.length = n) :
    Reads (readBytes n) bytes bytes := by
  subst h
  intro rest
  simp [readBytes]

@[simp] theorem writeUint_length (width n : Nat) : (writeUint width n).length = width := by
  induction width generalizing n with
  | zero => rfl
  | succ width ih => simp [writeUint, ih]

theorem ofDigits_concat (bytes : List UInt8) (b : UInt8) :
    ofDigits (bytes ++ [b]) = ofDigits bytes * 256 + b.toNat := by
  simp [ofDigits]

theorem ofDigits_lt (bytes : List UInt8) : ofDigits bytes < 256 ^ bytes.length := by
  induction bytes using reverseRecOn with
  | nil => decide
  | append_singleton bytes b ih =>
    have hb := b.toNat_lt
    rw [ofDigits_concat, length_append, length_singleton, pow_succ]
    omega

theorem ofDigits_writeUint (width n : Nat) : ofDigits (writeUint width n) = n % 256 ^ width := by
  induction width generalizing n with
  | zero => simp [writeUint, ofDigits, Nat.mod_one]
  | succ width ih =>
    calc ofDigits (writeUint (width + 1) n)
        = n / 256 % 256 ^ width * 256 + n % 256 := by
          rw [writeUint, ofDigits_concat, ih, UInt8.toNat_ofNat']
      _ = n % 256 ^ (width + 1) := by
          rw [pow_succ', Nat.mod_mul, Nat.mul_comm 256, Nat.add_comm]

/-- A number comes back modulo the width of its field. -/
theorem Reads.uint_mod (width n : Nat) :
    Reads (readUint width) (writeUint width n) (n % 256 ^ width) := by
  rw [← ofDigits_writeUint]
  exact (bytes (writeUint_length width n)).map ofDigits

theorem Reads.uint {width n : Nat} (h : n < 256 ^ width) :
    Reads (readUint width) (writeUint width n) n := by
  have hread := uint_mod width n
  rwa [Nat.mod_eq_of_lt h] at hread

/-! ### Little-endian integers -/

def writeUintLe (width n : Nat) : List UInt8 := (writeUint width n).reverse

def readUintLe (width : Nat) : Reader Nat :=
  (fun bytes => ofDigits bytes.reverse) <$> readBytes width

@[simp] theorem writeUintLe_length (width n : Nat) : (writeUintLe width n).length = width := by
  rw [writeUintLe, length_reverse, writeUint_length]

theorem Reads.uintLe {width n : Nat} (h : n < 256 ^ width) :
    Reads (readUintLe width) (writeUintLe width n) n := by
  have hread := (bytes (writeUintLe_length width n)).map fun bytes => ofDigits bytes.reverse
  simp only [writeUintLe, reverse_reverse, ofDigits_writeUint, Nat.mod_eq_of_lt h] at hread
  exact hread

end WaveDB.Basis
