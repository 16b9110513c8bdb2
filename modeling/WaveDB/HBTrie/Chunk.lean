import Mathlib.Data.List.Lex
import Mathlib.Order.Basic
import Mathlib.Tactic.Linarith

/-!
Chunks (`HBTrie/chunk.c`), the atomic unit of comparison.

A chunk holds between 1 and 255 bytes: `chunk_create` refuses size 0 and the
trie's `chunk_size` is a `uint8_t`. Entries compare through an inline copy of
up to eight bytes when the key fits and through the chunk otherwise; both agree
with one linear order (`bnodeEntryCompare_lt_zero`, `bnodeEntryCompare_eq_zero`).
-/

namespace WaveDB.HBTrie

/-- `chunk_t`: the inline data, with the size bounds its creators enforce. -/
structure Chunk where
  data : List UInt8
  size_pos : 0 < data.length
  size_lt : data.length < 256
deriving DecidableEq

structure ChunkSize where
  size : Nat
  pos : 0 < size
  lt : size < 256
deriving DecidableEq

def Chunk.size (c : Chunk) : Nat := c.data.length

theorem Chunk.ext_data {a b : Chunk} (h : a.data = b.data) : a = b := by
  cases a; cases b; simp_all

/-- Chunks are ordered bytewise, a proper prefix first. -/
instance : LinearOrder Chunk :=
  LinearOrder.lift' (fun c => c.data.map UInt8.toNat) fun _ _ h =>
    Chunk.ext_data (List.map_injective_iff.mpr (fun _ _ => UInt8.toNat_inj.mp) h)

/-! ### Comparison -/

/-- `memcmp` over the first `n` bytes; only the sign of the result is used. -/
def memcmp : Nat → List UInt8 → List UInt8 → Int
  | n + 1, a :: as, b :: bs => if a = b then memcmp n as bs else (a.toNat : Int) - b.toNat
  | _, _, _ => 0

/-- The tail shared by `chunk_compare` and `inline_key_compare`: bytes over the
common length, then the shorter key first. -/
def compareBytes (a : List UInt8) (lenA : Nat) (b : List UInt8) (lenB : Nat) : Int :=
  let cmp := memcmp (min lenA lenB) a b
  if cmp ≠ 0 then cmp
  else if lenA < lenB then -1
  else if lenB < lenA then 1
  else 0

def chunkCompare (a b : Chunk) : Int := compareBytes a.data a.size b.data b.size

def bnodeInlineKeySize : Nat := 8

/-- `entry->key_len`, the `uint8_t` cast of the key's size. -/
def Chunk.keyLen (key : Chunk) : Nat := key.size % 256

/-- `entry->key_data` as `bnode_entry_set_key` fills it: the key zero-padded to
eight bytes when it fits, zeroes otherwise. -/
def Chunk.keyData (key : Chunk) : List UInt8 :=
  if key.size ≤ bnodeInlineKeySize then
    key.data ++ List.replicate (bnodeInlineKeySize - key.size) 0
  else List.replicate bnodeInlineKeySize 0

def inlineKeyCompare (keyData : List UInt8) (keyLen : Nat) (chunk : Chunk) : Int :=
  compareBytes keyData keyLen chunk.data chunk.size

/-- `bnode_entry_compare`, also written out in `bnode_search` and `bnode_find`. -/
def bnodeEntryCompare (key chunk : Chunk) : Int :=
  if 0 < key.keyLen ∧ key.keyLen ≤ bnodeInlineKeySize then
    inlineKeyCompare key.keyData key.keyLen chunk
  else chunkCompare key chunk

/-! ### The order behind the comparisons -/

theorem memcmp_append_left (as pad bs : List UInt8) :
    ∀ n, n ≤ as.length → memcmp n (as ++ pad) bs = memcmp n as bs := by
  induction as generalizing bs with
  | nil =>
    intro n hn
    have : n = 0 := by simpa using hn
    subst this
    simp [memcmp]
  | cons a as ih =>
    intro n hn
    cases n with
    | zero => simp [memcmp]
    | succ n =>
      cases bs with
      | nil => simp [memcmp]
      | cons b bs =>
        simp only [List.cons_append, memcmp]
        rw [ih bs n (by simpa using hn)]

/-- The inline copy compares like the chunk it copies. -/
theorem bnodeEntryCompare_eq (key chunk : Chunk) :
    bnodeEntryCompare key chunk = chunkCompare key chunk := by
  unfold bnodeEntryCompare
  have hlen : key.keyLen = key.size := Nat.mod_eq_of_lt key.size_lt
  split
  · rename_i hinline
    have hfits : key.size ≤ bnodeInlineKeySize := hlen ▸ hinline.2
    unfold inlineKeyCompare chunkCompare compareBytes Chunk.keyData
    rw [hlen, if_pos hfits, memcmp_append_left key.data _ chunk.data _ (by simp [Chunk.size])]
  · rfl

theorem compareBytes_cons (a b : UInt8) (as bs : List UInt8) :
    compareBytes (a :: as) (as.length + 1) (b :: bs) (bs.length + 1) =
      if a = b then compareBytes as as.length bs bs.length else (a.toNat : Int) - b.toNat := by
  unfold compareBytes
  rw [Nat.add_min_add_right]
  simp only [memcmp]
  by_cases hab : a = b
  · simp [hab]
  · have hne : (a.toNat : Int) - b.toNat ≠ 0 := by
      intro h
      exact hab (UInt8.toNat_inj.mp (by omega))
    simp [hab, hne]

theorem compareBytes_sign (as bs : List UInt8) : (compareBytes as as.length bs bs.length < 0 ↔
        as.map UInt8.toNat < bs.map UInt8.toNat) ∧
      (compareBytes as as.length bs bs.length = 0 ↔ as = bs) := by
  induction as generalizing bs with
  | nil =>
    cases bs with
    | nil | cons b bs => simp [compareBytes, memcmp]
  | cons a as ih =>
    cases bs with
    | nil => simp [compareBytes, memcmp]
    | cons b bs =>
      obtain ⟨hlt, heq⟩ := ih bs
      simp only [List.length_cons, compareBytes_cons, List.map_cons, List.cons_lt_cons_iff,
        List.cons.injEq]
      by_cases hab : a = b
      · subst hab
        simp [hlt, heq]
      · have hne : a.toNat ≠ b.toNat := fun h => hab (UInt8.toNat_inj.mp h)
        simp only [hab, if_false, false_and, iff_false]
        constructor
        · omega
        · omega

/-- An entry sorts before the searched chunk exactly when its key is smaller. -/
theorem bnodeEntryCompare_lt_zero (key chunk : Chunk) :
    bnodeEntryCompare key chunk < 0 ↔ key < chunk := by
  rw [bnodeEntryCompare_eq]
  exact (compareBytes_sign key.data chunk.data).1

/-- An entry matches the searched chunk exactly when the keys are equal. -/
theorem bnodeEntryCompare_eq_zero (key chunk : Chunk) :
    bnodeEntryCompare key chunk = 0 ↔ key = chunk := by
  rw [bnodeEntryCompare_eq]
  exact (compareBytes_sign key.data chunk.data).2.trans ⟨Chunk.ext_data, fun h => h ▸ rfl⟩

end WaveDB.HBTrie
