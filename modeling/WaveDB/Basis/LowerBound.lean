import Mathlib.Data.List.Sort
import Mathlib.Data.List.TakeWhile
import Mathlib.Order.Basic

/-!
Binary search for a lower bound, over any list kept in key order.

Where a search ends, how it cuts the list there, and insertion at that place.
-/

namespace WaveDB.Basis

open List

/-! ### The loop -/

/-- `while lo < hi` with the midpoint test `below mid`. One unit of fuel is one
iteration; the interval shrinks in each. -/
def lowerBoundLoop (below : Nat → Bool) : Nat → Nat → Nat → Nat
  | 0, lo, _ => lo
  | fuel + 1, lo, hi =>
    if lo < hi then
      let mid := lo + (hi - lo) / 2
      if below mid then lowerBoundLoop below fuel (mid + 1) hi
      else lowerBoundLoop below fuel lo mid
    else lo

/-- The loop stops at the boundary `m` of `below` in `[lo, hi)`. -/
theorem lowerBoundLoop_eq {below : Nat → Bool} {m : Nat} :
    ∀ (fuel lo hi : Nat), hi - lo ≤ fuel → lo ≤ m → m ≤ hi →
      (∀ i, lo ≤ i → i < hi → (below i ↔ i < m)) → lowerBoundLoop below fuel lo hi = m
  | 0, lo, hi, hfuel, hlo, hhi, _ => by
    simp only [lowerBoundLoop]
    omega
  | fuel + 1, lo, hi, hfuel, hlo, hhi, hbelow => by
    rw [lowerBoundLoop]
    by_cases hlt : lo < hi
    · have hmid := hbelow (lo + (hi - lo) / 2) (by omega) (by omega)
      simp only [hlt]
      by_cases hb : below (lo + (hi - lo) / 2)
      · rw [if_pos hb]
        have := hmid.mp hb
        exact lowerBoundLoop_eq fuel _ hi (by omega) (by omega) hhi
          fun i hi1 hi2 => hbelow i (by omega) hi2
      · rw [if_neg hb]
        have : ¬ lo + (hi - lo) / 2 < m := fun h => hb (hmid.mpr h)
        exact lowerBoundLoop_eq fuel lo _ (by omega) hlo (by omega)
          fun i hi1 hi2 => hbelow i hi1 (by omega)
    · rw [if_neg hlt]
      omega

/-- The loop stays within its interval, whatever it tests. -/
theorem lowerBoundLoop_le {below : Nat → Bool} (fuel lo hi : Nat) (h : lo ≤ hi) :
    lowerBoundLoop below fuel lo hi ≤ hi := by
  induction fuel generalizing lo hi with
  | zero => exact h
  | succ fuel ih =>
    rw [lowerBoundLoop]
    split
    · rename_i hlt
      have hmid : lo + (hi - lo) / 2 < hi := by omega
      simp only
      split
      · exact ih _ hi hmid
      · exact (ih lo _ (Nat.le_add_right _ _)).trans hmid.le
    · exact h

/-! ### Keyed ascending lists -/

section Keyed

variable {α κ : Type} [LinearOrder κ] (key : α → κ)

variable (es : List α)

def Ascending : Prop := es.Pairwise fun a b => key a < key b

def Nondescending : Prop := es.Pairwise fun a b => key a ≤ key b

/-- The position of the first element whose key is not below `k`. -/
def lowerBound (k : κ) : Nat :=
  lowerBoundLoop (fun i => (es[i]?).any fun e => decide (key e < k)) es.length 0 es.length

def below (k : κ) : List α := es.takeWhile fun e => decide (key e < k)

def notBelow (k : κ) : List α := es.dropWhile fun e => decide (key e < k)

variable {key} {es : List α} {k : κ} {e : α}

theorem below_append_notBelow (k : κ) : below key es k ++ notBelow key es k = es :=
  takeWhile_append_dropWhile

theorem lt_of_mem_below (he : e ∈ below key es k) : key e < k := by
  simpa using mem_takeWhile_imp he

theorem Ascending.nondescending (h : Ascending key es) : Nondescending key es :=
  h.imp fun hlt => hlt.le

/-- In an ordered list everything after the smaller keys is at least `k`. -/
theorem Nondescending.le_of_mem_notBelow (h : Nondescending key es) (he : e ∈ notBelow key es k) :
    k ≤ key e := by
  induction es with
  | nil => simp [notBelow] at he
  | cons a es ih =>
    obtain ⟨hall, htail⟩ := pairwise_cons.mp h
    by_cases ha : key a < k
    · refine ih htail ?_
      simpa [notBelow, ha] using he
    · have hmem : e = a ∨ e ∈ es := by
        simpa [notBelow, ha] using he
      rcases hmem with rfl | hmem
      · exact not_lt.mp ha
      · exact (not_lt.mp ha).trans (hall e hmem)

/-- Below the lower bound are exactly the positions of the smaller keys. -/
theorem Nondescending.getElem?_lt_iff (h : Nondescending key es) {i : Nat} (hi : i < es.length) :
    ((es[i]?).any fun e => decide (key e < k)) ↔ i < (below key es k).length := by
  have hsplit : (below key es k ++ notBelow key es k)[i]? = es[i]? := by
    rw [below_append_notBelow]
  by_cases hlt : i < (below key es k).length
  · rw [getElem?_append_left hlt] at hsplit
    rw [← hsplit, getElem?_eq_getElem hlt]
    simp [hlt, lt_of_mem_below (getElem_mem hlt)]
  · rw [getElem?_append_right (not_lt.mp hlt)] at hsplit
    have hlen : i - (below key es k).length < (notBelow key es k).length := by
      have := congrArg length (@below_append_notBelow _ _ _ key es k)
      rw [length_append] at this
      omega
    rw [← hsplit, getElem?_eq_getElem hlen]
    simp [hlt, h.le_of_mem_notBelow (getElem_mem hlen)]

/-- The search finds the length of the prefix of smaller keys. -/
theorem Nondescending.lowerBound_eq (h : Nondescending key es) (k : κ) :
    lowerBound key es k = (below key es k).length := by
  refine lowerBoundLoop_eq _ _ _ (by omega) (by omega) ?_ ?_
  · exact (takeWhile_sublist _).length_le
  · intro i _ hi
    exact h.getElem?_lt_iff hi

section Sorted

variable (h : Ascending key es)

include h

/-- The element at the lower bound is the first one that is not smaller. -/
theorem Ascending.getElem?_lowerBound (k : κ) :
    es[lowerBound key es k]? = (notBelow key es k).head? := by
  have hsplit : (below key es k ++ notBelow key es k)[lowerBound key es k]? =
      es[lowerBound key es k]? := by
    rw [below_append_notBelow]
  rw [← hsplit, h.nondescending.lowerBound_eq, getElem?_append_right (le_refl _), Nat.sub_self,
    ← head?_eq_getElem?]

/-- The first element that is not below an element's key is that element. -/
theorem Ascending.notBelow_eq_cons (he : e ∈ es) : ∃ post, notBelow key es (key e) = e :: post := by
  have hmem : e ∈ below key es (key e) ++ notBelow key es (key e) := by
    rwa [below_append_notBelow]
  have hright : e ∈ notBelow key es (key e) := by
    rcases mem_append.mp hmem with hleft | hright
    · exact absurd (lt_of_mem_below hleft) (lt_irrefl _)
    · exact hright
  cases hrest : notBelow key es (key e) with
  | nil => rw [hrest] at hright; cases hright
  | cons a post =>
    have ha : a ∈ notBelow key es (key e) := hrest ▸ mem_cons_self
    have hsorted : Ascending key (notBelow key es (key e)) := h.sublist (dropWhile_sublist _)
    rw [hrest] at hright hsorted
    rcases mem_cons.mp hright with rfl | hlater
    · exact ⟨post, rfl⟩
    · have hlt := (pairwise_cons.mp hsorted).1 e hlater
      exact absurd (h.nondescending.le_of_mem_notBelow ha) (not_le.mpr hlt)

/-- The list around an element: what is below it stands before it. -/
theorem Ascending.split_at (he : e ∈ es) :
    ∃ pre post, es = pre ++ e :: post ∧ pre.length = lowerBound key es (key e) ∧
      ∀ y ∈ post, key e < key y := by
  obtain ⟨post, hpost⟩ := h.notBelow_eq_cons he
  have hsplit := @below_append_notBelow _ _ _ key es (key e)
  rw [hpost] at hsplit
  refine ⟨below key es (key e), post, hsplit.symm, (h.nondescending.lowerBound_eq _).symm, ?_⟩
  have hpair : (below key es (key e) ++ e :: post).Pairwise fun a b => key a < key b := by
    rw [hsplit]; exact h
  exact (pairwise_cons.mp (pairwise_append.mp hpair).2.1).1

/-- The list around the greatest key below an absent key, or around the first
element when there is none. -/
theorem Ascending.split_before (hne : es ≠ []) (hnew : ∀ a ∈ es, key a ≠ k) :
    ∃ pre x post, es = pre ++ x :: post ∧ pre.length = lowerBound key es k - 1 ∧
      (pre ≠ [] → key x < k) ∧ ∀ y ∈ post, k < key y := by
  have habove : ∀ b ∈ notBelow key es k, k < key b := by
    intro b hb
    have hmem : b ∈ es := (dropWhile_sublist _).subset hb
    exact lt_of_le_of_ne (h.nondescending.le_of_mem_notBelow hb) (Ne.symm (hnew b hmem))
  have hsplit := @below_append_notBelow _ _ _ key es k
  rcases eq_nil_or_concat (below key es k) with hnil | ⟨pre, x, hlast⟩
  · -- nothing is below: the first element is the leftmost child
    rw [hnil, nil_append] at hsplit
    cases es with
    | nil => exact absurd rfl hne
    | cons x post =>
      refine ⟨[], x, post, rfl, ?_, fun hpre => absurd rfl hpre, ?_⟩
      · rw [h.nondescending.lowerBound_eq, hnil]; rfl
      · intro y hy
        exact habove y (by rw [hsplit]; exact mem_cons_of_mem _ hy)
  · rw [concat_eq_append] at hlast
    rw [hlast, append_assoc] at hsplit
    refine ⟨pre, x, notBelow key es k, hsplit.symm, ?_, ?_, habove⟩
    · rw [h.nondescending.lowerBound_eq, hlast]
      simp
    · intro _
      have hx : x ∈ below key es k := by
        rw [hlast]
        simp
      exact lt_of_mem_below hx

end Sorted

theorem insertIdx_length_append (xs ys : List α) (e : α) :
    (xs ++ ys).insertIdx xs.length e = xs ++ e :: ys := by
  induction xs with
  | nil => rfl
  | cons x xs ih => simp [ih]

/-- Insertion at the lower bound puts the element after the smaller keys. -/
theorem Nondescending.insertIdx_lowerBound (h : Nondescending key es) (e : α) :
    es.insertIdx (lowerBound key es (key e)) e =
      below key es (key e) ++ e :: notBelow key es (key e) := by
  rw [h.lowerBound_eq]
  have hins := insertIdx_length_append (below key es (key e)) (notBelow key es (key e)) e
  rwa [below_append_notBelow] at hins

theorem pairwise_below_cons {r : α → α → Prop} (h : es.Pairwise r)
    (hbelow : ∀ a ∈ below key es (key e), r a e)
    (hnotBelow : ∀ b ∈ notBelow key es (key e), r e b) :
    (below key es (key e) ++ e :: notBelow key es (key e)).Pairwise r := by
  rw [← @below_append_notBelow _ _ _ key es (key e)] at h
  obtain ⟨hleft, hright, hcross⟩ := pairwise_append.mp h
  refine pairwise_append.mpr ⟨hleft, pairwise_cons.mpr ⟨hnotBelow, hright⟩, fun a ha => ?_⟩
  exact forall_mem_cons.mpr ⟨hbelow a ha, hcross a ha⟩

theorem Ascending.insert (h : Ascending key es) (hnew : ∀ a ∈ es, key a ≠ key e) :
    Ascending key (below key es (key e) ++ e :: notBelow key es (key e)) := by
  refine pairwise_below_cons h (fun a ha => lt_of_mem_below ha) fun b hb => ?_
  have hmem : b ∈ es := (dropWhile_sublist _).subset hb
  exact lt_of_le_of_ne (h.nondescending.le_of_mem_notBelow hb) (Ne.symm (hnew b hmem))

/-- A key between two neighbours is inserted between them. -/
theorem Ascending.insertIdx_lowerBound_between {pre post : List α} {x : α}
    (h : Ascending key (pre ++ x :: post)) (hx : key x < key e)
    (hpost : ∀ y ∈ post, key e < key y) :
    (pre ++ x :: post).insertIdx (lowerBound key (pre ++ x :: post) (key e)) e =
      pre ++ x :: e :: post := by
  have hpre : ∀ a ∈ pre ++ [x], key a < key e := by
    intro a ha
    rcases mem_append.mp ha with ha | ha
    · exact ((pairwise_append.mp h).2.2 a ha x mem_cons_self).trans hx
    · rw [mem_singleton.mp ha]
      exact hx
  have hsplit : pre ++ x :: post = (pre ++ [x]) ++ post := by simp
  have hbelow : below key (pre ++ x :: post) (key e) = pre ++ [x] := by
    rw [hsplit, below, takeWhile_append_of_pos fun a ha => decide_eq_true (hpre a ha)]
    cases post with
    | nil => simp
    | cons y post => simp [(hpost y mem_cons_self).le]
  rw [h.nondescending.lowerBound_eq, hbelow, hsplit, insertIdx_length_append]
  simp

/-- Appending what is larger than everything present. -/
theorem Ascending.insertIdx_lowerBound_last (h : Ascending key es)
    (hlast : ∀ a ∈ es, key a < key e) : es.insertIdx (lowerBound key es (key e)) e = es ++ [e] := by
  have hall : below key es (key e) = es :=
    takeWhile_eq_self_iff.mpr fun a ha => decide_eq_true (hlast a ha)
  have hnone : notBelow key es (key e) = [] :=
    dropWhile_eq_nil_iff.mpr fun a ha => decide_eq_true (hlast a ha)
  rw [h.nondescending.insertIdx_lowerBound, hall, hnone]

/-- Inserting an ascending list element by element, each at its lower bound,
appends it when it starts above what is there. -/
theorem foldl_insertIdx_lowerBound (new : List α) : ∀ (es : List α), Ascending key (es ++ new) →
    new.foldl (fun acc e => acc.insertIdx (lowerBound key acc (key e)) e) es = es ++ new := by
  induction new with
  | nil => intro es _; simp
  | cons e new ih =>
    intro es h
    have hparts := pairwise_append.mp h
    have hlast : ∀ a ∈ es, key a < key e := fun a ha => hparts.2.2 a ha e mem_cons_self
    have hstep : es.insertIdx (lowerBound key es (key e)) e = es ++ [e] :=
      @Ascending.insertIdx_lowerBound_last _ _ _ key _ _ hparts.1 hlast
    rw [foldl_cons, hstep, ih (es ++ [e]) (by simpa using h)]
    simp

end Keyed

end WaveDB.Basis
