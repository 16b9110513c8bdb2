import Mathlib.Order.WithBot
import WaveDB.Basis.LowerBound

/-!
Lists of separators that cut an interval into consecutive segments.

Every element of a `Segmented` list owns a segment of `[lo, hi)`: the first from
`lo` on, whatever its own key is, each later one from its key on, and each up
to the key of the next. `Segmented.focus`, `Segmented.replace` and
`Segmented.replace_two` read and rewrite one element, `Segmented.cut` divides the
list at an element, and `Segmented.ascending_flatMap` collects the contents of the
segments in order.
-/

namespace WaveDB.Basis

open List WithTop WithBot

section Segments

variable {α β κ : Type} [LinearOrder κ] {x' y : α} {k : κ}

/-- Consecutive segments of `[lo, hi)`, with `ok x l h` for the segment of `x`. -/
def Segmented (key : α → κ) (ok : α → WithBot κ → WithTop κ → Prop) :
    WithBot κ → WithTop κ → List α → Prop
  | _, _, [] => False
  | lo, hi, [x] => ok x lo hi
  | lo, hi, x :: y :: rest =>
    ok x lo (key y) ∧ lo < key y ∧ (key y : WithTop κ) < hi ∧ key x < key y ∧
      Segmented key ok (key y) hi (y :: rest)

/-- Where the segment of `x` starts when `pre` stands before it. -/
def segLo (key : α → κ) (lo : WithBot κ) (pre : List α) (x : α) : WithBot κ :=
  match pre with
  | [] => lo
  | _ :: _ => key x

/-- Where the segment before `post` ends. -/
def segHi (key : α → κ) (hi : WithTop κ) (post : List α) : WithTop κ :=
  match post with
  | [] => hi
  | y :: _ => key y

variable {key : α → κ} {ok : α → WithBot κ → WithTop κ → Prop} {lo : WithBot κ} {hi : WithTop κ}
  {xs pre post : List α} {x : α}

theorem Segmented.ne_nil (h : Segmented key ok lo hi xs) : xs ≠ [] := by
  rintro rfl
  exact h

theorem Segmented.ascending (h : Segmented key ok lo hi xs) : Ascending key xs := by
  induction xs generalizing lo with
  | nil => exact List.Pairwise.nil
  | cons x xs ih =>
    cases xs with
    | nil => exact pairwise_singleton _ _
    | cons y rest =>
      obtain ⟨-, -, -, hxy, hrest⟩ := h
      have hsorted := ih hrest
      refine pairwise_cons.mpr ⟨?_, hsorted⟩
      intro z hz
      rcases mem_cons.mp hz with rfl | hz
      · exact hxy
      · exact hxy.trans ((pairwise_cons.mp hsorted).1 z hz)

/-! ### One element -/

section Focus

variable (h : Segmented key ok lo hi (pre ++ x :: post))

include h

theorem Segmented.focus : ok x (segLo key lo pre x) (segHi key hi post) := by
  induction pre generalizing lo with
  | nil =>
    cases post with
    | nil => exact h
    | cons y post => exact h.1
  | cons a pre ih =>
    cases pre with
    | nil | cons b pre => exact ih h.2.2.2.2

/-- An element may be exchanged for one with the same key. -/
theorem Segmented.replace (hkey : key x' = key x)
    (hok : ok x' (segLo key lo pre x) (segHi key hi post)) :
    Segmented key ok lo hi (pre ++ x' :: post) := by
  induction pre generalizing lo with
  | nil =>
    cases post with
    | nil => exact hok
    | cons y post =>
      obtain ⟨-, hlo, hhi, hxy, hrest⟩ := h
      exact ⟨hok, hlo, hhi, hkey ▸ hxy, hrest⟩
  | cons a pre ih =>
    cases pre with
    | nil =>
      obtain ⟨ha, hlo, hhi, hax, hrest⟩ := h
      exact ⟨hkey ▸ ha, hkey ▸ hlo, hkey ▸ hhi, hkey ▸ hax, hkey ▸ ih hrest hok⟩
    | cons b pre =>
      obtain ⟨ha, hlo, hhi, hab, hrest⟩ := h
      exact ⟨ha, hlo, hhi, hab, ih hrest hok⟩

/-- An element may be exchanged for two that share its segment. -/
theorem Segmented.replace_two (hkey : key x' = key x) (hx : ok x' (segLo key lo pre x) (key y))
    (hy : ok y (key y) (segHi key hi post)) (hlo : segLo key lo pre x < key y)
    (hhi : (key y : WithTop κ) < segHi key hi post) (hxy : key x < key y) :
    Segmented key ok lo hi (pre ++ x' :: y :: post) := by
  induction pre generalizing lo with
  | nil =>
    cases post with
    | nil => exact ⟨hx, hlo, hhi, hkey ▸ hxy, hy⟩
    | cons z post =>
      obtain ⟨-, -, hzhi, -, hrest⟩ := h
      have hyz : key y < key z := coe_lt_coe.mp hhi
      exact ⟨hx, hlo, (WithTop.coe_lt_coe.mpr hyz).trans hzhi, hkey ▸ hxy, hy,
        coe_lt_coe.mpr hyz, hzhi, hyz, hrest⟩
  | cons a pre ih =>
    cases pre with
    | nil =>
      obtain ⟨ha, hxlo, hxhi, hax, hrest⟩ := h
      exact ⟨hkey ▸ ha, hkey ▸ hxlo, hkey ▸ hxhi, hkey ▸ hax, hkey ▸ ih hrest hx hlo⟩
    | cons b pre =>
      obtain ⟨ha, hblo, hbhi, hab, hrest⟩ := h
      exact ⟨ha, hblo, hbhi, hab, ih hrest hx hlo⟩

end Focus

/-! ### Cutting and collecting -/

/-- Dividing the list at `y` divides the interval at its key. -/
theorem Segmented.cut {ys : List α} (h : Segmented key ok lo hi (xs ++ y :: ys)) (hne : xs ≠ []) :
    Segmented key ok lo (key y) xs ∧ Segmented key ok (key y) hi (y :: ys) ∧
      lo < key y ∧ (key y : WithTop κ) < hi := by
  induction xs generalizing lo with
  | nil => exact absurd rfl hne
  | cons a xs ih =>
    cases xs with
    | nil =>
      obtain ⟨ha, hlo, hhi, -, hrest⟩ := h
      exact ⟨ha, hrest, hlo, hhi⟩
    | cons b xs =>
      obtain ⟨ha, hlo, hhi, hab, hrest⟩ := h
      obtain ⟨hleft, hright, hby, hyhi⟩ := ih hrest (by simp)
      exact ⟨⟨ha, hlo, WithTop.coe_lt_coe.mpr (WithBot.coe_lt_coe.mp hby), hab, hleft⟩,
        hright, hlo.trans hby, hyhi⟩

/-- Every element owns some segment inside the interval. -/
theorem Segmented.of_mem {z : α} (h : Segmented key ok lo hi xs) (hz : z ∈ xs) :
    ∃ l u, ok z l u ∧ lo ≤ l ∧ u ≤ hi := by
  induction xs generalizing lo with
  | nil => cases hz
  | cons x xs ih =>
    cases xs with
    | nil =>
      rw [mem_singleton] at hz
      exact ⟨lo, hi, hz ▸ h, le_rfl, le_rfl⟩
    | cons y rest =>
      obtain ⟨hx, hlo, hhi, -, hrest⟩ := h
      rcases mem_cons.mp hz with rfl | hz
      · exact ⟨lo, key y, hx, le_rfl, hhi.le⟩
      · obtain ⟨l, u, hok, hl, hu⟩ := ih hrest hz
        exact ⟨l, u, hok, hlo.le.trans hl, hu⟩

theorem mem_segment (hlo : lo ≤ k) (hhi : (k : WithTop κ) < hi) (hx : pre ≠ [] → key x ≤ k)
    (hpost : ∀ y ∈ post, k < key y) :
    segLo key lo pre x ≤ k ∧ (k : WithTop κ) < segHi key hi post := by
  constructor
  · cases pre with
    | nil => exact hlo
    | cons a pre => exact coe_le_coe.mpr (hx (by simp))
  · cases post with
    | nil => exact hhi
    | cons y post => exact WithTop.coe_lt_coe.mpr (hpost y (by simp))

/-- What ends before the next separator is below all later ones. -/
theorem lt_of_lt_segHi (h : Ascending key (pre ++ x :: post))
    (hk : (k : WithTop κ) < segHi key hi post) : ∀ z ∈ post, k < key z := by
  cases post with
  | nil => simp
  | cons y post =>
    have hsorted : Ascending key (y :: post) := (pairwise_cons.mp (pairwise_append.mp h).2.1).2
    have hy : k < key y := coe_lt_coe.mp hk
    intro z hz
    rcases mem_cons.mp hz with rfl | hz
    · exact hy
    · exact hy.trans ((pairwise_cons.mp hsorted).1 z hz)

/-- Segments whose contents are ascending and within bounds concatenate to an
ascending list within the whole interval. -/
theorem Segmented.ascending_flatMap {keyOf : β → κ} {contents : α → List β}
    (hok : ∀ x l u, ok x l u → Ascending keyOf (contents x) ∧
      ∀ b ∈ contents x, l ≤ keyOf b ∧ (keyOf b : WithTop κ) < u) (h : Segmented key ok lo hi xs) :
    Ascending keyOf (xs.flatMap contents) ∧
      ∀ b ∈ xs.flatMap contents, lo ≤ keyOf b ∧ (keyOf b : WithTop κ) < hi := by
  induction xs generalizing lo with
  | nil => exact absurd rfl h.ne_nil
  | cons x xs ih =>
    cases xs with
    | nil => simpa using hok x lo hi h
    | cons y rest =>
      obtain ⟨hx, hlo, hhi, -, hrest⟩ := h
      obtain ⟨hsorted, hbounds⟩ := hok x lo (key y) hx
      obtain ⟨hsorted', hbounds'⟩ := ih hrest
      refine ⟨pairwise_append.mpr ⟨hsorted, hsorted', ?_⟩, ?_⟩
      · intro a ha b hb
        have hay : keyOf a < key y := coe_lt_coe.mp (hbounds a ha).2
        exact hay.trans_le (coe_le_coe.mp (hbounds' b hb).1)
      · intro b hb
        rcases mem_append.mp hb with hb | hb
        · exact ⟨(hbounds b hb).1, (hbounds b hb).2.trans hhi⟩
        · exact ⟨hlo.le.trans (hbounds' b hb).1, (hbounds' b hb).2⟩

section Contents

variable {keyOf : β → κ} {contents : α → List β} {b : β}
  (hok : ∀ x l u, ok x l u → Ascending keyOf (contents x) ∧
    ∀ b ∈ contents x, l ≤ keyOf b ∧ (keyOf b : WithTop κ) < u)

include hok

variable (h : Segmented key ok lo hi (pre ++ x :: post))

include h

theorem Segmented.lt_segLo (hb : b ∈ pre.flatMap contents) :
    (keyOf b : WithBot κ) < segLo key lo pre x := by
  cases pre with
  | nil => cases hb
  | cons a pre =>
    obtain ⟨hleft, -, -, -⟩ := h.cut (by simp)
    have hbx := ((hleft.ascending_flatMap hok).2 b hb).2
    exact coe_lt_coe.mpr (coe_lt_coe.mp hbx)

theorem Segmented.segHi_le (hb : b ∈ post.flatMap contents) : segHi key hi post ≤ keyOf b := by
  cases post with
  | nil => cases hb
  | cons y post =>
    have h' : Segmented key ok lo hi ((pre ++ [x]) ++ y :: post) := by simpa using h
    obtain ⟨-, hright, -, -⟩ := h'.cut (by simp)
    have hyb := ((hright.ascending_flatMap hok).2 b hb).1
    exact WithTop.coe_le_coe.mpr (WithBot.coe_le_coe.mp hyb)

/-- A key of the segment of `x` occurs in the contents of `x` only. -/
theorem Segmented.mem_contents_of_key (hb : b ∈ (pre ++ x :: post).flatMap contents)
    (hlo : segLo key lo pre x ≤ keyOf b) (hhi : (keyOf b : WithTop κ) < segHi key hi post) :
    b ∈ contents x := by
  rw [flatMap_append, flatMap_cons, mem_append, mem_append] at hb
  rcases hb with hpre | hx | hpost
  · exact absurd hlo (not_le.mpr (h.lt_segLo hok hpre))
  · exact hx
  · exact absurd hhi (not_lt.mpr (h.segHi_le hok hpost))

end Contents

end Segments

end WaveDB.Basis
