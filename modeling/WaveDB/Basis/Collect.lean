import Mathlib.Data.List.Basic
import Mathlib.Data.List.Count
import Mathlib.Data.List.Induction
import Mathlib.Data.List.Nodup
import Mathlib.Order.Defs.LinearOrder
import Mathlib.Tactic.Ring

/-!
Collecting the items of several sources into one list.

* When every item knows the source it came from, the collected list determines how often each
  source with an item was visited: `flatMap_perm_flatMap_iff`.
-/

namespace WaveDB.Basis

open List

section Visits

variable {α β : Type} [BEq α] [LawfulBEq α] [BEq β] [LawfulBEq β] {items : α → List β}
  {source : β → α}

variable (hsource : ∀ a, ∀ b ∈ items a, source b = a)

include hsource

theorem count_flatMap_of_source (visited : List α) (b : β) :
    (visited.flatMap items).count b = visited.count (source b) * (items (source b)).count b := by
  induction visited with
  | nil => rw [flatMap_nil, count_nil, count_nil, Nat.zero_mul]
  | cons a visited ih =>
    rw [flatMap_cons, count_append, ih, count_cons]
    by_cases hb : b ∈ items a
    · obtain rfl := hsource a b hb
      rw [if_pos (beq_self_eq_true _)]
      ring
    · have hzero : (items a).count b = 0 := count_eq_zero_of_not_mem hb
      by_cases ha : a = source b
      · subst ha
        rw [hzero, Nat.mul_zero, Nat.mul_zero]
      · rw [hzero, if_neg (beq_iff_eq.not.mpr ha), Nat.zero_add, Nat.add_zero]

/-- Two collections agree exactly when they visit every source that has items equally often. -/
theorem flatMap_perm_flatMap_iff {visited visited' : List α} :
    (visited.flatMap items).Perm (visited'.flatMap items) ↔
      ∀ a, items a ≠ [] → visited.count a = visited'.count a := by
  rw [perm_iff_count]
  constructor
  · intro h a hne
    obtain ⟨b, hb⟩ := exists_mem_of_ne_nil _ hne
    have hcount := h b
    obtain rfl := hsource a b hb
    rw [count_flatMap_of_source hsource, count_flatMap_of_source hsource] at hcount
    exact Nat.eq_of_mul_eq_mul_right (count_pos_iff.mpr hb) hcount
  · intro h b
    rw [count_flatMap_of_source hsource, count_flatMap_of_source hsource]
    by_cases hne : items (source b) = []
    · rw [hne, count_nil, Nat.mul_zero, Nat.mul_zero]
    · rw [h _ hne]

end Visits

section Last

variable {α γ ι : Type} {l : List α} {g : α → Option γ}

theorem getLast?_filterMap_eq_some_iff {c : γ} : (l.filterMap g).getLast? = some c ↔
      ∃ before a after, l = before ++ a :: after ∧ g a = some c ∧ ∀ b ∈ after, g b = none := by
  constructor
  · induction l using reverseRecOn with
    | nil => exact fun h => by cases h
    | append_singleton l a ih =>
      intro h
      cases ha : g a with
      | none =>
        rw [filterMap_append, filterMap_cons_none ha, filterMap_nil, append_nil] at h
        obtain ⟨before, m, after, rfl, hm, hafter⟩ := ih h
        refine ⟨before, m, after ++ [a], by simp, hm, ?_⟩
        intro b hb
        rcases mem_append.mp hb with hb | hb
        · exact hafter b hb
        · rw [mem_singleton.mp hb, ha]
      | some c' =>
        rw [filterMap_append, filterMap_cons_some ha, filterMap_nil, getLast?_concat] at h
        cases h
        exact ⟨l, a, [], rfl, ha, nofun⟩
  · rintro ⟨before, a, after, rfl, ha, hafter⟩
    rw [filterMap_append, filterMap_cons_some ha, filterMap_eq_nil_iff.mpr hafter, getLast?_concat]

/-- Two lists of the same items: the items that matter are strictly in order in the first, and the
second is sorted. Both have the same last item. -/
theorem getLast?_filterMap_eq [LinearOrder ι] {l' : List α} {rank : α → ι}
    (hmem : ∀ a, a ∈ l ↔ a ∈ l')
    (hl : l.Pairwise fun a b => (g a).isSome → (g b).isSome → rank a < rank b)
    (hl' : l'.Pairwise fun a b => rank a ≤ rank b) :
    (l.filterMap g).getLast? = (l'.filterMap g).getLast? := by
  cases hlast : (l.filterMap g).getLast? with
  | none =>
    rw [getLast?_eq_none_iff, filterMap_eq_nil_iff] at hlast
    symm
    rw [getLast?_eq_none_iff, filterMap_eq_nil_iff]
    exact fun a ha => hlast a ((hmem a).mpr ha)
  | some c =>
    obtain ⟨before, m, after, rfl, hm, hafter⟩ := getLast?_filterMap_eq_some_iff.mp hlast
    have hm' : m ∈ l' := (hmem m).mp (mem_append_right _ mem_cons_self)
    cases hlast' : (l'.filterMap g).getLast? with
    | none =>
      rw [getLast?_eq_none_iff, filterMap_eq_nil_iff] at hlast'
      rw [hlast' m hm'] at hm
      cases hm
    | some c' =>
      obtain ⟨before', x, after', rfl, hx, hafter'⟩ := getLast?_filterMap_eq_some_iff.mp hlast'
      have hx' : x ∈ before ++ m :: after := (hmem x).mpr (mem_append_right _ mem_cons_self)
      have hle : m = x ∨ rank m ≤ rank x := by
        rcases mem_append.mp hm' with hin | hin
        · exact .inr ((pairwise_append.mp hl').2.2 m hin x mem_cons_self)
        · rcases mem_cons.mp hin with rfl | hin
          · exact .inl rfl
          · rw [hafter' m hin] at hm
            cases hm
      rcases mem_append.mp hx' with hin | hin
      · have hlt := (pairwise_append.mp hl).2.2 x hin m mem_cons_self
          (by rw [hx]; rfl) (by rw [hm]; rfl)
        rcases hle with rfl | hle
        · exact absurd hlt (lt_irrefl _)
        · exact absurd hlt (not_lt.mpr hle)
      · rcases mem_cons.mp hin with rfl | hin
        · rw [← hm, hx]
        · rw [hafter x hin] at hx
          cases hx

end Last

end WaveDB.Basis
