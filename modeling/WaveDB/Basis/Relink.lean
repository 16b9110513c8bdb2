import Mathlib.Data.List.Chain
import Mathlib.Data.List.Nodup

/-!
Linking the nodes of a run in a new order, where the last one takes over the link of the node that
was last before.

If the order leaves that node last, the run is linked in order and goes on where it went on
(`follow_relink`). Otherwise its link is overwritten before it is read, and the run is linked to a
ring (`follow_relink_eq_none`).
-/

namespace WaveDB.Basis

open List Function

variable {α : Type}

section Definitions

variable [DecidableEq α] (next : α → Option α)

def linkInOrder (next : α → Option α) : List α → α → Option α
  | a :: b :: rest => linkInOrder (update next a (some b)) (b :: rest)
  | _ => next

/-- The links in order, and then that of the last node: `last->next = oldLast->next`. -/
def relink (order : List α) (oldLast : α) : α → Option α :=
  order.getLast?.elim next fun last =>
    update (linkInOrder next order) last (linkInOrder next order oldLast)

/-- The nodes from a node on, unless there are more than the fuel. -/
def follow (next : α → Option α) : Nat → α → Option (List α)
  | 0, _ => none
  | fuel + 1, a =>
    match next a with
    | none => some [a]
    | some b => (follow next fuel b).map (a :: ·)

end Definitions

theorem follow_eq_none {next : α → Option α} {nodes : List α}
    (h : ∀ a ∈ nodes, ∃ b ∈ nodes, next a = some b) (fuel : Nat) {a : α} (ha : a ∈ nodes) :
    follow next fuel a = none := by
  induction fuel generalizing a with
  | zero => rfl
  | succ fuel ih =>
    obtain ⟨b, hb, hnext⟩ := h a ha
    rw [follow, hnext]
    exact Option.map_eq_none_iff.mpr (ih hb)

theorem follow_chain {next : α → Option α} {a last : α} {rest : List α}
    (hchain : (a :: rest).IsChain fun a b => next a = some b)
    (hlast : (a :: rest).getLast? = some last) (hend : next last = none) :
    follow next (a :: rest).length a = some (a :: rest) := by
  induction rest generalizing a with
  | nil =>
    obtain rfl : a = last := Option.some.inj hlast
    rw [length_singleton, follow, hend]
  | cons b rest ih =>
    rw [isChain_cons_cons] at hchain
    rw [getLast?_cons_cons] at hlast
    rw [length_cons, follow, hchain.1]
    exact congrArg (Option.map (a :: ·)) (ih hchain.2 hlast)

variable [DecidableEq α] {next : α → Option α} {order : List α} {a last oldLast : α}

theorem linkInOrder_of_notMem (h : a ∉ order.dropLast) : linkInOrder next order a = next a := by
  fun_induction linkInOrder next order with
  | case1 next b c rest ih =>
    rw [dropLast_cons_cons, mem_cons, not_or] at h
    rw [ih h.2, update_of_ne h.1]
  | case2 => rfl

theorem linkInOrder_of_mem (h : a ∈ order.dropLast) :
    ∃ b ∈ order, linkInOrder next order a = some b := by
  fun_induction linkInOrder next order with
  | case1 next b c rest ih =>
    by_cases hrest : a ∈ (c :: rest).dropLast
    · obtain ⟨d, hd, hnext⟩ := ih hrest
      exact ⟨d, mem_cons_of_mem b hd, hnext⟩
    · obtain rfl : a = b := (mem_cons.mp h).resolve_right hrest
      exact ⟨c, by simp, by rw [linkInOrder_of_notMem hrest, update_self]⟩
  | case2 order next hshort =>
    rcases order with _ | ⟨b, _ | ⟨c, rest⟩⟩
    · cases h
    · cases h
    · exact absurd rfl (hshort b c rest)

theorem isChain_linkInOrder (h : order.Nodup) :
    order.IsChain fun a b => linkInOrder next order a = some b := by
  fun_induction linkInOrder next order with
  | case1 next b c rest ih =>
    obtain ⟨hb, hrest⟩ := nodup_cons.mp h
    refine isChain_cons_cons.mpr ⟨?_, ih hrest⟩
    rw [linkInOrder_of_notMem fun hmem => hb (dropLast_subset _ hmem), update_self]
  | case2 order next hshort =>
    rcases order with _ | ⟨b, _ | ⟨c, rest⟩⟩
    · exact .nil
    · exact .singleton b
    · exact absurd rfl (hshort b c rest)

/-- The node that was last is last in the new order. -/
theorem follow_relink {rest : List α} (h : (a :: rest).Nodup)
    (hlast : (a :: rest).getLast? = some last) (hend : next last = none) :
    follow (relink next (a :: rest) last) (a :: rest).length a = some (a :: rest) := by
  have hsame : relink next (a :: rest) last = linkInOrder next (a :: rest) := by
    rw [relink, hlast, Option.elim_some, update_eq_self]
  have hnot : last ∉ (a :: rest).dropLast := by
    intro hmem
    rw [← dropLast_append_getLast? last hlast, nodup_append] at h
    exact h.2.2 last hmem last (mem_singleton_self last) rfl
  rw [hsame]
  exact follow_chain (isChain_linkInOrder h) hlast ((linkInOrder_of_notMem hnot).trans hend)

/-- Another node is last in the new order: every link leads back to the run. -/
theorem follow_relink_eq_none (hold : oldLast ∈ order) (hlast : order.getLast? ≠ some oldLast)
    (fuel : Nat) (ha : a ∈ order) : follow (relink next order oldLast) fuel a = none := by
  refine follow_eq_none (fun b hb => ?_) fuel ha
  obtain ⟨last, hlast'⟩ := Option.isSome_iff_exists.mp
    (getLast?_isSome.mpr (ne_nil_of_mem hb))
  have hinner : ∀ c ∈ order, c ≠ last → c ∈ order.dropLast := by
    intro c hc hne
    rw [← dropLast_append_getLast? last hlast', mem_append] at hc
    exact hc.resolve_right fun hmem => hne (mem_singleton.mp hmem)
  rw [relink, hlast', Option.elim_some]
  by_cases hblast : b = last
  · rw [hblast, update_self]
    exact linkInOrder_of_mem (hinner oldLast hold fun heq => hlast (heq ▸ hlast'))
  · rw [update_of_ne hblast]
    exact linkInOrder_of_mem (hinner b hb hblast)

end WaveDB.Basis
