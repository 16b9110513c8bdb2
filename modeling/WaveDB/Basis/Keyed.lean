import Mathlib.Data.List.Nodup

/-!
Lists of items with distinct keys, read as finite maps.

`withKey` is the lookup and `withoutKey` the removal. Under distinct keys the order of the
items does not matter: `withKey_cons_withoutKey` says that an item may be taken to the front.
-/

namespace WaveDB.Basis

open List

variable {α κ : Type} [DecidableEq κ] (key : α → κ)

def withKey (items : List α) (k : κ) : Option α := items.find? fun x => decide (key x = k)

def withoutKey (items : List α) (k : κ) : List α := items.eraseP fun x => decide (key x = k)

variable {key} {items : List α} {k q : κ} {x : α}

theorem key_of_withKey (h : withKey key items k = some x) : key x = k := by
  have hx := find?_some h
  exact of_decide_eq_true hx

theorem withKey_eq_none : withKey key items k = none ↔ k ∉ items.map key := by
  rw [withKey, find?_eq_none, mem_map, not_exists]
  exact forall_congr' fun x => by rw [decide_eq_true_eq, not_and]

theorem withKey_cons (x : α) (items : List α) (k : κ) :
    withKey key (x :: items) k = if key x = k then some x else withKey key items k := by
  rw [withKey, find?_cons, withKey]
  by_cases h : key x = k
  · rw [decide_eq_true h, if_pos h]
  · rw [decide_eq_false h, if_neg h]

variable (hkeys : (items.map key).Nodup)

include hkeys

/-- Under distinct keys an item is found under its own key. -/
theorem withKey_of_mem (hx : x ∈ items) : withKey key items (key x) = some x := by
  induction items with
  | nil => cases hx
  | cons y items ih =>
    rw [map_cons, nodup_cons] at hkeys
    rw [withKey_cons]
    rcases mem_cons.mp hx with rfl | hx
    · rw [if_pos rfl]
    · have hne : key y ≠ key x := by
        intro h
        exact hkeys.1 (h ▸ mem_map_of_mem hx)
      rw [if_neg hne, ih hkeys.2 hx]

/-- Some items may be missing: a lookup finds the same item or nothing. -/
theorem withKey_sublist {kept : List α} (h : kept.Sublist items) (k : κ) :
    withKey key kept k = none ∨ withKey key kept k = withKey key items k := by
  cases hfind : withKey key kept k with
  | none => exact .inl rfl
  | some x =>
    right
    rw [← key_of_withKey hfind, withKey_of_mem hkeys (h.subset (mem_of_find?_eq_some hfind))]

theorem nodup_withoutKey (k : κ) : ((withoutKey key items k).map key).Nodup :=
  hkeys.sublist (eraseP_sublist.map key)

/-- What was removed is not found any more; the rest is. -/
theorem withKey_withoutKey (k q : κ) :
    withKey key (withoutKey key items k) q = if k = q then none else withKey key items q := by
  induction items with
  | nil =>
    split
    · rfl
    · rfl
  | cons x items ih =>
    rw [map_cons, nodup_cons] at hkeys
    rw [withoutKey, eraseP_cons, ← withoutKey, withKey_cons]
    by_cases hx : key x = k
    · rw [decide_eq_true hx, cond_true]
      by_cases hq : k = q
      · rw [if_pos hq, withKey_eq_none, ← hq, ← hx]
        exact hkeys.1
      · rw [if_neg hq, if_neg (hx ▸ hq)]
    · rw [decide_eq_false hx, cond_false, withKey_cons, ih hkeys.2]
      by_cases hxq : key x = q
      · rw [if_pos hxq, if_neg fun h => hx (hxq.trans h.symm), if_pos hxq]
      · rw [if_neg hxq, if_neg hxq]

/-- An item that takes the place of the one with its key, at the front. -/
theorem withKey_cons_withoutKey (hx : key x = k) (q : κ) :
    withKey key (x :: withoutKey key items k) q =
      if k = q then some x else withKey key items q := by
  rw [withKey_cons, hx, withKey_withoutKey hkeys]
  split
  · rfl
  · rfl

theorem nodup_cons_withoutKey (hx : key x = k) : ((x :: withoutKey key items k).map key).Nodup := by
  rw [map_cons, nodup_cons, hx, ← withKey_eq_none, withKey_withoutKey hkeys, if_pos rfl]
  exact ⟨rfl, nodup_withoutKey hkeys k⟩

end WaveDB.Basis
