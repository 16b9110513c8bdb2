import Mathlib.Algebra.Group.Nat.Defs
import Mathlib.Logic.Function.Basic
import Mathlib.Tactic.SplitIfs

/-!
One timing wheel (`Time/wheel.c`).

`timing_wheel_set_timer` puts a timer into the slot its delay leads to and notes the revolutions
that are left; each visit of the slot counts one down, the first one included. A timer therefore
waits for its delay only if that is at most one revolution.
-/

namespace WaveDB.Time

open List Option

inductive WheelName where
  | milliseconds
  | seconds
  | minutes
  | hours
  | days
deriving DecidableEq

/-- The timer with an id, or the one by which a finer wheel drives a coarse one. -/
inductive TimerRef where
  | user (timerId : Nat)
  | driver (wheel : WheelName)
deriving DecidableEq

structure PlanStep where
  delay : UInt64
  wheel : WheelName
deriving DecidableEq

/-- `timer_st`; `plan` are the steps from the current one on. -/
structure Timer where
  ref : TimerRef
  plan : List PlanStep
  removed : Bool
  circle : Int
deriving DecidableEq

def Timer.delay (timer : Timer) : UInt64 := (timer.plan.head?.map PlanStep.delay).getD 0

def Timer.mark (ref : TimerRef) (timer : Timer) : Timer :=
  if timer.ref = ref then { timer with removed := true } else timer

/-- `timing_wheel_t` with `slotCount` slots, the `int` length of a vector. -/
structure TimingWheel (slotCount : Nat) where
  position : Fin slotCount
  slots : Fin slotCount → List Timer
  count_lt : slotCount < 2 ^ 31

variable {slotCount : Nat}

namespace TimingWheel

variable (wheel : TimingWheel slotCount)

def slotAt (index : Nat) : Fin slotCount := ⟨index % slotCount, Nat.mod_lt _ wheel.position.pos⟩

/-- The slot that a delay leads to; the sum wraps as a `size_t`. -/
def slotOf (steps : UInt64) : Fin slotCount :=
  wheel.slotAt ((wheel.position + steps.toNat) % 2 ^ 64)

/-- The revolutions that are left, cast to an `int32_t`. -/
def circleOf (_ : TimingWheel slotCount) (steps : UInt64) : Int :=
  Int.bmod ((steps - 1).toNat / slotCount : Nat) (2 ^ 32)

def mark (ref : TimerRef) : TimingWheel slotCount :=
  { wheel with slots := fun i => (wheel.slots i).map (Timer.mark ref) }

end TimingWheel

variable (wheel : TimingWheel slotCount)

def timingWheelSetTimer (timer : Timer) : TimingWheel slotCount :=
  { wheel with
    slots := Function.update wheel.slots (wheel.slotOf timer.delay)
      (wheel.slots (wheel.slotOf timer.delay) ++
        [{ timer with circle := wheel.circleOf timer.delay }]) }

/-- What a visit of `timing_wheel_maintenance` leaves of a timer in the slot. -/
def Timer.keep (timer : Timer) : Option Timer :=
  if timer.removed then none
  else if 1 < timer.circle then some { timer with circle := timer.circle - 1 } else none

def Timer.expires (timer : Timer) : Bool := !timer.removed && decide (timer.circle ≤ 1)

/-- The locked part of `timing_wheel_on_tick`, with the timers that expire. -/
def timingWheelAdvance : TimingWheel slotCount × List Timer :=
  let position := wheel.slotAt (wheel.position + 1)
  ({ wheel with
      position
      slots := Function.update wheel.slots position
        ((wheel.slots position).filterMap Timer.keep) },
    (wheel.slots position).filter Timer.expires)

/-! ### One timer among others -/

inductive WheelAction where
  | tick
  | setTimer (timer : Timer)
  | cancel (ref : TimerRef)

def WheelAction.spares (ref : TimerRef) : WheelAction → Bool
  | .tick => true
  | .setTimer timer => timer.ref != ref
  | .cancel other => other != ref

def expirations (wheel : TimingWheel slotCount) : List WheelAction → List (List Timer)
  | [] => []
  | .tick :: rest => (timingWheelAdvance wheel).2 :: expirations (timingWheelAdvance wheel).1 rest
  | .setTimer timer :: rest => expirations (timingWheelSetTimer wheel timer) rest
  | .cancel ref :: rest => expirations (wheel.mark ref) rest

/-- Whatever happens to other timers, the timer expires on the given tick and on no other one. -/
def ExpiresOn (ref : TimerRef) (tick : Nat) : Prop :=
  ∀ actions : List WheelAction, (∀ a ∈ actions, a.spares ref = true) →
    ∀ n expired, (expirations wheel actions)[n]? = some expired →
      (ref ∈ expired.map Timer.ref ↔ n + 1 = tick)

def distance (position index : Fin slotCount) : Nat :=
  if position < index then index - position else index + slotCount - position

def ticksLeft (position index : Fin slotCount) (circle : Int) : Nat :=
  distance position index + (circle.toNat - 1) * slotCount

/-- A timer is in the wheel for some more ticks, or no longer. -/
structure Waits (ref : TimerRef) (left : Option Nat) : Prop where
  left_eq : ∀ i, ∀ t ∈ wheel.slots i, t.ref = ref →
    t.removed = false ∧ left = some (ticksLeft wheel.position i t.circle)
  exists_mem : left.isSome → ∃ i, ∃ t ∈ wheel.slots i, t.ref = ref

section Waiting

variable {wheel : TimingWheel slotCount} {timer t : Timer} {ref : TimerRef} {left : Option Nat}
  {i : Fin slotCount} {circle : Int}

theorem mem_setTimer : t ∈ (timingWheelSetTimer wheel timer).slots i ↔ t ∈ wheel.slots i ∨
    i = wheel.slotOf timer.delay ∧ t = { timer with circle := wheel.circleOf timer.delay } := by
  rw [timingWheelSetTimer]
  by_cases hi : i = wheel.slotOf timer.delay
  · subst hi
    simp
  · simp [hi]

theorem mem_advance : t ∈ (timingWheelAdvance wheel).1.slots i ↔
    if i = wheel.slotAt (wheel.position + 1) then ∃ u ∈ wheel.slots i, u.keep = some t
    else t ∈ wheel.slots i := by
  rw [timingWheelAdvance]
  by_cases hi : i = wheel.slotAt (wheel.position + 1)
  · subst hi
    simp
  · simp [hi]

theorem Timer.keep_eq_some {u : Timer} : u.keep = some t ↔
    u.removed = false ∧ 1 < u.circle ∧ { u with circle := u.circle - 1 } = t := by
  simp [keep]

theorem distance_pos (position i : Fin slotCount) : 0 < distance position i := by
  unfold distance
  split <;> omega

theorem distance_next (wheel : TimingWheel slotCount) (i : Fin slotCount) :
    distance wheel.position i = if i = wheel.slotAt (wheel.position + 1) then 1
      else distance (wheel.slotAt (wheel.position + 1)) i + 1 := by
  have hnext : (wheel.position + 1) % slotCount =
      if wheel.position + 1 = slotCount then 0 else wheel.position.val + 1 := by
    split
    · rename_i hend
      rw [hend, Nat.mod_self]
    · exact Nat.mod_eq_of_lt (by omega)
  simp only [distance, TimingWheel.slotAt, hnext, Fin.ext_iff, Fin.lt_def]
  split_ifs <;> omega

theorem ticksLeft_eq_one : ticksLeft wheel.position i circle = 1 ↔
    i = wheel.slotAt (wheel.position + 1) ∧ circle ≤ 1 := by
  have hpos := distance_pos (wheel.slotAt (wheel.position + 1)) i
  have hslots := wheel.position.pos
  rw [ticksLeft, distance_next]
  constructor
  · intro hone
    split at hone
    · refine ⟨by assumption, ?_⟩
      by_contra hcircle
      have := Nat.mul_pos (by omega : 0 < circle.toNat - 1) hslots
      omega
    · omega
  · rintro ⟨rfl, hcircle⟩
    rw [if_pos rfl, (by omega : circle.toNat - 1 = 0), Nat.zero_mul]

theorem ticksLeft_moved (hi : i ≠ wheel.slotAt (wheel.position + 1)) :
    ticksLeft wheel.position i circle =
      ticksLeft (wheel.slotAt (wheel.position + 1)) i circle + 1 := by
  rw [ticksLeft, distance_next, if_neg hi, ticksLeft, Nat.add_right_comm]

/-- The visit of a slot starts another revolution for the timers that stay in it. -/
theorem ticksLeft_kept (hcircle : 1 < circle) :
    ticksLeft wheel.position (wheel.slotAt (wheel.position + 1)) circle =
      ticksLeft (wheel.slotAt (wheel.position + 1)) (wheel.slotAt (wheel.position + 1))
        (circle - 1) + 1 := by
  obtain ⟨m, hm⟩ : ∃ m, circle.toNat - 1 = m + 1 := ⟨circle.toNat - 2, by omega⟩
  rw [ticksLeft, distance_next, if_pos rfl, ticksLeft, distance, if_neg (Fin.lt_irrefl _), hm,
    (by omega : (circle - 1).toNat - 1 = m), Nat.succ_mul]
  omega

theorem Waits.setTimer (h : Waits wheel ref left) (hne : timer.ref ≠ ref) :
    Waits (timingWheelSetTimer wheel timer) ref left := by
  constructor
  · intro i t ht href
    obtain ht | ⟨-, rfl⟩ := mem_setTimer.mp ht
    · exact h.left_eq i t ht href
    · exact absurd href hne
  · intro hleft
    obtain ⟨i, t, ht, href⟩ := h.exists_mem hleft
    exact ⟨i, t, mem_setTimer.mpr (.inl ht), href⟩

theorem waits_setTimer (hnew : ∀ i, ∀ t ∈ wheel.slots i, t.ref ≠ timer.ref)
    (hkept : timer.removed = false) :
    Waits (timingWheelSetTimer wheel timer) timer.ref (some (ticksLeft wheel.position
      (wheel.slotOf timer.delay) (wheel.circleOf timer.delay))) := by
  constructor
  · intro i t ht href
    obtain ht | ⟨rfl, rfl⟩ := mem_setTimer.mp ht
    · exact absurd href (hnew i t ht)
    · refine ⟨hkept, ?_⟩
      dsimp only [timingWheelSetTimer]
  · intro _
    exact ⟨_, _, mem_setTimer.mpr (.inr ⟨rfl, rfl⟩), rfl⟩

section Turn

variable (h : Waits wheel ref left)

include h

theorem Waits.mark {other : TimerRef} (hne : other ≠ ref) : Waits (wheel.mark other) ref left := by
  constructor
  · intro i t ht href
    obtain ⟨u, hu, rfl⟩ := mem_map.mp ht
    unfold Timer.mark at href ⊢
    split at href
    · rename_i heq
      exact absurd (heq.symm.trans href) hne
    · rename_i heq
      rw [if_neg heq]
      exact h.left_eq i u hu href
  · intro hleft
    obtain ⟨i, t, ht, href⟩ := h.exists_mem hleft
    refine ⟨i, t, mem_map.mpr ⟨t, ht, if_neg ?_⟩, href⟩
    exact fun heq => hne (heq.symm.trans href)

theorem Waits.mem_expired : ref ∈ (timingWheelAdvance wheel).2.map Timer.ref ↔ left = some 1 := by
  constructor
  · intro hmem
    obtain ⟨t, ht, href⟩ := mem_map.mp hmem
    obtain ⟨ht, hexpires⟩ := mem_filter.mp ht
    obtain ⟨-, rfl⟩ := h.left_eq _ t ht href
    rw [some.injEq, ticksLeft_eq_one]
    exact ⟨rfl, of_decide_eq_true (Bool.and_eq_true_iff.mp hexpires).2⟩
  · rintro rfl
    obtain ⟨i, t, ht, href⟩ := h.exists_mem rfl
    obtain ⟨hkept, hleft⟩ := h.left_eq i t ht href
    obtain ⟨rfl, hcircle⟩ := ticksLeft_eq_one.mp (some.inj hleft).symm
    exact mem_map.mpr ⟨t, mem_filter.mpr ⟨ht, by simp [Timer.expires, hkept, hcircle]⟩, href⟩

theorem Waits.advance : Waits (timingWheelAdvance wheel).1 ref
      (left.bind fun ticks => if ticks = 1 then none else some (ticks - 1)) := by
  constructor
  · intro i t ht href
    suffices hleft : t.removed = false ∧
        left = some (ticksLeft (wheel.slotAt (wheel.position + 1)) i t.circle + 1) by
      have hpos := distance_pos (wheel.slotAt (wheel.position + 1)) i
      rw [hleft.2, bind_some, if_neg (by unfold ticksLeft; omega), Nat.add_sub_cancel]
      exact ⟨hleft.1, rfl⟩
    rw [mem_advance] at ht
    split at ht
    · rename_i hi
      obtain ⟨u, hu, hkeep⟩ := ht
      obtain ⟨hkept, hcircle, rfl⟩ := Timer.keep_eq_some.mp hkeep
      rw [(h.left_eq i u hu href).2, hi, ticksLeft_kept hcircle]
      exact ⟨hkept, rfl⟩
    · rename_i hi
      rw [← ticksLeft_moved hi]
      exact h.left_eq i t ht href
  · intro hleft
    obtain ⟨_, hleft⟩ := isSome_iff_exists.mp hleft
    obtain ⟨ticks, rfl, hticks⟩ := bind_eq_some_iff.mp hleft
    obtain ⟨hone, -⟩ := ite_none_left_eq_some.mp hticks
    obtain ⟨i, t, ht, href⟩ := h.exists_mem rfl
    obtain ⟨hkept, heq⟩ := h.left_eq i t ht href
    by_cases hi : i = wheel.slotAt (wheel.position + 1)
    · have hcircle : 1 < t.circle := by
        by_contra hcircle
        exact hone ((some.inj heq).trans (ticksLeft_eq_one.mpr ⟨hi, by omega⟩))
      refine ⟨i, { t with circle := t.circle - 1 }, mem_advance.mpr ?_, href⟩
      rw [if_pos hi]
      exact ⟨t, ht, Timer.keep_eq_some.mpr ⟨hkept, hcircle, rfl⟩⟩
    · refine ⟨i, t, mem_advance.mpr ?_, href⟩
      rwa [if_neg hi]

/-- Of the runs of other timers it is the ticks alone that count. -/
theorem Waits.mem_expirations {actions : List WheelAction} (hspares : ∀ a ∈ actions, a.spares ref)
    {n : Nat} {expired : List Timer} (hget : (expirations wheel actions)[n]? = some expired) :
    ref ∈ expired.map Timer.ref ↔ left = some (n + 1) := by
  induction actions generalizing wheel left n with
  | nil => cases hget
  | cons a rest ih =>
    obtain ⟨ha, hrest⟩ := forall_mem_cons.mp hspares
    cases a with
    | tick =>
      cases n with
      | zero =>
        cases hget
        exact h.mem_expired
      | succ n =>
        rw [ih h.advance hrest hget]
        cases left with
        | none => simp
        | some ticks => simp; omega
    | setTimer other =>
      exact ih (h.setTimer (by simpa [WheelAction.spares] using ha)) hrest hget
    | cancel other =>
      exact ih (h.mark (by simpa [WheelAction.spares] using ha)) hrest hget

end Turn

theorem length_expirations (wheel : TimingWheel slotCount) (n : Nat) :
    (expirations wheel (replicate n .tick)).length = n := by
  induction n generalizing wheel with
  | zero => rfl
  | succ n ih => exact congrArg (· + 1) (ih _)

theorem Waits.expiresOn_iff (h : Waits wheel ref left) {tick : Nat} (htick : 1 ≤ tick) :
    ExpiresOn wheel ref tick ↔ left = some tick := by
  constructor
  · intro hexpires
    have hticks : ∀ a ∈ replicate tick WheelAction.tick, a.spares ref = true := by
      intro a ha
      rw [eq_of_mem_replicate ha]
      rfl
    have hlt : tick - 1 < (expirations wheel (replicate tick .tick)).length := by
      rw [length_expirations]
      omega
    have hget := getElem?_eq_getElem hlt
    rw [← Nat.sub_add_cancel htick, ← h.mem_expirations hticks hget]
    exact (hexpires _ hticks _ _ hget).mpr (Nat.sub_add_cancel htick)
  · rintro rfl actions hspares n expired hget
    rw [h.mem_expirations hspares hget, some.injEq, eq_comm]

/-- The ticks that a new timer waits for are its delay, if that is at most one revolution. -/
theorem ticksLeft_eq_delay_iff (wheel : TimingWheel slotCount) {steps : UInt64}
    (hsteps : 1 ≤ steps) :
    ticksLeft wheel.position (wheel.slotOf steps) (wheel.circleOf steps) = steps.toNat ↔
      steps.toNat ≤ slotCount := by
  have hposition := wheel.position.isLt
  have hcount := wheel.count_lt
  have hpos : 1 ≤ steps.toNat := UInt64.le_iff_toNat_le.mp hsteps
  have hcast : ∀ k : Nat, (Int.bmod k (2 ^ 32)).toNat ≤ k := by
    intro k
    have hk := Int.bmod_def k (2 ^ 32)
    split at hk <;> omega
  have hcircle : (wheel.circleOf steps).toNat ≤ (steps - 1).toNat / slotCount := hcast _
  rw [UInt64.toNat_sub_of_le _ _ hsteps, UInt64.toNat_one] at hcircle
  unfold ticksLeft distance
  constructor
  · intro htotal
    by_contra hlong
    have hrevolution : 1 ≤ (steps.toNat - 1) / slotCount :=
      (Nat.one_le_div_iff (by omega)).mpr (by omega)
    have hmul := Nat.div_mul_le_self (steps.toNat - 1) slotCount
    have hless := Nat.mul_le_mul_right slotCount (Nat.sub_le_sub_right hcircle 1)
    rw [← Nat.sub_add_cancel hrevolution, Nat.succ_mul] at hmul
    split at htotal <;> omega
  · intro hshort
    rw [Nat.div_eq_of_lt (by omega), Nat.le_zero] at hcircle
    rw [hcircle]
    simp only [Fin.lt_def, TimingWheel.slotOf, TimingWheel.slotAt]
    rw [Nat.mod_eq_of_lt (by omega : _ < 2 ^ 64)]
    by_cases hwrap : wheel.position + steps.toNat < slotCount
    · rw [Nat.mod_eq_of_lt hwrap, if_pos (by omega)]
      omega
    · rw [Nat.mod_eq_sub_mod (by omega), Nat.mod_eq_of_lt (by omega), if_neg (by omega)]
      omega

/-- A timer expires on the tick its delay says, whatever happens to other timers, if and only if
the delay is at most one revolution of the wheel. -/
theorem wheel_timer_on_time_iff (wheel : TimingWheel slotCount) (timer : Timer)
    (hdelay : 1 ≤ timer.delay) (hkept : timer.removed = false)
    (hnew : ∀ i, ∀ t ∈ wheel.slots i, t.ref ≠ timer.ref) :
    ExpiresOn (timingWheelSetTimer wheel timer) timer.ref timer.delay.toNat ↔
      timer.delay.toNat ≤ slotCount := by
  rw [(waits_setTimer hnew hkept).expiresOn_iff (UInt64.le_iff_toNat_le.mp hdelay),
    some.injEq, ticksLeft_eq_delay_iff wheel hdelay]

end Waiting

theorem wheel_timer_on_time_third :
    ExpiresOn (timingWheelSetTimer ⟨(3 : Fin 4), fun _ => [], by decide⟩
      ⟨.user 1, [⟨3, .milliseconds⟩], false, 0⟩) (.user 1) 3 :=
  (wheel_timer_on_time_iff _ ⟨.user 1, [⟨3, .milliseconds⟩], false, 0⟩ (by decide) rfl
    fun _ => forall_mem_nil _).mpr (by decide)

/-- A delay of five ticks on a wheel of four slots is over after one tick. -/
theorem wheel_timer_early : ¬ ExpiresOn (timingWheelSetTimer ⟨(3 : Fin 4), fun _ => [], by decide⟩
      ⟨.user 1, [⟨5, .milliseconds⟩], false, 0⟩) (.user 1) 5 := by
  intro h
  have hfirst := h [.tick] (by decide) 0 _ rfl
  revert hfirst
  decide

end WaveDB.Time
