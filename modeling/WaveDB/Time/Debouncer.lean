import WaveDB.Basis.Runs
import Mathlib.Tactic.SplitIfs

/-!
The debouncer (`Time/debouncer.c`).

The stored timer id is replaced without a cancellation once `max_wait` has passed, and it stays
when the timer fires. `debouncer_runs_exact_iff` says which calls that spoils.
-/

namespace WaveDB.Time

open WaveDB.Basis

/-- What `debouncer_create` fixes. A timer may fire at any time, whatever `wait` is. -/
structure DebouncerConfig where
  wheel : Bool
  maxWait : Nat

/-- `debouncer_t`, and the timing wheel as it sees it. -/
structure Debouncer where
  timerId : Nat
  intervalStart : Nat
  freed : Bool
  /-- The timers it has set that were neither cancelled nor fired. -/
  pending : List Nat
  nextId : Nat
  /-- How often the callback was called. -/
  calls : Nat
deriving DecidableEq

def elapsedTime (start finish : Nat) : Nat := (finish - start) / 1000

variable (config : DebouncerConfig)

namespace Debouncer

variable (bouncer : Debouncer)

/-- `hierarchical_timing_wheel_set_timer`, whose id is stored. -/
def setTimer : Debouncer :=
  { bouncer with
    timerId := bouncer.nextId
    pending := bouncer.nextId :: bouncer.pending
    nextId := bouncer.nextId + 1 }

/-- `hierarchical_timing_wheel_cancel_timer`, which passes over a timer that has fired. -/
def cancelTimer (timerId : Nat) : Debouncer :=
  { bouncer with pending := bouncer.pending.erase timerId }

def overdue (now : Nat) : Bool :=
  0 < config.maxWait && config.maxWait ≤ elapsedTime bouncer.intervalStart now

/-- `now` and `later` are the readings of `get_time`. -/
def debounce (now later : Nat) : Debouncer :=
  if !config.wheel then bouncer
  else if bouncer.timerId = 0 then
    if 0 < config.maxWait then { bouncer.setTimer with intervalStart := later }
    else bouncer.setTimer
  else if bouncer.overdue config now then { bouncer with intervalStart := later }.setTimer
  else (bouncer.cancelTimer bouncer.timerId).setTimer

def flush : Debouncer :=
  if config.wheel ∧ bouncer.timerId ≠ 0 then
    { bouncer.cancelTimer bouncer.timerId with timerId := 0, calls := bouncer.calls + 1 }
  else bouncer

def destroy : Debouncer := { bouncer.flush config with freed := true }

variable {config}

theorem debounce_timerId (hwheel : config.wheel) (now later : Nat) :
    (bouncer.debounce config now later).timerId = bouncer.nextId ∧
      (bouncer.debounce config now later).nextId = bouncer.nextId + 1 := by
  unfold debounce
  split_ifs <;> simp_all [setTimer, cancelTimer]

end Debouncer

inductive DebouncerAction where
  | debounce (now later : Nat)
  | flush
  | destroy
  | fire (timerId : Nat)
  /-- Someone else sets a timer on the wheel. -/
  | other

variable (bouncer : Debouncer)

/-- The clock is not set back: a negative time has no `uint64_t`. -/
def debouncerStep : DebouncerAction → Option Debouncer
  | .debounce now later =>
    if !bouncer.freed ∧ bouncer.intervalStart ≤ now then some (bouncer.debounce config now later)
    else none
  | .flush => if !bouncer.freed then some (bouncer.flush config) else none
  | .destroy => if !bouncer.freed then some (bouncer.destroy config) else none
  | .fire timerId =>
    if timerId ∈ bouncer.pending then
      some { bouncer.cancelTimer timerId with calls := bouncer.calls + 1 }
    else none
  | .other => some { bouncer with nextId := bouncer.nextId + 1 }

/-- At most one timer is pending. `debouncer_flush` and `debouncer_destroy` call the callback only
in place of a timer, and leave none. -/
def exactStep (a : DebouncerAction) : Bool :=
  (debouncerStep config bouncer a).all fun next =>
    decide (next.pending.length ≤ 1) &&
      match a with
      | .flush | .destroy =>
        decide ((bouncer.pending = [] → next.calls = bouncer.calls) ∧ next.pending = [])
      | _ => true

/-- The stored timer has not expired when the debouncer is flushed or destroyed, and has when
`debouncer_debounce` comes after `max_wait`. -/
def inTime (a : DebouncerAction) : Bool :=
  !config.wheel ||
    match a with
    | .debounce now _ => !bouncer.overdue config now || decide (bouncer.timerId ∉ bouncer.pending)
    | .flush | .destroy => bouncer.timerId == 0 || decide (bouncer.timerId ∈ bouncer.pending)
    | _ => true

def debouncerCreate (nextId : Nat) : Debouncer := ⟨0, 0, false, [], nextId + 1, 0⟩

/-- The stored timer is the only one that may be pending. -/
structure OneTimer : Prop where
  pending_cases : bouncer.pending = [] ∨
    config.wheel ∧ bouncer.pending = [bouncer.timerId] ∧ bouncer.timerId ≠ 0
  nextId_ne : bouncer.nextId ≠ 0

namespace OneTimer

open Debouncer

variable {config} {bouncer next : Debouncer} (h : OneTimer config bouncer)

include h

/-- One timer more than those that are not cancelled. -/
theorem debounce_pending (hwheel : config.wheel) (now later : Nat) :
    (bouncer.debounce config now later).pending =
      bouncer.nextId :: if bouncer.overdue config now then bouncer.pending else [] := by
  unfold debounce
  obtain hnil | ⟨-, hone, hne⟩ := h.pending_cases <;> split_ifs <;> simp_all [setTimer, cancelTimer]

/-- No timer outlives a flush. -/
theorem flush_pending : (bouncer.flush config).pending = [] := by
  unfold flush
  obtain hnil | ⟨hwheel, hone, hne⟩ := h.pending_cases <;> split_ifs <;> simp_all [cancelTimer]

theorem flush_nextId : (bouncer.flush config).nextId ≠ 0 := by
  unfold flush
  split_ifs <;> exact h.nextId_ne

theorem flush_calls : (bouncer.pending = [] → (bouncer.flush config).calls = bouncer.calls) ↔
      config.wheel → bouncer.timerId ≠ 0 → bouncer.timerId ∈ bouncer.pending := by
  unfold flush
  obtain hnil | ⟨hwheel, hone, hne⟩ := h.pending_cases <;> split_ifs <;> simp_all

theorem step {a : DebouncerAction} (hstep : debouncerStep config bouncer a = some next) :
    exactStep config bouncer a = inTime config bouncer a ∧
      (inTime config bouncer a → OneTimer config next) := by
  rw [exactStep, hstep, Option.all_some]
  have hcases := h.pending_cases
  cases a <;> simp only [debouncerStep, Option.ite_none_right_eq_some, Option.some.injEq] at hstep
  case debounce now later =>
    obtain ⟨-, rfl⟩ := hstep
    cases hwheel : config.wheel with
    | false =>
      have hnil := hcases.resolve_right (by simp [hwheel])
      simp [debounce, inTime, hwheel, hnil, h]
    | true =>
      have hpending := h.debounce_pending hwheel now later
      obtain ⟨hid, hnext⟩ := bouncer.debounce_timerId hwheel now later
      constructor
      · rw [hpending]
        rcases hcases with hnil | ⟨-, hone, -⟩ <;>
          cases hover : bouncer.overdue config now <;> simp [inTime, *]
      · refine fun hallowed => ⟨.inr ⟨hwheel, ?_, hid ▸ h.nextId_ne⟩, by simp [hnext]⟩
        rcases hcases with hnil | ⟨-, hone, -⟩ <;> simp_all [inTime]
  case flush =>
    obtain ⟨-, rfl⟩ := hstep
    exact ⟨by grind [inTime, h.flush_pending, h.flush_calls],
      fun _ => ⟨.inl h.flush_pending, h.flush_nextId⟩⟩
  case destroy =>
    obtain ⟨-, rfl⟩ := hstep
    exact ⟨by grind [inTime, destroy, h.flush_pending, h.flush_calls],
      fun _ => ⟨.inl h.flush_pending, h.flush_nextId⟩⟩
  case fire timerId =>
    obtain ⟨hmem, rfl⟩ := hstep
    obtain hnil | ⟨-, hone, -⟩ := hcases
    · simp [hnil] at hmem
    · have hnil : (bouncer.cancelTimer timerId).pending = [] := by simp_all [cancelTimer]
      exact ⟨by simp [inTime, hnil], fun _ => ⟨.inl hnil, h.nextId_ne⟩⟩
  case other =>
    subst hstep
    have hlength : bouncer.pending.length ≤ 1 := by
      obtain hnil | ⟨-, hone, -⟩ := hcases <;> simp [*]
    exact ⟨by simp [inTime, hlength], fun _ => ⟨hcases, Nat.succ_ne_zero _⟩⟩

end OneTimer

/-- Every step of a run is exact if and only if every step is in time. -/
theorem debouncer_runs_exact_iff (nextId : Nat) (actions : List DebouncerAction) :
    (perform (debouncerStep config) (exactStep config) (debouncerCreate nextId) actions).isSome ↔
      (perform (debouncerStep config) (inTime config) (debouncerCreate nextId) actions).isSome := by
  have hstart : OneTimer config (debouncerCreate nextId) := ⟨.inl rfl, Nat.succ_ne_zero nextId⟩
  rw [perform_congr (OneTimer config) (fun _ _ _ h => h.step) hstart]

/-- A timer fires and a flush calls the callback once more. A second timer is set after `max_wait`
while the first one is pending, which the flush then leaves. -/
theorem debouncer_runs_not_exact :
    let run (guard : Debouncer → DebouncerAction → Bool) :=
      perform (debouncerStep ⟨true, 100⟩) guard (debouncerCreate 0)
    let expired := [.debounce 0 0, .fire 1, .flush]
    let late := [.debounce 0 0, .debounce 100000 100000, .flush]
    (run always expired).map Debouncer.calls = some 2 ∧
      (run always late).map Debouncer.pending = some [1] ∧
      run (exactStep ⟨true, 100⟩) expired = none ∧ run (exactStep ⟨true, 100⟩) late = none := by
  decide

end WaveDB.Time
