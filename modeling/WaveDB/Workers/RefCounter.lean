import Mathlib.Algebra.GroupWithZero.Nat
import WaveDB.Basis.Runs

/-!
Reference counters (`RefCounter/refcounter.c`) and the release of a shared object
(`identifier_destroy`, `path_destroy`, `promise_destroy`, `work_destroy`, ...).

A release is two atomic steps: `refcounter_dereference`, then a read of the count that runs
the destructor if it is zero. `shareStep` interleaves the steps of any number of holders.

* While no release meets a pending yield, the count is the number of references in the hands
  of the holders plus the pending yields (`Counted.count`).
* Two holders whose releases overlap both read zero, a release absorbed by a pending yield
  leaves the count too high, and a reference absorbed by one leaves it too low.
-/

namespace WaveDB.Workers

open WaveDB.Basis

/-! ### The counter -/

/-- `refcounter_t`: a 16 bit count and an 8 bit number of yields. -/
structure RefCounter where
  count : UInt16
  yield : UInt8
deriving DecidableEq

def refcounterInit : RefCounter where
  count := 1
  yield := 0

variable (c : RefCounter)

def refcounterYield : RefCounter :=
  { c with yield := c.yield + 1 }

/-- `refcounter_reference`: a pending yield is consumed first. -/
def refcounterReference : RefCounter :=
  if 0 < c.yield then { c with yield := c.yield - 1 } else { c with count := c.count + 1 }

/-- `refcounter_dereference`: a pending yield is consumed first, a zero count stays. -/
def refcounterDereference : RefCounter :=
  if 0 < c.yield then { c with yield := c.yield - 1 }
  else if 0 < c.count then { c with count := c.count - 1 }
  else c

def refcounterCount : UInt16 := c.count

/-! ### The holders of one object -/

/-- A thread: the references it holds, and whether its release has done the first of its two
steps. -/
structure Holder where
  held : Nat
  releasing : Bool
deriving DecidableEq

/-- One object with its holders. `inFlight` references were yielded and wait for the thread
that consumes them. -/
structure SharedObject where
  counter : RefCounter
  holders : List Holder
  inFlight : Nat
  destroyed : Nat
deriving DecidableEq

/-- The creator holds the reference of `refcounter_init`; the other threads hold none yet. -/
def createShared (others : Nat) : SharedObject where
  counter := refcounterInit
  holders := ⟨1, false⟩ :: List.replicate others ⟨0, false⟩
  inFlight := 0
  destroyed := 0

inductive ShareAction where
  /-- The holder takes a further reference. -/
  | take (i : Nat)
  /-- The holder yields a reference. -/
  | yield (i : Nat)
  /-- The thread takes over a yielded reference. -/
  | consume (i : Nat)
  /-- First step of a release. -/
  | dereference (i : Nat)
  /-- Second step of a release. -/
  | test (i : Nat)
deriving DecidableEq

variable (s : SharedObject)

def shareStep : ShareAction → Option SharedObject
  | .take i =>
    match s.holders[i]? with
    | some ⟨held + 1, false⟩ =>
      some { s with
        counter := refcounterReference s.counter
        holders := s.holders.set i ⟨held + 2, false⟩ }
    | _ => none
  | .yield i =>
    match s.holders[i]? with
    | some ⟨held + 1, false⟩ =>
      some { s with
        counter := refcounterYield s.counter
        holders := s.holders.set i ⟨held, false⟩
        inFlight := s.inFlight + 1 }
    | _ => none
  | .consume i =>
    match s.holders[i]?, s.inFlight with
    | some ⟨held, false⟩, waiting + 1 =>
      some { s with
        counter := refcounterReference s.counter
        holders := s.holders.set i ⟨held + 1, false⟩
        inFlight := waiting }
    | _, _ => none
  | .dereference i =>
    match s.holders[i]? with
    | some ⟨held + 1, false⟩ =>
      some { s with
        counter := refcounterDereference s.counter
        holders := s.holders.set i ⟨held, true⟩ }
    | _ => none
  | .test i =>
    match s.holders[i]? with
    | some ⟨held, true⟩ =>
      some { s with
        holders := s.holders.set i ⟨held, false⟩
        destroyed := if refcounterCount s.counter = 0 then s.destroyed + 1 else s.destroyed }
    | _ => none

def SharedObject.held : Nat := (s.holders.map Holder.held).sum

def SharedObject.releasing : Nat :=
  (s.holders.map fun h => h.releasing.toNat).sum

/-- The destructor runs at most once and not while a reference is left, and it has run when the
last release is over. -/
structure DestroyedOnce : Prop where
  once : s.destroyed ≤ 1
  unheld : 0 < s.destroyed → s.held = 0 ∧ s.inFlight = 0
  done : s.held = 0 → s.inFlight = 0 → s.releasing = 0 → s.destroyed = 1

/-! ### Runs in which releases keep apart -/

/-- The counters do not wrap, no release meets a pending yield, and the last reference in a
holder's hands is given back with no reference in flight and no other release under way. -/
def releasesApart : ShareAction → Bool
  | .take _ | .consume _ => s.counter.count.toNat + 1 < 2 ^ 16
  | .yield _ => s.counter.yield.toNat + 1 < 2 ^ 8
  | .dereference _ =>
    s.counter.yield = 0 && (s.held ≠ 1 || s.inFlight = 0 && s.releasing = 0)
  | .test _ => true

structure Counted : Prop where
  count : s.counter.count.toNat = s.held + s.counter.yield.toNat
  yields : s.counter.yield.toNat ≤ s.inFlight
  waiting : s.held = 0 → s.counter.yield.toNat = 0 → s.inFlight = 0
  once : s.destroyed = 0 ∨ s.destroyed = 1 ∧ s.held = 0 ∧ s.inFlight = 0 ∧ s.releasing = 0
  last : s.held = 0 → s.inFlight = 0 → s.destroyed = 0 → s.releasing = 1

section

variable {c : RefCounter}

theorem refcounterReference_cases (hroom : c.count.toNat + 1 < 2 ^ 16) :
    (0 < c.yield.toNat ∧ (refcounterReference c).count.toNat = c.count.toNat ∧
      (refcounterReference c).yield.toNat + 1 = c.yield.toNat) ∨
    (c.yield.toNat = 0 ∧ (refcounterReference c).count.toNat = c.count.toNat + 1 ∧
      (refcounterReference c).yield.toNat = 0) := by
  rw [refcounterReference]
  split
  · rename_i hyield
    have hpos : 0 < c.yield.toNat := hyield
    have hone : (1 : UInt8) ≤ c.yield := hpos
    have hsub := UInt8.toNat_sub_of_le _ _ hone
    rw [UInt8.toNat_one] at hsub
    exact .inl ⟨hpos, rfl, by rw [hsub]; omega⟩
  · rename_i hyield
    have hzero : c.yield.toNat = 0 := Nat.eq_zero_of_not_pos hyield
    have hadd : (c.count + 1).toNat = c.count.toNat + 1 := by
      rw [UInt16.toNat_add, UInt16.toNat_one, Nat.mod_eq_of_lt hroom]
    exact .inr ⟨hzero, hadd, hzero⟩

theorem refcounterYield_toNat (hroom : c.yield.toNat + 1 < 2 ^ 8) :
    (refcounterYield c).yield.toNat = c.yield.toNat + 1 := by
  rw [refcounterYield, UInt8.toNat_add, UInt8.toNat_one, Nat.mod_eq_of_lt hroom]

/-- With no pending yield a release takes one off a count that is not zero. -/
theorem refcounterDereference_toNat (hyield : c.yield = 0) (hcount : 0 < c.count.toNat) :
    (refcounterDereference c).count.toNat + 1 = c.count.toNat ∧
      (refcounterDereference c).yield.toNat = 0 := by
  have hnone : ¬0 < c.yield := by
    rw [hyield]
    exact Nat.lt_irrefl 0
  have hone : (1 : UInt16) ≤ c.count := hcount
  have hsub := UInt16.toNat_sub_of_le _ _ hone
  rw [UInt16.toNat_one] at hsub
  rw [refcounterDereference, if_neg hnone, if_pos (show 0 < c.count from hcount)]
  exact ⟨by rw [hsub]; omega, congrArg UInt8.toNat hyield⟩

end

variable {s s' : SharedObject} {i : Nat}

theorem held_set {a b : Nat} {r t : Bool} (hi : s.holders[i]? = some ⟨a, r⟩) :
    ((s.holders.set i ⟨b, t⟩).map Holder.held).sum + a = s.held + b :=
  @sum_map_set _ _ _ Holder.held _ _ _ (⟨b, t⟩ : Holder) hi

/-- The releases under way after one holder has changed. -/
theorem releasing_set {a b : Nat} {r t : Bool} (hi : s.holders[i]? = some ⟨a, r⟩) :
    ((s.holders.set i ⟨b, t⟩).map fun h => h.releasing.toNat).sum + r.toNat =
      s.releasing + t.toNat :=
  @sum_map_set _ _ _ (fun h => h.releasing.toNat) _ _ _ (⟨b, t⟩ : Holder) hi

theorem counted_createShared (others : Nat) : Counted (createShared others) where
  count := by simp [createShared, SharedObject.held, refcounterInit]
  yields := Nat.le_refl 0
  waiting _ _ := rfl
  once := .inl rfl
  last h := by simp [createShared, SharedObject.held] at h

theorem le_held {a : Nat} {r : Bool} (hi : s.holders[i]? = some ⟨a, r⟩) : a ≤ s.held := by
  have h := @held_set s i a 0 r r hi
  omega

section Held

variable (hc : Counted s)

include hc

/-- A thread takes a reference: a further one, or one of those in flight. -/
theorem Counted.reference {a waiting : Nat} (hi : s.holders[i]? = some ⟨a, false⟩)
    (hroom : s.counter.count.toNat + 1 < 2 ^ 16)
    (hfrom : waiting = s.inFlight ∧ 0 < a ∨ waiting + 1 = s.inFlight) : Counted { s with
      counter := refcounterReference s.counter
      holders := s.holders.set i ⟨a + 1, false⟩
      inFlight := waiting } := by
  obtain ⟨hcount, hyields, hwaiting, honce, -⟩ := hc
  have hle := le_held hi
  have hheld := @held_set s i a (a + 1) false false hi
  have hcases := refcounterReference_cases hroom
  constructor
  all_goals simp only [SharedObject.held] at hheld hle hcount hwaiting honce ⊢
  all_goals omega

theorem Counted.yield {a : Nat} (hi : s.holders[i]? = some ⟨a + 1, false⟩)
    (hroom : s.counter.yield.toNat + 1 < 2 ^ 8) : Counted { s with
      counter := refcounterYield s.counter
      holders := s.holders.set i ⟨a, false⟩
      inFlight := s.inFlight + 1 } := by
  obtain ⟨hcount, hyields, -, honce, -⟩ := hc
  have hle := le_held hi
  have hheld := @held_set s i (a + 1) a false false hi
  have hyield := refcounterYield_toNat hroom
  have hsame : (refcounterYield s.counter).count = s.counter.count := rfl
  constructor
  all_goals simp only [SharedObject.held, hsame] at hheld hle hcount honce ⊢
  all_goals omega

theorem Counted.dereference {a : Nat} (hi : s.holders[i]? = some ⟨a + 1, false⟩)
    (hnone : s.counter.yield = 0) (hlast : s.held ≠ 1 ∨ s.inFlight = 0 ∧ s.releasing = 0) :
    Counted { s with
      counter := refcounterDereference s.counter
      holders := s.holders.set i ⟨a, true⟩ } := by
  obtain ⟨hcount, hyields, -, honce, -⟩ := hc
  have hle := le_held hi
  have hheld := @held_set s i (a + 1) a false true hi
  have hreleasing : _ + 0 = _ + 1 := @releasing_set s i (a + 1) a false true hi
  have hzero : s.counter.yield.toNat = 0 := congrArg UInt8.toNat hnone
  have hcounter := refcounterDereference_toNat hnone (by omega)
  constructor
  all_goals
    simp only [SharedObject.held, SharedObject.releasing]
      at hheld hreleasing hle hcount honce hlast ⊢
  all_goals omega

/-- A release reads zero exactly if no reference is left. -/
theorem Counted.count_eq_zero_iff :
    refcounterCount s.counter = 0 ↔ s.held = 0 ∧ s.inFlight = 0 := by
  have hcount := hc.count
  have hyields := hc.yields
  have hwaiting := hc.waiting
  rw [← UInt16.toNat_inj, refcounterCount, UInt16.toNat_zero]
  omega

theorem Counted.test {a : Nat} (hi : s.holders[i]? = some ⟨a, true⟩) : Counted { s with
      holders := s.holders.set i ⟨a, false⟩
      destroyed := if refcounterCount s.counter = 0 then s.destroyed + 1 else s.destroyed } := by
  have hzero := hc.count_eq_zero_iff
  obtain ⟨hcount, hyields, hwaiting, honce, hlast⟩ := hc
  have hheld := @held_set s i a a true false hi
  have hreleasing : _ + 1 = _ + 0 := @releasing_set s i a a true false hi
  constructor
  all_goals
    simp only [SharedObject.held, SharedObject.releasing, hzero]
      at hheld hreleasing hcount hwaiting honce hlast ⊢
  all_goals first | omega | (split <;> omega)

theorem counted_shareStep {action : ShareAction} (hallowed : releasesApart s action)
    (hstep : shareStep s action = some s') : Counted s' := by
  cases action with
  | take i =>
    rw [shareStep] at hstep
    split at hstep
    · rename_i held hi
      cases hstep
      exact hc.reference hi (of_decide_eq_true hallowed) (.inl ⟨rfl, Nat.succ_pos held⟩)
    · cases hstep
  | yield i =>
    rw [shareStep] at hstep
    split at hstep
    · rename_i hi
      cases hstep
      exact hc.yield hi (of_decide_eq_true hallowed)
    · cases hstep
  | consume i =>
    rw [shareStep] at hstep
    split at hstep
    · rename_i hi hwaiting
      cases hstep
      exact hc.reference hi (of_decide_eq_true hallowed) (.inr hwaiting.symm)
    · cases hstep
  | dereference i =>
    rw [shareStep] at hstep
    split at hstep
    · rename_i hi
      cases hstep
      simp only [releasesApart, Bool.and_eq_true, Bool.or_eq_true, decide_eq_true_eq] at hallowed
      exact hc.dereference hi hallowed.1 hallowed.2
    · cases hstep
  | test i =>
    rw [shareStep] at hstep
    split at hstep
    · rename_i hi
      cases hstep
      exact hc.test hi
    · cases hstep

theorem Counted.destroyedOnce : DestroyedOnce s := by
  obtain ⟨-, -, -, honce, hlast⟩ := hc
  constructor
  all_goals omega

end Held

/-- In a run whose releases keep apart the destructor runs exactly once, after the last
release. -/
theorem released_apart_destroys_once (others : Nat) {s : SharedObject}
    (hrun : Reaches shareStep releasesApart (createShared others) s) : DestroyedOnce s :=
  (hrun.invariant Counted (counted_createShared others)
    fun _ _ _ hc hallowed hstep => counted_shareStep hc hallowed hstep).destroyedOnce

/-- A holder shares its reference with a second thread, by a further reference and by a yield
that the second thread consumes; both release. -/
def sharedThenReleased : List ShareAction :=
  [.take 0, .yield 0, .consume 1, .dereference 1, .test 1, .dereference 0, .test 0]

theorem sharedThenReleased_destroys_once :
    ∃ s, Reaches shareStep releasesApart (createShared 1) s ∧ s.destroyed = 1 ∧
      DestroyedOnce s := by
  exact exists_reaches_and sharedThenReleased (by decide)
    fun s hs => released_apart_destroys_once 1 hs

def releasedTogether : List ShareAction :=
  [.take 0, .yield 0, .consume 1, .dereference 0, .dereference 1, .test 0, .test 1]

def releasedOntoYield : List ShareAction :=
  [.take 0, .yield 0, .dereference 0, .test 0, .consume 1, .dereference 1, .test 1]

def takenFromYield : List ShareAction :=
  [.take 0, .yield 0, .take 0, .dereference 0, .test 0, .dereference 0, .test 0]

/-- Overlapping releases run the destructor twice; a release onto a pending yield leaves it
undone for good; a reference that eats a yield lets it run with a reference in flight. -/
theorem releases_not_once :
    (∃ s, Reaches shareStep always (createShared 1) s ∧ s.destroyed = 2) ∧
    (∃ s, Reaches shareStep always (createShared 1) s ∧ s.held = 0 ∧ s.inFlight = 0 ∧
      s.releasing = 0 ∧ s.destroyed = 0) ∧
    ∃ s, Reaches shareStep always (createShared 1) s ∧ 0 < s.inFlight ∧ s.destroyed = 1 := by
  refine ⟨?_, ?_, ?_⟩
  · exact exists_reaches releasedTogether (by decide)
  · exact exists_reaches releasedOntoYield (by decide)
  · exact exists_reaches takenFromYield (by decide)

end WaveDB.Workers
