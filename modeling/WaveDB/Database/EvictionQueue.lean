import Mathlib.Logic.Function.Basic
import WaveDB.Basis.Runs

/-!
The ring of evicted offsets (`Database/eviction_queue.c`), step by step.

`head` and `tail` are loaded and stored without a lock. A push that loaded the tail before another
one stored its own takes the same slot, so offsets can be lost; with one push and one drain at a
time the ring is a queue (`RingOk`).
-/

namespace WaveDB.Database

open WaveDB.Basis List

def evictionQueueCapacity : UInt64 := 256

/-- A call of `eviction_queue_push` that has loaded the tail, that has also loaded the head and
found room, or that has stored the offset too. -/
inductive PushCall where
  | loaded (offset tail : UInt64)
  | admitted (offset tail : UInt64)
  | stored (offset tail : UInt64)

/-- A call of `eviction_queue_drain` that has loaded the head, the tail too, or copied. -/
inductive DrainCall where
  | atHead (max : Nat) (head : UInt64)
  | atTail (max : Nat) (head tail : UInt64)
  | copied (head : UInt64) (out : List UInt64)

/-- `eviction_queue_t` and the calls at work. `accepted` are the offsets whose push returned 0 and
`returned` what the drains returned; no step reads them. -/
structure EvictionQueue where
  head : UInt64
  tail : UInt64
  offsets : Nat → UInt64
  pushing : List PushCall
  draining : List DrainCall
  accepted : List UInt64
  returned : List (List UInt64)

def evictionQueueInit : EvictionQueue := ⟨0, 0, fun _ => 0, [], [], [], []⟩

def slotOf (index : UInt64) : Nat := (index % evictionQueueCapacity).toNat

variable (s : EvictionQueue)

def EvictionQueue.copyOut (head : UInt64) (count : Nat) : List UInt64 :=
  (range count).map fun i => s.offsets (slotOf (head + .ofNat i))

def EvictionQueue.push (i : Nat) : PushCall → EvictionQueue
  | .loaded offset tail =>
    { s with
      pushing := if evictionQueueCapacity ≤ tail - s.head then s.pushing.eraseIdx i
        else s.pushing.set i (.admitted offset tail) }
  | .admitted offset tail =>
    { s with
      offsets := Function.update s.offsets (slotOf tail) offset
      pushing := s.pushing.set i (.stored offset tail) }
  | .stored offset tail =>
    { s with
      tail := tail + 1
      pushing := s.pushing.eraseIdx i
      accepted := s.accepted ++ [offset] }

def EvictionQueue.drain (i : Nat) : DrainCall → EvictionQueue
  | .atHead max head => { s with draining := s.draining.set i (.atTail max head s.tail) }
  | .atTail max head tail =>
    { s with
      draining := s.draining.set i (.copied head (s.copyOut head (min (tail - head).toNat max))) }
  | .copied head out =>
    { s with
      head := head + .ofNat out.length
      draining := s.draining.eraseIdx i
      returned := s.returned ++ [out] }

/-- `beginPush` loads the tail and `beginDrain` the head. -/
inductive RingAction where
  | beginPush (offset : UInt64)
  | push (i : Nat)
  | beginDrain (max : Nat)
  | drain (i : Nat)

def ringStep : RingAction → Option EvictionQueue
  | .beginPush offset => some { s with pushing := s.pushing ++ [.loaded offset s.tail] }
  | .push i => (s.pushing[i]?).map (s.push i)
  | .beginDrain max => some { s with draining := s.draining ++ [.atHead max s.head] }
  | .drain i => (s.draining[i]?).map (s.drain i)

def oneAtATime : RingAction → Bool
  | .beginPush _ => s.pushing.isEmpty
  | .beginDrain _ => s.draining.isEmpty
  | _ => true

def EvictionQueue.queued : List UInt64 :=
  s.copyOut s.head (s.tail - s.head).toNat

/-- Each accepted offset was returned once or is still in the ring, and a drain returns the oldest
ones there. -/
structure EvictionQueue.Delivers : Prop where
  once : s.accepted = s.returned.flatten ++ s.queued
  next : ∀ max, s.draining = [] → ∃ s', perform ringStep oneAtATime s
      [.beginDrain max, .drain 0, .drain 0, .drain 0] = some s' ∧
    s'.returned = s.returned ++ [s.queued.take max]

/-! ### One push and one drain at a time -/

/-- What holds of a push at work after `taken` offsets were returned. -/
def PushCall.Ok (taken : Nat) : PushCall → Prop
  | .loaded _ tail => tail = s.tail
  | .admitted _ tail => tail = s.tail ∧ s.accepted.length < taken + 256
  | .stored offset tail => tail = s.tail ∧ s.accepted.length < taken + 256 ∧
    s.offsets (s.accepted.length % 256) = offset

def DrainCall.Ok (taken : Nat) : DrainCall → Prop
  | .atHead _ head => head = s.head
  | .atTail _ head tail => head = s.head ∧
    ∃ n, taken ≤ n ∧ n ≤ s.accepted.length ∧ tail = .ofNat n
  | .copied head out => head = s.head ∧ out <+: s.accepted.drop taken

/-- `head` and `tail` count the returned and the accepted offsets, modulo `2 ^ 64`. -/
structure RingOk (taken : Nat) : Prop where
  head : s.head = .ofNat taken
  tail : s.tail = .ofNat s.accepted.length
  within : taken ≤ s.accepted.length
  room : s.accepted.length ≤ taken + 256
  returned : s.returned.flatten = s.accepted.take taken
  slots : ∀ k, taken ≤ k → k < s.accepted.length → s.accepted[k]? = some (s.offsets (k % 256))
  pushing : s.pushing = [] ∨ ∃ call, s.pushing = [call] ∧ call.Ok s taken
  draining : s.draining = [] ∨ ∃ call, s.draining = [call] ∧ call.Ok s taken

section Ring

variable {s s' : EvictionQueue} {taken i : Nat}

theorem slotOf_ofNat (k : Nat) : slotOf (.ofNat k) = k % 256 := by
  have hcapacity : evictionQueueCapacity.toNat = 256 := rfl
  rw [slotOf, UInt64.toNat_mod, UInt64.toNat_ofNat', hcapacity]
  omega

/-- The difference of the counters is that of the numbers they stand for. -/
theorem toNat_ofNat_sub {m n : Nat} (hle : m ≤ n) (hnear : n ≤ m + 256) :
    (UInt64.ofNat n - UInt64.ofNat m).toNat = n - m := by
  rw [UInt64.toNat_sub, UInt64.toNat_ofNat', UInt64.toNat_ofNat']
  omega

theorem copyOut_take (head : UInt64) (count max : Nat) :
    (s.copyOut head count).take max = s.copyOut head (min count max) := by
  rw [EvictionQueue.copyOut, ← map_take, take_range, Nat.min_comm]
  rfl

theorem RingOk.copyOut_eq (h : RingOk s taken) {n : Nat} (hle : n ≤ s.accepted.length - taken) :
    s.copyOut (.ofNat taken) n = (s.accepted.drop taken).take n := by
  refine ext_getElem? fun i => ?_
  rw [EvictionQueue.copyOut, getElem?_map]
  by_cases hi : i < n
  · have hslot := h.slots (taken + i) (Nat.le_add_right _ _) (by omega)
    rw [getElem?_range hi, Option.map_some, ← UInt64.ofNat_add, slotOf_ofNat, ← hslot,
      getElem?_take_of_lt hi, getElem?_drop]
  · rw [getElem?_eq_none (by simpa using hi), Option.map_none, getElem?_eq_none]
    rw [length_take]
    omega

theorem call_at_work {α : Type} {calls : List α} {ok : α → Prop} {call : α}
    (h : calls = [] ∨ ∃ call, calls = [call] ∧ ok call) (hcall : calls[i]? = some call) :
    i = 0 ∧ calls = [call] ∧ ok call := by
  rcases h with rfl | ⟨call', rfl, hok⟩
  · cases hcall
  · obtain ⟨hi, heq⟩ := List.getElem?_eq_some_iff.mp hcall
    obtain rfl : i = 0 := Nat.lt_one_iff.mp hi
    cases heq
    exact ⟨rfl, rfl, hok⟩

theorem RingOk.push {call : PushCall} (h : RingOk s taken) (hcall : s.pushing[i]? = some call) :
    RingOk (s.push i call) taken := by
  have hwithin := h.within
  obtain ⟨rfl, hpushing, hok⟩ := call_at_work h.pushing hcall
  cases call with
  | loaded offset tail =>
    refine ⟨h.head, h.tail, h.within, h.room, h.returned, h.slots, ?_, h.draining⟩
    simp only [EvictionQueue.push, hpushing]
    split
    · exact .inl rfl
    · rename_i hfree
      rw [UInt64.not_le, UInt64.lt_iff_toNat_lt, show tail = s.tail from hok, h.tail, h.head,
        toNat_ofNat_sub hwithin h.room] at hfree
      exact .inr ⟨_, rfl, hok, (Nat.sub_lt_iff_lt_add' hwithin).mp hfree⟩
  | admitted offset tail =>
    obtain ⟨htail, hfree⟩ := hok
    have hslot : slotOf tail = s.accepted.length % 256 := by rw [htail, h.tail, slotOf_ofNat]
    refine ⟨h.head, h.tail, h.within, h.room, h.returned, fun k hk hlt => ?_, ?_, h.draining⟩
    · change k < s.accepted.length at hlt
      have hne : k % 256 ≠ s.accepted.length % 256 := by omega
      simp only [EvictionQueue.push, hslot, Function.update_of_ne hne]
      exact h.slots k hk hlt
    · simp only [EvictionQueue.push, hpushing, hslot]
      exact .inr ⟨_, rfl, htail, hfree, Function.update_self ..⟩
  | stored offset tail =>
    obtain ⟨htail, hfree, hslot⟩ := hok
    have hlength : (s.accepted ++ [offset]).length = s.accepted.length + 1 := length_append
    refine ⟨h.head, ?_, ?_, ?_, ?_, fun k hk => ?_, ?_, ?_⟩ <;>
      simp only [EvictionQueue.push, hlength]
    · rw [htail, h.tail, UInt64.ofNat_add]
      rfl
    · omega
    · omega
    · rw [h.returned, take_append_of_le_length hwithin]
    · intro hlt
      rcases Nat.lt_or_ge k s.accepted.length with hold | hnew
      · rw [getElem?_append_left hold]
        exact h.slots k hk hold
      · obtain rfl : k = s.accepted.length := by omega
        simp [hslot]
    · exact .inl (by rw [hpushing]; rfl)
    · refine h.draining.imp_right ?_
      rintro ⟨call, hdraining, hok⟩
      refine ⟨call, hdraining, ?_⟩
      cases call with
      | atHead max head => exact hok
      | atTail max head tail =>
        obtain ⟨hhead, n, hle, hn, rfl⟩ := hok
        exact ⟨hhead, n, hle, by rw [hlength]; omega, rfl⟩
      | copied head out =>
        refine ⟨hok.1, ?_⟩
        simp only [drop_append_of_le_length hwithin]
        exact hok.2.trans (prefix_append _ _)

theorem RingOk.drain {call : DrainCall} (h : RingOk s taken) (hcall : s.draining[i]? = some call) :
    ∃ taken', RingOk (s.drain i call) taken' := by
  have hwithin := h.within
  have hroom := h.room
  obtain ⟨rfl, hdraining, hok⟩ := call_at_work h.draining hcall
  cases call with
  | atHead max head =>
    refine ⟨taken, h.head, h.tail, h.within, h.room, h.returned, h.slots, h.pushing, ?_⟩
    simp only [EvictionQueue.drain, hdraining]
    exact .inr ⟨_, rfl, hok, _, h.within, Nat.le_refl _, h.tail⟩
  | atTail max head tail =>
    obtain ⟨hhead, n, hle, hn, rfl⟩ := hok
    refine ⟨taken, h.head, h.tail, h.within, h.room, h.returned, h.slots, h.pushing, ?_⟩
    simp only [EvictionQueue.drain, hdraining]
    refine .inr ⟨_, rfl, hhead, ?_⟩
    rw [hhead, h.head, toNat_ofNat_sub hle (by omega), h.copyOut_eq (by omega)]
    exact take_prefix _ _
  | copied head out =>
    obtain ⟨hhead, rest, hout⟩ := hok
    have hlength : out.length + rest.length = s.accepted.length - taken := by
      rw [← length_append, hout, length_drop]
    have hmore : taken + 256 ≤ taken + out.length + 256 := by omega
    refine ⟨taken + out.length, ?_, h.tail, by simp only [EvictionQueue.drain]; omega,
      Nat.le_trans hroom hmore, ?_, fun k hk => h.slots k (by omega), ?_, ?_⟩ <;>
      simp only [EvictionQueue.drain]
    · rw [hhead, h.head, UInt64.ofNat_add]
    · rw [flatten_append, flatten_singleton, h.returned, take_add, ← hout, take_left]
    · refine h.pushing.imp_right ?_
      rintro ⟨call, hpushing, hok⟩
      refine ⟨call, hpushing, ?_⟩
      cases call with
      | loaded offset tail => exact hok
      | admitted offset tail => exact ⟨hok.1, Nat.lt_of_lt_of_le hok.2 hmore⟩
      | stored offset tail => exact ⟨hok.1, Nat.lt_of_lt_of_le hok.2.1 hmore, hok.2.2⟩
    · exact .inl (by rw [hdraining]; rfl)

theorem RingOk.step {a : RingAction} (h : RingOk s taken) (hallowed : oneAtATime s a)
    (hs : ringStep s a = some s') : ∃ taken', RingOk s' taken' := by
  cases a with
  | beginPush offset =>
    cases hs
    refine ⟨taken, h.head, h.tail, h.within, h.room, h.returned, h.slots, ?_, h.draining⟩
    simp only [show s.pushing = [] from isEmpty_iff.mp hallowed]
    exact .inr ⟨_, rfl, rfl⟩
  | push i =>
    obtain ⟨call, hcall, rfl⟩ := Option.map_eq_some_iff.mp hs
    exact ⟨taken, h.push hcall⟩
  | beginDrain max =>
    cases hs
    refine ⟨taken, h.head, h.tail, h.within, h.room, h.returned, h.slots, h.pushing, ?_⟩
    simp only [show s.draining = [] from isEmpty_iff.mp hallowed]
    exact .inr ⟨_, rfl, rfl⟩
  | drain i =>
    obtain ⟨call, hcall, rfl⟩ := Option.map_eq_some_iff.mp hs
    exact h.drain hcall

end Ring

/-- With one push and one drain at a time no accepted offset is lost or returned twice. -/
theorem eviction_queue_delivers (s : EvictionQueue)
    (hs : Reaches ringStep oneAtATime evictionQueueInit s) : s.Delivers := by
  obtain ⟨taken, h⟩ : ∃ taken, RingOk s taken := by
    refine hs.invariant (fun s => ∃ taken, RingOk s taken) ?_ ?_
    · exact ⟨0, rfl, rfl, Nat.le_refl _, Nat.zero_le _, rfl, nofun, .inl rfl, .inl rfl⟩
    · rintro s a s' ⟨taken, h⟩ hallowed hstep
      exact h.step hallowed hstep
  constructor
  · rw [h.returned, EvictionQueue.queued, h.head, h.tail, toNat_ofNat_sub h.within h.room,
      h.copyOut_eq (Nat.le_refl _), ← length_drop, take_length, take_append_drop]
  · intro max hnone
    obtain ⟨head, tail, offsets, pushing, draining, accepted, returned⟩ := s
    obtain rfl : draining = [] := hnone
    refine ⟨_, rfl, ?_⟩
    rw [EvictionQueue.queued, copyOut_take]
    rfl

theorem eviction_queue_delivers_in_turn : ∃ s, Reaches ringStep oneAtATime evictionQueueInit s ∧
      (s.accepted = [8192, 12288] ∧ s.returned = [[8192]]) ∧ s.Delivers :=
  exists_reaches_and [.beginPush 8192, .beginDrain 64, .push 0, .push 0, .push 0, .drain 0,
    .beginPush 12288, .drain 0, .push 0, .push 0, .drain 0, .push 0] (by decide +kernel)
    eviction_queue_delivers

/-- Two pushes take the same slot; both return 0, and one of the offsets is gone. -/
theorem eviction_queue_loses_offset :
    ∃ s, Reaches ringStep always evictionQueueInit s ∧ s.accepted = [8192, 12288] ∧
      s.returned = [[12288]] ∧ s.queued = [] ∧ s.pushing.length = 0 ∧ s.draining.length = 0 :=
  exists_reaches [.beginPush 8192, .beginPush 12288, .push 0, .push 1, .push 0, .push 1, .push 0,
    .push 0, .beginDrain 64, .drain 0, .drain 0, .drain 0] (by decide +kernel)

end WaveDB.Database
