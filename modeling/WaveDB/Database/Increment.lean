import WaveDB.Basis.Decimal
import WaveDB.HBTrie.GcCutoff
import WaveDB.HBTrie.SnapshotRead

/-!
Concurrent counters (`database_increment_sync` in `Database/database.c`, the concurrent path).

A call reads the path at the last committed id, adds its delta, begins a transaction, inserts
the sum as decimal text under the shard lock and commits. `incrementStep` is one such step;
calls on one path interleave freely.
-/

namespace WaveDB.Database

open WaveDB.Basis Workers HBTrie List Option

/-! ### The system -/

def addInt64 (oldVal delta : Int) : Int := (oldVal + delta).bmod (2 ^ 64)

/-- `old_val`: what the value of the path reads as, 0 without one. -/
def counterValue (value : Option Bytes) : Int := value.elim 0 strtoll

inductive IncrementPoint where
  | computed
  | hasId (id : TransactionId)
  | registered (id : TransactionId)
  | applied (id : TransactionId)
  | returned (id : TransactionId)
deriving DecidableEq

/-- A call. `produced` records what the counter was right after its insert; no step reads it. -/
structure IncrementCall where
  delta : Int
  newVal : Int
  point : IncrementPoint
  produced : Option Int

structure IncrementState where
  mvcc : MvccState
  trie : HbtrieNode
  calls : List IncrementCall

inductive IncrementAction where
  | read (delta : Int)
  | takeId (i : Nat) (clock : ClockReading)
  | register (i : Nat)
  | apply (i : Nat)
  | commit (i : Nat)

def IncrementState.setCall (s : IncrementState) (i : Nat) (call : IncrementCall) : IncrementState :=
  { s with calls := s.calls.set i call }

section System

variable (cfg : Config) (load : Loader) (path : Path)

variable (s : IncrementState)

def IncrementState.counter : Int :=
  counterValue (hbtrieFind load s.trie path s.mvcc.manager.lastCommittedTxnId)

def IncrementState.newestCounter : Int :=
  counterValue (hbtrieFindUnsafe load s.trie path)

/-- One step of one call; `none` when the call cannot take it. The result of `hbtrie_insert` is
ignored. -/
def incrementStep : IncrementAction → Option IncrementState
  | .read delta =>
    some { s with
      trie := hbtrieFindAttach load s.trie (pathSteps path)
      calls := s.calls ++ [⟨delta, addInt64 (s.counter load path) delta, .computed, none⟩] }
  | .takeId i clock =>
    (s.calls[i]?).bind fun call =>
      match call.point with
      | .computed =>
        (mvccStep s.mvcc (.takeId clock)).map fun mvcc =>
          { s with mvcc }.setCall i
            { call with point := .hasId (transactionIdGetNext s.mvcc.generator clock).1 }
      | _ => none
  | .register i =>
    (s.calls[i]?).bind fun call =>
      match call.point with
      | .hasId id =>
        (mvccStep s.mvcc (.register id)).map fun mvcc =>
          { s with mvcc }.setCall i { call with point := .registered id }
      | _ => none
  | .apply i =>
    (s.calls[i]?).bind fun call =>
      match call.point with
      | .registered id =>
        let trie := (hbtrieInsert cfg load s.trie path (formatLld call.newVal) id).1
        some ({ s with trie }.setCall i
          { call with
            point := .applied id
            produced := some (counterValue (hbtrieFindUnsafe load trie path)) })
      | _ => none
  | .commit i =>
    (s.calls[i]?).bind fun call =>
      match call.point with
      | .applied id =>
        (mvccStep s.mvcc (.commit id)).map fun mvcc =>
          { s with mvcc }.setCall i { call with point := .returned id }
      | _ => none

/-- The value that the call read is still the newest one when it inserts, and the insert splits
no leaf at or below its separator. -/
def readIsNewest : IncrementAction → Bool
  | .apply i =>
    (s.calls[i]?).all fun call =>
      decide (call.newVal = addInt64 (s.newestCounter load path) call.delta) &&
        insertSplitsSafely cfg load s.trie (pathSteps path)
  | _ => true

end System

def IncrementCall.hasReturned (call : IncrementCall) : Bool :=
  match call.point with
  | .returned _ => true
  | _ => false

/-- Once all calls have returned the counter is the initial one plus all deltas, and each of
them returned what it produced. -/
structure IncrementsAddUp (load : Loader) (path : Path) (initial : Int) (s : IncrementState) :
    Prop where
  total : (∀ call ∈ s.calls, call.hasReturned = true) →
    s.counter load path = (initial + (s.calls.map IncrementCall.delta).sum).bmod (2 ^ 64)
  produced : ∀ call ∈ s.calls, call.hasReturned = true → call.produced = some call.newVal

/-! ### Values -/

theorem addInt64_range (a b : Int) : int64Min ≤ addInt64 a b ∧ addInt64 a b ≤ int64Max := by
  have hle : -(((2 ^ 64 : Nat) : Int) / 2) ≤ addInt64 a b := Int.le_bmod (by decide)
  have hlt : addInt64 a b < (((2 ^ 64 : Nat) : Int) + 1) / 2 := Int.bmod_lt (by decide)
  unfold int64Min int64Max
  omega

theorem counterValue_bmod (value : Option Bytes) :
    (counterValue value).bmod (2 ^ 64) = counterValue value := by
  have hrange : int64Min ≤ counterValue value ∧ counterValue value ≤ int64Max := by
    cases value with
    | none => decide
    | some bytes => exact strtoll_range bytes
  unfold int64Min int64Max at hrange
  apply Int.bmod_eq_of_le <;> omega

/-! ### Runs -/

def IncrementCall.appliedDelta (call : IncrementCall) : Int :=
  match call.point with
  | .applied _ => call.delta
  | .returned _ => call.delta
  | _ => 0

/-- The newest value is the initial one plus the deltas of all inserts so far, and its id is
committed or that of a call about to commit. -/
structure CounterInv (load : Loader) (path : Path) (initial : Int) (s : IncrementState) : Prop where
  trie : TrieOk load s.trie
  total : s.newestCounter load path =
    (initial + (s.calls.map IncrementCall.appliedDelta).sum).bmod (2 ^ 64)
  head : ∀ v older, contentAt load s.trie (pathChunks path) = some (.versions (v :: older)) →
    v.txnId ≤ s.mvcc.manager.lastCommittedTxnId ∨ ∃ call ∈ s.calls, call.point = .applied v.txnId
  produced : ∀ call ∈ s.calls, ∀ id, call.point = .applied id ∨ call.point = .returned id →
    call.produced = some call.newVal

section Runs

variable {cfg : Config} {load : Loader} {path : Path} {initial : Int} {s s' : IncrementState}
  {i : Nat} {call : IncrementCall}

theorem CounterInv.addUp (hvalid : ValidPath path) (h : CounterInv load path initial s) :
    IncrementsAddUp load path initial s := by
  constructor
  · intro hdone
    have hdeltas : s.calls.map IncrementCall.appliedDelta = s.calls.map IncrementCall.delta := by
      refine map_congr_left fun call hcall => ?_
      have hreturned := hdone call hcall
      unfold IncrementCall.hasReturned at hreturned
      unfold IncrementCall.appliedDelta
      split at hreturned
      · next hpoint => rw [hpoint]
      · cases hreturned
    have hnewest : s.counter load path = s.newestCounter load path := by
      rw [IncrementState.newestCounter, hbtrieFindUnsafe_eq load _ hvalid]
      refine congrArg counterValue (hbtrieFind_eq_newestAt hvalid fun v older hcontent => ?_)
      refine (h.head v older hcontent).resolve_right ?_
      rintro ⟨call, hcall, hpoint⟩
      have hreturned := hdone call hcall
      rw [IncrementCall.hasReturned, hpoint] at hreturned
      cases hreturned
    rw [hnewest, h.total, hdeltas]
  · intro call hcall hreturned
    unfold IncrementCall.hasReturned at hreturned
    split at hreturned
    · next id hpoint => exact h.produced call hcall id (.inr hpoint)
    · cases hreturned

theorem CounterInv.move {mvcc : MvccState} {point : IncrementPoint}
    (h : CounterInv load path initial s) (hcall : s.calls[i]? = some call)
    (hcommitted : s.mvcc.manager.lastCommittedTxnId ≤ mvcc.manager.lastCommittedTxnId)
    (hdelta : IncrementCall.appliedDelta { call with point } = call.appliedDelta)
    (happlied : ∀ id, call.point = .applied id → id ≤ mvcc.manager.lastCommittedTxnId)
    (hpoint : ∀ id, point ≠ .applied id)
    (hreturned : ∀ id, point = .returned id → call.produced = some call.newVal) :
    CounterInv load path initial ({ s with mvcc }.setCall i { call with point }) := by
  refine ⟨h.trie, ?_, fun v older hcontent => ?_, fun c hc id hid => ?_⟩
  · have hsum := sum_map_set IncrementCall.appliedDelta hcall (y := { call with point })
    have htotal : s.newestCounter load path = _ := h.total
    rw [hdelta] at hsum
    simp only [IncrementState.setCall]
    rw [add_right_cancel hsum]
    exact htotal
  · rcases h.head v older hcontent with hle | ⟨c, hc, hid⟩
    · exact .inl (hle.trans hcommitted)
    · rcases eq_or_mem_set hcall hc with rfl | hc
      · exact .inl (happlied _ hid)
      · exact .inr ⟨c, hc, hid⟩
  · rcases mem_or_eq_of_mem_set hc with hc | rfl
    · exact h.produced c hc id hid
    · rcases hid with hid | hid
      · exact absurd hid (hpoint id)
      · exact hreturned id hid

theorem CounterInv.read {delta : Int} (hvalid : ValidPath path) (h : CounterInv load path initial s)
    (hs : incrementStep cfg load path s (.read delta) = some s') :
    CounterInv load path initial s' := by
  obtain rfl := some.inj hs
  obtain ⟨htrie, hcontent⟩ := @hbtrieFindAttach_spec (pathSteps path) load s.trie h.trie
  refine ⟨htrie, ?_, fun v older hstored => ?_, fun c hc id hid => ?_⟩
  · have htotal := h.total
    simp only [IncrementState.newestCounter, hbtrieFindUnsafe_eq load _ hvalid] at htotal ⊢
    rw [hcontent, htotal]
    simp [IncrementCall.appliedDelta]
  · rw [hcontent] at hstored
    refine (h.head v older hstored).imp_right ?_
    rintro ⟨c, hc, hid⟩
    exact ⟨c, mem_append_left _ hc, hid⟩
  · rcases mem_append.mp hc with hc | hc
    · exact h.produced c hc id hid
    · rw [mem_singleton.mp hc] at hid
      rcases hid with hid | hid <;> cases hid

variable (hvalid : ValidPath path) (haccepted : pathAccepted cfg path = true)
  (h : CounterInv load path initial s)

include hvalid haccepted h

theorem CounterInv.apply {id : TransactionId} (hcall : s.calls[i]? = some call)
    (hpoint : call.point = .registered id) (hallowed : readIsNewest cfg load path s (.apply i))
    (hs : incrementStep cfg load path s (.apply i) = some s') :
    CounterInv load path initial s' := by
  rw [readIsNewest, hcall, all_some, Bool.and_eq_true, decide_eq_true_eq] at hallowed
  obtain ⟨hnewest, hsafe⟩ := hallowed
  obtain ⟨htrie, haccept, hcontent⟩ :=
    @hbtrieInsert_effect cfg load s.trie path (formatLld call.newVal) id h.trie hvalid hsafe
  rw [stepsAccepted_pathSteps, haccepted] at haccept
  have hstored := hcontent (pathChunks path)
  rw [if_pos ⟨haccept, (stepChunks_pathSteps path).symm⟩] at hstored
  have hvalue : hbtrieFindUnsafe load
      (hbtrieInsert cfg load s.trie path (formatLld call.newVal) id).1 path =
        some (formatLld call.newVal) := by
    rw [hbtrieFindUnsafe_eq load _ hvalid, hstored, bind_some]
    cases contentAt load s.trie (pathChunks path) <;> rfl
  have hcounter : counterValue (some (formatLld call.newVal)) = call.newVal := by
    rw [hnewest]
    exact strtoll_formatLld (addInt64_range _ _).1 (addInt64_range _ _).2
  simp only [incrementStep, hcall, bind_some, hpoint, some.injEq] at hs
  subst hs
  refine ⟨htrie, ?_, fun v older hhead => .inr ?_, fun c hc id' hid => ?_⟩
  · have hsum := sum_map_set IncrementCall.appliedDelta hcall
      (y := { call with point := .applied id, produced := some call.newVal })
    have hbefore : call.appliedDelta = 0 := by rw [IncrementCall.appliedDelta, hpoint]
    simp only [IncrementState.newestCounter, IncrementState.setCall, hvalue, hcounter]
    rw [hbefore, add_zero] at hsum
    rw [hsum, hnewest, h.total, addInt64, Int.bmod_add_bmod, add_assoc]
    rfl
  · change contentAt load (hbtrieInsert cfg load s.trie path (formatLld call.newVal) id).1
      (pathChunks path) = some (.versions (v :: older)) at hhead
    rw [hstored] at hhead
    have hid : v.txnId = id := by
      cases hold : contentAt load s.trie (pathChunks path) with
      | none =>
        rw [hold] at hhead
        cases hhead
      | some content =>
        rw [hold] at hhead
        cases hhead
        rfl
    refine ⟨_, mem_of_getElem? (i := i) (getElem?_set_self ?_), ?_⟩
    · exact (List.getElem?_eq_some_iff.mp hcall).1
    · rw [hid]
  · rcases mem_or_eq_of_mem_set hc with hc | rfl
    · exact h.produced c hc id' hid
    · simp only [hvalue, hcounter]

theorem CounterInv.step {a : IncrementAction} (hallowed : readIsNewest cfg load path s a)
    (hs : incrementStep cfg load path s a = some s') : CounterInv load path initial s' := by
  cases a with
  | read delta => exact h.read hvalid hs
  | takeId i clock | register i =>
    obtain ⟨call, hcall, hs⟩ := bind_eq_some_iff.mp hs
    split at hs
    · rename_i hpoint
      obtain ⟨mvcc, hmvcc, rfl⟩ := map_eq_some_iff.mp hs
      have hle := mvccStep_lastCommitted hmvcc
      refine h.move hcall hle ?_ (fun id hid => ?_) (fun _ => nofun) fun _ => nofun
      · rw [IncrementCall.appliedDelta, IncrementCall.appliedDelta, hpoint]
      · rw [hpoint] at hid
        cases hid
    · cases hs
  | apply i =>
    obtain ⟨call, hcall, hcases⟩ := bind_eq_some_iff.mp hs
    split at hcases
    · next id hpoint => exact h.apply hvalid haccepted hcall hpoint hallowed hs
    · cases hcases
  | commit i =>
    obtain ⟨call, hcall, hs⟩ := bind_eq_some_iff.mp hs
    split at hs
    · rename_i id hpoint
      obtain ⟨mvcc, hmvcc, rfl⟩ := map_eq_some_iff.mp hs
      obtain ⟨-, ⟨⟩⟩ := ite_none_right_eq_some.mp hmvcc
      obtain ⟨hle, hid⟩ := le_raiseLastCommitted s.mvcc.manager id
      refine h.move hcall hle ?_ (fun id' hid' => ?_) (fun _ => nofun) fun id' _ => ?_
      · rw [IncrementCall.appliedDelta, IncrementCall.appliedDelta, hpoint]
      · rw [hpoint] at hid'
        cases hid'
        exact hid
      · exact h.produced call (mem_of_getElem? hcall) id (.inl hpoint)
    · cases hs

end Runs

/-- The value at the path is committed: no other writer is at work. -/
def Settled (load : Loader) (path : Path) (mvcc : MvccState) (trie : HbtrieNode) : Prop :=
  ∀ v older, contentAt load trie (pathChunks path) = some (.versions (v :: older)) →
    v.txnId ≤ mvcc.manager.lastCommittedTxnId

/-- If every call inserts while the value it read is still the newest, no delta is lost. -/
theorem increments_add_up (cfg : Config) (load : Loader) (path : Path) (hvalid : ValidPath path)
    (haccepted : pathAccepted cfg path = true) (mvcc : MvccState) (trie : HbtrieNode)
    (htrie : TrieOk load trie) (hsettled : Settled load path mvcc trie) (s : IncrementState)
    (h : Reaches (incrementStep cfg load path) (readIsNewest cfg load path) ⟨mvcc, trie, []⟩ s) :
    IncrementsAddUp load path
      (counterValue (hbtrieFind load trie path mvcc.manager.lastCommittedTxnId)) s := by
  have hnewest : hbtrieFindUnsafe load trie path =
      hbtrieFind load trie path mvcc.manager.lastCommittedTxnId := by
    rw [hbtrieFind_eq_newestAt hvalid hsettled, hbtrieFindUnsafe_eq load _ hvalid]
    rfl
  have hstart : CounterInv load path
      (counterValue (hbtrieFind load trie path mvcc.manager.lastCommittedTxnId))
        ⟨mvcc, trie, []⟩ := by
    refine ⟨htrie, ?_, fun v older hcontent => .inl (hsettled v older hcontent),
      fun c hc => absurd hc not_mem_nil⟩
    rw [IncrementState.newestCounter, hnewest, map_nil, sum_nil, add_zero, counterValue_bmod]
  exact (h.invariant _ hstart fun _ _ _ hinv => hinv.step hvalid haccepted).addUp hvalid

def incrementsInTurn : List IncrementAction :=
  [.read 5, .takeId 0 stoppedClock, .register 0, .apply 0, .commit 0,
    .read 7, .takeId 1 stoppedClock, .register 1, .apply 1, .commit 1]

def incrementsAtOnce : List IncrementAction :=
  [.read 5, .read 7, .takeId 0 stoppedClock, .register 0, .apply 0, .commit 0,
    .takeId 1 stoppedClock, .register 1, .apply 1, .commit 1]

def noIncrements : IncrementState := ⟨.initial firstId, hbtrieNodeCreate, []⟩

def endsWith (returned : List Int) (counter : Int) (s : IncrementState) : Bool :=
  s.calls.all IncrementCall.hasReturned && decide (s.calls.map IncrementCall.newVal = returned) &&
    decide (s.counter noLoader (bytePath 1) = counter)

theorem increments_add_up_in_turn : ∃ s, Reaches (incrementStep defaultConfig noLoader (bytePath 1))
        (readIsNewest defaultConfig noLoader (bytePath 1)) noIncrements s ∧
      endsWith [5, 12] 12 s = true ∧ IncrementsAddUp noLoader (bytePath 1) 0 s := by
  have hsettled : Settled noLoader (bytePath 1) (.initial firstId) hbtrieNodeCreate := by
    intro v older hcontent
    cases hcontent
  exact exists_reaches_and incrementsInTurn (by decide +kernel)
    (increments_add_up defaultConfig noLoader (bytePath 1) (by decide) (by decide)
      (.initial firstId) hbtrieNodeCreate (.create noLoader) hsettled)

/-- The second call overwrites the first: 5 and 7 make 7. -/
theorem increment_lost :
    ∃ s, Reaches (incrementStep defaultConfig noLoader (bytePath 1)) always noIncrements s ∧
      s.calls.map IncrementCall.delta = [5, 7] ∧ endsWith [5, 7] 7 s = true := by
  exact exists_reaches incrementsAtOnce (by decide +kernel)

end WaveDB.Database
