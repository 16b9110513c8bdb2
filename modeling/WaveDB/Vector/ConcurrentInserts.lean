import WaveDB.Vector.Count

/-!
Inserts that run at the same time (`vector_layer_insert` in `Layers/vector/vector_layer.c`).

The workers of the pool take no lock around an insert: it reads the count, and writes later what it
has read plus one.
-/

namespace WaveDB.Vector

open WaveDB.Basis HBTrie Database List Option

/-! ### Steps -/

/-- What an insert is called with; `bucket` as for `VectorCall.insert`. -/
structure InsertArgs where
  id : Bytes
  vec : Bytes
  metadata : Bytes
  bucket : Bytes

/-- Where an insert is. A flat one puts its vector before it reads the count. -/
inductive InsertPoint where
  | start
  | stored
  | counted (count : Nat)
  | done
deriving DecidableEq

def InsertPoint.isCounted : InsertPoint → Bool
  | .counted _ => true
  | _ => false

structure InsertsState where
  store : Store
  points : List InsertPoint

section Steps

variable (cs : ChunkSize) (vl : VectorLayer) (indexType : IndexType) (args : List InsertArgs)

def putVector (store : Store) (a : InsertArgs) : Store :=
  Function.update store (vl.vectorPlace cs a.id) (some (a.vec ++ a.metadata))

/-- The batch at the end of an insert; a flat one has put its vector and writes the count alone. -/
def insertBatch (store : Store) (a : InsertArgs) (count : Nat) : Store :=
  putCount cs vl
    (if indexType = .flat then store
      else Function.update (putVector cs vl store a) (vl.memberPlace cs indexType a.id a.bucket)
        (some a.id)) (count + 1)

def insertStep (s : InsertsState) (i : Nat) : Option InsertsState :=
  match args[i]?, s.points[i]? with
  | some a, some .start =>
    if indexType = .flat then some ⟨putVector cs vl s.store a, s.points.set i .stored⟩
    else some ⟨s.store, s.points.set i (.counted (vectorLayerCount cs vl s.store))⟩
  | some _, some .stored =>
    some ⟨s.store, s.points.set i (.counted (vectorLayerCount cs vl s.store))⟩
  | some a, some (.counted count) =>
    some ⟨insertBatch cs vl indexType s.store a count, s.points.set i .done⟩
  | _, _ => none

def nextReads (s : InsertsState) (i : Nat) : Bool :=
  s.points[i]? == some .stored || (indexType != .flat && s.points[i]? == some .start)

/-- No insert reads the count between another one's read and write, or reads the last one of
64 bits. -/
def readsAlone (s : InsertsState) (i : Nat) : Bool :=
  !nextReads indexType s i ||
    (s.points.all (!·.isCounted) && decide (vectorLayerCount cs vl s.store + 1 < 2 ^ 64))

end Steps

/-! ### What a step does -/

section Invariant

variable {cs : ChunkSize} {vl : VectorLayer} {indexType : IndexType} {args : List InsertArgs}
  {s s' : InsertsState} {i first : Nat}

theorem insertStep_cases (h : insertStep cs vl indexType args s i = some s') :
    ∃ source target, moveCall s.points i source target = some s'.points ∧
      ((source = .start ∧ target = .stored ∧
          vectorLayerCount cs vl s'.store = vectorLayerCount cs vl s.store) ∨
        (nextReads indexType s i ∧ source.isCounted = false ∧ source ≠ .done ∧
          target = .counted (vectorLayerCount cs vl s.store) ∧ s'.store = s.store) ∨
        ∃ a count, source = .counted count ∧ target = .done ∧
          s'.store = insertBatch cs vl indexType s.store a count) := by
  rw [insertStep] at h
  split at h
  · rename_i a _ hpoint
    split at h
    · cases h
      exact ⟨_, _, moveCall_eq_some.mpr ⟨hpoint, rfl⟩, .inl ⟨rfl, rfl, vectorLayerCount_put _⟩⟩
    · rename_i htype
      cases h
      exact ⟨_, _, moveCall_eq_some.mpr ⟨hpoint, rfl⟩,
        .inr (.inl ⟨by simp [nextReads, hpoint, htype], rfl, nofun, rfl, rfl⟩)⟩
  · rename_i hpoint
    cases h
    exact ⟨_, _, moveCall_eq_some.mpr ⟨hpoint, rfl⟩,
      .inr (.inl ⟨by simp [nextReads, hpoint], rfl, nofun, rfl, rfl⟩)⟩
  · rename_i a count _ hpoint
    cases h
    exact ⟨_, _, moveCall_eq_some.mpr ⟨hpoint, rfl⟩, .inr (.inr ⟨a, count, rfl, rfl, rfl⟩)⟩
  · cases h

variable (cs vl args first) in
/-- Only one insert is between its read and its write, and it has the count that is stored. -/
structure CountsInserts (s : InsertsState) : Prop where
  length : s.points.length = args.length
  count : vectorLayerCount cs vl s.store = first + s.points.countP (· = .done)
  reading : s.points.countP InsertPoint.isCounted ≤ 1
  current : ∀ count, .counted count ∈ s.points →
    count = vectorLayerCount cs vl s.store ∧ count + 1 < 2 ^ 64

theorem CountsInserts.step (h : CountsInserts cs vl args first s)
    (hallowed : readsAlone cs vl indexType s i)
    (hs : insertStep cs vl indexType args s i = some s') : CountsInserts cs vl args first s' := by
  obtain ⟨source, target, hmove, hcases⟩ := insertStep_cases hs
  obtain ⟨hpoint, hpoints⟩ := moveCall_eq_some.mp hmove
  have hlength : s'.points.length = args.length := by rw [hpoints, length_set, h.length]
  have hdone := countP_moveCall (· = .done) hmove
  have hreading := countP_moveCall InsertPoint.isCounted hmove
  have hmem : ∀ count, .counted count ∈ s'.points →
      .counted count ∈ s.points ∨ .counted count = target := by
    intro count hcount
    exact mem_or_eq_of_mem_set (hpoints ▸ hcount)
  rcases hcases with ⟨rfl, rfl, hkept⟩ | ⟨hreads, hsource, hne, rfl, hstore⟩ |
    ⟨a, count, rfl, rfl, hstore⟩
  · -- the vector is put
    have hsame : s'.points.countP (· = .done) = s.points.countP (· = .done) := hdone
    have hsame' : s'.points.countP InsertPoint.isCounted = s.points.countP InsertPoint.isCounted :=
      hreading
    refine ⟨hlength, by rw [hkept, hsame, h.count], hsame' ▸ h.reading, fun count hcount => ?_⟩
    rw [hkept]
    exact h.current count ((hmem count hcount).resolve_right nofun)
  · -- the count is read, and no other insert has one
    rw [readsAlone, hreads, Bool.not_true, Bool.false_or, Bool.and_eq_true, List.all_eq_true,
      decide_eq_true_eq] at hallowed
    have hnone : s.points.countP InsertPoint.isCounted = 0 :=
      countP_eq_zero.mpr fun point hp => by simpa using hallowed.1 point hp
    simp only [hsource, hne, decide_false, Bool.toNat_false, reduceCtorEq, Nat.add_zero]
      at hdone hreading
    refine ⟨hlength, by rw [hstore, hdone, h.count], ?_, fun count hcount => ?_⟩
    · rw [hreading, hnone]
      exact Nat.le_refl 1
    · rw [hstore]
      rcases hmem count hcount with hold | heq
      · exact absurd (hallowed.1 _ hold) Bool.false_ne_true
      · cases heq
        exact ⟨rfl, hallowed.2⟩
  · -- the count that was read is still the one stored
    obtain ⟨rfl, hroom⟩ := h.current count (mem_of_getElem? hpoint)
    have hcount : vectorLayerCount cs vl s'.store = vectorLayerCount cs vl s.store + 1 := by
      rw [hstore, insertBatch, vectorLayerCount_putCount hroom]
    simp only [InsertPoint.isCounted, reduceCtorEq, decide_false, decide_true, Bool.toNat_false,
      Bool.toNat_true, Nat.add_zero] at hdone hreading
    have hle := h.reading
    have hnone : s'.points.countP InsertPoint.isCounted = 0 := by omega
    refine ⟨hlength, by rw [hcount, h.count, hdone, Nat.add_assoc], by omega, fun n hn => ?_⟩
    exact absurd rfl (countP_eq_zero.mp hnone _ hn)

end Invariant

/-- What any number of inserts leaves, each of which reads the count when no other one is between
its read and its write. -/
theorem concurrent_inserts_counted (cs : ChunkSize) (vl : VectorLayer) (indexType : IndexType)
    (args : List InsertArgs) (store : Store) (s : InsertsState)
    (h : Reaches (insertStep cs vl indexType args) (readsAlone cs vl indexType)
      ⟨store, args.map fun _ => .start⟩ s) (hdone : ∀ point ∈ s.points, point = .done) :
    vectorLayerCount cs vl s.store = vectorLayerCount cs vl store + args.length := by
  have hstart : CountsInserts cs vl args (vectorLayerCount cs vl store)
      ⟨store, args.map fun _ => .start⟩ := by
    refine ⟨length_map _, ?_, ?_, fun count hcount => ?_⟩
    · simp
    · rw [countP_map]
      simp [Function.comp_def, InsertPoint.isCounted]
    · simp at hcount
  have hinv := h.invariant _ hstart fun _ _ _ hi hallowed hs => hi.step hallowed hs
  have hall : s.points.countP (· = .done) = s.points.length :=
    countP_eq_length.mpr fun point hp => decide_eq_true (hdone point hp)
  rw [hinv.count, hall, hinv.length]

/-- Inserts of `a` and `b`. -/
def insertTwo : List InsertArgs := [⟨[97], floatOne, [], [48]⟩, ⟨[98], floatOne, [], [48]⟩]

/-- One after the other. -/
theorem concurrent_inserts_counted_two : ∃ s,
    Reaches (insertStep defaultChunkSize numbers .ivf insertTwo)
      (readsAlone defaultChunkSize numbers .ivf)
      ⟨fun _ => none, insertTwo.map fun _ => .start⟩ s ∧
    (∀ point ∈ s.points, point = .done) ∧
      vectorLayerCount defaultChunkSize numbers s.store = 2 := by
  obtain ⟨s, hs, hdone⟩ : ∃ s, Reaches (insertStep defaultChunkSize numbers .ivf insertTwo)
      (readsAlone defaultChunkSize numbers .ivf)
      ⟨fun _ => none, insertTwo.map fun _ => .start⟩ s ∧ ∀ point ∈ s.points, point = .done :=
    exists_reaches [0, 0, 1, 1] (by decide +kernel)
  exact ⟨s, hs, hdone, concurrent_inserts_counted _ _ _ _ _ s hs hdone⟩

/-- The second insert reads the count before the first one writes it. -/
theorem concurrent_inserts_lose_one : insertTwo.length = 2 ∧ ∀ indexType : IndexType, ∃ s,
    Reaches (insertStep defaultChunkSize numbers indexType insertTwo) always
      ⟨fun _ => none, insertTwo.map fun _ => .start⟩ s ∧
    (∀ point ∈ s.points, point = .done) ∧
      vectorLayerCount defaultChunkSize numbers s.store = 1 := by
  refine ⟨rfl, fun indexType => ?_⟩
  cases indexType with
  | flat => exact exists_reaches [0, 1, 0, 1, 0, 1] (by decide +kernel)
  | ivf | slsh => exact exists_reaches [0, 1, 0, 1] (by decide +kernel)

end WaveDB.Vector
