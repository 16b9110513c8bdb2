import WaveDB.Vector.Rebuild

/-!
Migrating an index to another type (`vector_layer_migrate` in `vector_layer.c`).

The keys of both types go first, so that the rest is a function of the vectors: a migration that
stopped anywhere comes, when it is run again, to the state it would have come to.
-/

namespace WaveDB.Vector

open WaveDB.Basis HBTrie Database List

/-! ### The phases -/

def IndexType.name : IndexType → Bytes
  | .flat => ascii "flat".toList
  | .ivf => ascii "ivf".toList
  | .slsh => ascii "slsh".toList

def vlIndexTypeParse (word : Bytes) : Option IndexType :=
  [.flat, .ivf, .slsh].find? fun type => type.name = word

/-- The words with keys that a type of index has for itself. -/
inductive Child where
  | cluster | centroid | hash | proj
deriving DecidableEq

def Child.word : Child → Word
  | .cluster => .cluster
  | .centroid => .centroid
  | .hash => .hash
  | .proj => .proj

/-- What a migration reads. The keys of a child have a number or a bucket, and an id, which is empty
behind a number. -/
structure IndexDisk where
  vectors : AList fun _ : VectorId => Bytes
  format : Option Bytes
  child : Child → AList fun _ : Bucket × VectorId => Bytes

/-- `vl_init`: the type is written if there is none, and has to be the recorded one otherwise. -/
def vlInit (s : IndexDisk) (type : IndexType) : Option IndexDisk :=
  match s.format with
  | none => some { s with format := some type.name }
  | some word => if vlIndexTypeParse (word.takeWhile (· ≠ 0)) = some type then some s else none

/-- An index that is not flat, with its training: a function of the vectors. -/
structure TrainedIndex extends ClassIndex where
  train : List (Σ _ : VectorId, Bytes) → List (Bucket × Bytes)

section Migration

variable (target : Option TrainedIndex) (s : IndexDisk)

def targetType : IndexType :=
  target.elim .flat fun x => if x.isIvf then .ivf else .slsh

/-- What a migration commits: a put or a delete behind a child, or the type. -/
inductive DiskOp where
  | set (child : Child) (key : Bucket × VectorId) (value : Option Bytes)
  | format

/-- The operation as one of `Count`, on the database of a layer. -/
def DiskOp.aux (vl : VectorLayer) : DiskOp → AuxOp
  | .set child key value =>
    ⟨child.word, by cases child <;> rfl, (key.1.1 :: key.2).flatMap (vl.delimiter :: ·), value⟩
  | .format => ⟨.format, rfl, [], some (targetType target).name⟩

def DiskOp.commit : DiskOp → IndexDisk
  | .set child key value =>
    { s with
      child := Function.update s.child child
        (value.elim ((s.child child).erase key) ((s.child child).insert key)) }
  | .format => { s with format := some (targetType target).name }

def vlDeleteChild (child : Child) (s : IndexDisk) : List DiskOp :=
  (s.child child).keys.map fun key => .set child key none

/-- `vector_layer_train`. The training of an IVF index without vectors returns at once. -/
def TrainedIndex.phases (x : TrainedIndex) : List (IndexDisk → List DiskOp) :=
  let members := if x.isIvf then Child.cluster else .hash
  let model := if x.isIvf then Child.centroid else .proj
  [fun s => (x.train s.vectors.entries).map fun c => .set model (c.1, []) (some c.2),
    fun s => (x.rebuildOps ⟨s.vectors, (s.child members).keys,
      fun number => (s.child model).lookup (number, [])⟩).map fun op =>
        .set members op.1 (if op.2 then some op.1.2.flatten else none)].map fun phase s =>
    if x.isIvf && s.vectors.entries.isEmpty then [] else phase s

/-- The phases of `vector_layer_migrate`. Each reads what it needs before its first write. -/
def migratePhases : List (IndexDisk → List DiskOp) :=
  [vlDeleteChild .cluster, vlDeleteChild .centroid, vlDeleteChild .hash, vlDeleteChild .proj,
    fun _ => [.format]] ++ target.elim [] TrainedIndex.phases

def runPhase (s : IndexDisk) (phase : IndexDisk → List DiskOp) : IndexDisk :=
  (phase s).foldl (DiskOp.commit target) s

/-- What the phases commit, one after the other. -/
def phasesOps (target : Option TrainedIndex) :
    List (IndexDisk → List DiskOp) → IndexDisk → List DiskOp
  | [], _ => []
  | phase :: phases, s => phase s ++ phasesOps target phases (runPhase target s phase)

def vectorLayerMigrate : IndexDisk := (migratePhases target).foldl (runPhase target) s

def migrateOps : List DiskOp := phasesOps target (migratePhases target) s

/-- A migration that stops behind `n` operations. -/
def migrateUpTo (n : Nat) : IndexDisk :=
  ((migrateOps target s).take n).foldl (DiskOp.commit target) s

end Migration

/-! ### Stops -/

section Stops

variable {target : Option TrainedIndex} {s s' : IndexDisk}

/-- What no operation of a migration touches; the recorded type is the old or the new one. -/
structure KeptBy (target : Option TrainedIndex) (s s' : IndexDisk) : Prop where
  vectors : s'.vectors = s.vectors
  format : s'.format = s.format ∨ s'.format = some (targetType target).name

theorem KeptBy.commits (h : KeptBy target s s') (ops : List DiskOp) :
    KeptBy target s (ops.foldl (DiskOp.commit target) s') := by
  induction ops generalizing s' with
  | nil => exact h
  | cons op ops ih =>
    refine ih ?_
    cases op with
    | set => exact ⟨h.vectors, h.format⟩
    | format => exact ⟨h.vectors, .inr rfl⟩

/-- On the database of any layer, the operations leave the vectors and the count alone. -/
theorem applyAux_commits (cs : ChunkSize) (vl : VectorLayer) (store : Store) (ops : List DiskOp)
    {word : Word} (h : word.isAux = false) (tail : Bytes) :
    applyAux cs vl store (ops.map (DiskOp.aux target vl)) (vl.place cs word tail) =
      store (vl.place cs word tail) := by
  refine applyAux_of_ne (fun op _ => ?_) store tail
  rintro rfl
  exact absurd (op.aux.symm.trans h) (by decide)

theorem foldl_phasesOps (phases : List (IndexDisk → List DiskOp)) :
    (phasesOps target phases s).foldl (DiskOp.commit target) s =
      phases.foldl (runPhase target) s := by
  induction phases generalizing s with
  | nil => rfl
  | cons phase phases ih => rw [phasesOps, foldl_append, foldl_cons, ← ih, runPhase]

/-- Behind all its operations a migration is over. -/
theorem migrateUpTo_length :
    migrateUpTo target s (migrateOps target s).length = vectorLayerMigrate target s := by
  rw [migrateUpTo, take_length]
  exact foldl_phasesOps _

theorem runPhase_delete (child : Child) : runPhase target s (vlDeleteChild child) =
      { s with child := Function.update s.child child ∅ } := by
  have hdeleted : ∀ keys : List (Bucket × VectorId), (∀ key ∈ s.child child, key ∈ keys) →
      (keys.map fun key => DiskOp.set child key none).foldl (DiskOp.commit target) s =
        { s with child := Function.update s.child child ∅ } := by
    intro keys
    induction keys generalizing s with
    | nil =>
      intro hnone
      have hempty : s.child child = ∅ :=
        AList.ext (map_eq_nil_iff.mp (eq_nil_iff_forall_not_mem.mpr fun key hkey =>
          not_mem_nil (hnone key hkey)))
      rw [← hempty, Function.update_eq_self]
      rfl
    | cons key keys ih =>
      intro hkeys
      rw [map_cons, foldl_cons, ih]
      · simp [DiskOp.commit]
      · intro key' hkey'
        simp [DiskOp.commit] at hkey'
        exact (mem_cons.mp (hkeys key' hkey'.2)).resolve_left hkey'.1
  exact hdeleted _ fun _ => AList.mem_keys.mp

/-- When the type is written, nothing but the vectors is left of what a migration reads. -/
theorem vectorLayerMigrate_eq (target : Option TrainedIndex) (s : IndexDisk) :
    vectorLayerMigrate target s = (target.elim [] TrainedIndex.phases).foldl (runPhase target)
      ⟨s.vectors, some (targetType target).name, fun _ => ∅⟩ := by
  rw [vectorLayerMigrate, migratePhases, foldl_append]
  simp only [foldl_cons, runPhase_delete]
  congr 1
  rw [runPhase, foldl_cons, foldl_nil, DiskOp.commit, IndexDisk.mk.injEq]
  refine ⟨rfl, rfl, funext fun child => ?_⟩
  cases child <;> rfl

end Stops

/-- Wherever a migration stops, the vectors and the count are as they were in the database, the
index opens with the type that is recorded, and the migration run again ends where it would have
ended. -/
theorem migration_recoverable (target : Option TrainedIndex) (s : IndexDisk) (source : IndexType)
    (hsource : s.format = some source.name) (n : Nat) :
    (migrateUpTo target s n).vectors = s.vectors ∧
      (∀ cs vl store word tail, word.isAux = false →
        applyAux cs vl store (((migrateOps target s).take n).map (DiskOp.aux target vl))
          (vl.place cs word tail) = store (vl.place cs word tail)) ∧
      (∃ type, (migrateUpTo target s n).format = some type.name ∧
        vlInit (migrateUpTo target s n) type = some (migrateUpTo target s n)) ∧
      vectorLayerMigrate target (migrateUpTo target s n) = vectorLayerMigrate target s := by
  have hkept : KeptBy target s (migrateUpTo target s n) := KeptBy.commits ⟨rfl, .inl rfl⟩ _
  refine ⟨hkept.vectors, ?_, ?_, ?_⟩
  · intro cs vl store word tail hword
    exact applyAux_commits cs vl store _ hword tail
  · obtain ⟨type, htype⟩ : ∃ type : IndexType, (migrateUpTo target s n).format = some type.name :=
      hkept.format.elim (fun hold => ⟨source, hold.trans hsource⟩) fun hnew => ⟨_, hnew⟩
    refine ⟨type, htype, ?_⟩
    rw [vlInit, htype]
    cases type <;> rfl
  · rw [vectorLayerMigrate_eq, vectorLayerMigrate_eq, hkept.vectors]

/-- Training with two centroids. -/
def trainedClusters : TrainedIndex :=
  { twoClusters with train := fun _ => [(clusterZero, [0, 0, 0, 0]), (clusterOne, floatOne)] }

def hashedIndex : IndexDisk :=
  ⟨AList.insert [[97]] floatOne ∅, some IndexType.slsh.name,
    Function.update (fun _ => ∅) .hash (AList.insert (clusterZero, [[97]]) [97] ∅)⟩

/-- A migration to IVF that stops when one of the two centroids is written. -/
theorem migration_recoverable_training :
    ((migrateUpTo (some trainedClusters) hashedIndex 3).child .centroid).keys =
        [(clusterZero, [])] ∧
      ((vectorLayerMigrate (some trainedClusters) hashedIndex).child .cluster).keys =
        [(clusterOne, [[97]])] ∧
      vectorLayerMigrate (some trainedClusters)
          (migrateUpTo (some trainedClusters) hashedIndex 3) =
        vectorLayerMigrate (some trainedClusters) hashedIndex :=
  ⟨by decide +kernel, by decide +kernel,
    (migration_recoverable (some trainedClusters) hashedIndex .slsh rfl 3).2.2.2⟩

end WaveDB.Vector
