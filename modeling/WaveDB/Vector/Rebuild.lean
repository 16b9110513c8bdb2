import Mathlib.Data.List.AList
import WaveDB.HBTrie.PathOrder
import WaveDB.Vector.Count

/-!
The classes of the vectors in an index (`vector_ivf.c` and `vector_slsh.c`).

A vector has one more key, with its cluster or its hash in front of the id. A rebuild scans these
keys and the vectors, and writes the difference. Every operation makes a key be there or not as the
rebuild is to leave it, so that it does not matter where it stops.

Keys are cut at the delimiter, so an id is the list of its segments here. The rebuild takes only the
last one of them for the id, and the word before the id if there is none.
-/

namespace WaveDB.Vector

open WaveDB.Basis HBTrie Database List Option

/-! ### The rebuild -/

/-- A cluster or a hash as it is printed into a key: digits, which are before the byte `0x7f` that
ends the scans behind `hash/`. -/
abbrev Bucket := {text : Bytes // byteOrder text < byteOrder [0x7f]}

/-- `bucket` is the nearest of the stored centroids, or the hash with the stored projections. -/
structure ClassIndex where
  isIvf : Bool
  delimiter : UInt8
  vecBytes : Nat
  bucket : (Bucket → Option Bytes) → Bytes → Bucket

/-- The segments of an id. Ids with the same segments have the same keys. -/
abbrev VectorId := List Bytes

def VectorId.parse (d : UInt8) (id : Bytes) : VectorId := rawSegments d [] id

/-- The vectors by their ids, the keys with a bucket and an id, and what buckets are computed
from. -/
structure IndexLeaves where
  vectors : AList fun _ : VectorId => Bytes
  members : List (Bucket × VectorId)
  model : Bucket → Option Bytes

/-- The `id` of a rebuild: what stands behind the last delimiter of a scanned key. -/
def scannedId (id : VectorId) : VectorId := [id.getLastD Word.vector.text]

abbrev MemberOp := (Bucket × VectorId) × Bool

def applyOp (members : List (Bucket × VectorId)) (op : MemberOp) : List (Bucket × VectorId) :=
  if op.2 then members.insert op.1 else members.filter (· ≠ op.1)

variable (x : ClassIndex) (s : IndexLeaves)

def ClassIndex.classOf (value : Bytes) : Bucket := x.bucket s.model (value.take x.vecBytes)

/-- The scan returns all vectors: its buffer has no room for the delimiter behind `vector`, so that
it ends at `vector\x7f`. Values that are too short are passed over. -/
def ClassIndex.newMembers : List (Bucket × VectorId) :=
  (s.vectors.entries.filter fun leaf => x.vecBytes ≤ leaf.2.length).map fun leaf =>
    (x.classOf s leaf.2, scannedId leaf.1)

/-- Deletes of the old keys that are not new, and puts of the new ones that are not old. -/
def ClassIndex.rebuildOps : List MemberOp :=
  (s.members.filter (· ∉ x.newMembers s)).map (·, false) ++
    ((x.newMembers s).filter (· ∉ s.members)).map (·, true)

/-- A rebuild that stops when `n` operations are committed. It commits 8000 at a time. -/
def ClassIndex.rebuildUpTo (n : Nat) : IndexLeaves :=
  { s with members := ((x.rebuildOps s).take n).foldl applyOp s.members }

def ClassIndex.rebuild : IndexLeaves :=
  { s with members := (x.rebuildOps s).foldl applyOp s.members }

/-- There is a key for the class of every vector, and no other. -/
def ClassIndex.Matches : Prop :=
  ∀ bucket id, (bucket, id) ∈ s.members ↔ ∃ value, s.vectors.lookup id = some value ∧
    x.vecBytes ≤ value.length ∧ bucket = x.classOf s value

/-- The operations as those of `Count`. -/
def ClassIndex.auxOps (vl : VectorLayer) : List AuxOp :=
  (x.rebuildOps s).map fun op =>
    ⟨if x.isIvf then .cluster else .hash, by split <;> rfl,
      (op.1.1.1 :: op.1.2).flatMap (vl.delimiter :: ·), if op.2 then some op.1.2.flatten else none⟩

structure ClassIndex.Converges : Prop where
  matched : x.Matches (x.rebuild s)
  others : ∀ cs vl store word tail, word ≠ (if x.isIvf then .cluster else .hash) →
    applyAux cs vl store (x.auxOps s vl) (vl.place cs word tail) = store (vl.place cs word tail)
  idle : x.rebuildOps (x.rebuild s) = []
  resumed : ∀ n m, m ∈ (x.rebuild (x.rebuildUpTo s n)).members ↔ m ∈ (x.rebuild s).members

/-- The ids of all vectors have one segment. -/
def ClassIndex.namesAll : Bool :=
  s.vectors.entries.all fun leaf => decide (leaf.2.length < x.vecBytes) || leaf.1.length == 1

section Proofs

variable {x : ClassIndex} {s : IndexLeaves}

/-- Operations that lead to the keys of a list, in any order. -/
theorem mem_foldl_applyOp {new : List (Bucket × VectorId)} {ops : List MemberOp}
    (h : ∀ op ∈ ops, op.2 ↔ op.1 ∈ new) (members : List (Bucket × VectorId))
    (m : Bucket × VectorId) :
    m ∈ ops.foldl applyOp members ↔ if m ∈ ops.map Prod.fst then m ∈ new else m ∈ members := by
  induction ops generalizing members with
  | nil => rfl
  | cons op ops ih =>
    rw [foldl_cons, ih (fun op hop => h op (mem_cons_of_mem _ hop)), map_cons]
    by_cases hrest : m ∈ ops.map Prod.fst
    · rw [if_pos hrest, if_pos (mem_cons_of_mem _ hrest)]
    · rw [if_neg hrest, applyOp]
      by_cases hm : m = op.1
      · rw [hm, if_pos mem_cons_self, ← h op mem_cons_self]
        split <;> simp_all
      · rw [if_neg (not_mem_cons_of_ne_of_not_mem hm hrest)]
        split <;> simp [hm]

theorem mem_rebuild (m : Bucket × VectorId) : m ∈ (x.rebuild s).members ↔ m ∈ x.newMembers s := by
  have hleads : ∀ op ∈ x.rebuildOps s, op.2 ↔ op.1 ∈ x.newMembers s := by
    intro op hop
    rcases mem_append.mp hop with hop | hop
    all_goals
      obtain ⟨m, hm, rfl⟩ := mem_map.mp hop
      simp_all
  have htouched : m ∈ (x.rebuildOps s).map Prod.fst ↔ (m ∈ s.members ↔ m ∉ x.newMembers s) := by
    simp [ClassIndex.rebuildOps]
    tauto
  rw [ClassIndex.rebuild, mem_foldl_applyOp hleads]
  split <;> tauto

theorem mem_newMembers (bucket : Bucket) (id : VectorId) :
    (bucket, id) ∈ x.newMembers s ↔ ∃ stored value, s.vectors.lookup stored = some value ∧
      x.vecBytes ≤ value.length ∧ bucket = x.classOf s value ∧ id = scannedId stored := by
  rw [ClassIndex.newMembers, List.mem_map]
  constructor
  · rintro ⟨⟨stored, value⟩, hleaf, heq⟩
    obtain ⟨hentry, hlong⟩ := mem_filter.mp hleaf
    obtain ⟨rfl, rfl⟩ := Prod.mk.inj heq
    exact ⟨stored, value, AList.mem_lookup_iff.mpr hentry, of_decide_eq_true hlong, rfl, rfl⟩
  · rintro ⟨stored, value, hvalue, hlong, rfl, rfl⟩
    have hentry := AList.mem_lookup_iff.mp hvalue
    exact ⟨⟨stored, value⟩, mem_filter.mpr ⟨hentry, decide_eq_true hlong⟩, rfl⟩

theorem namesAll_iff : x.namesAll s ↔ ∀ id value, s.vectors.lookup id = some value →
      x.vecBytes ≤ value.length → scannedId id = id := by
  have hone : ∀ id : VectorId, scannedId id = id ↔ id.length = 1 := by
    intro id
    constructor
    · intro hid
      rw [← hid]
      rfl
    · intro hlength
      obtain ⟨segment, rfl⟩ := length_eq_one_iff.mp hlength
      rfl
  rw [ClassIndex.namesAll, List.all_eq_true]
  constructor
  · intro hall id value hvalue hlong
    have hleaf := hall ⟨id, value⟩ (AList.mem_lookup_iff.mp hvalue)
    rw [Bool.or_eq_true, decide_eq_true_eq, beq_iff_eq] at hleaf
    exact (hone id).mpr (hleaf.resolve_left (not_lt.mpr hlong))
  · rintro hids ⟨id, value⟩ hleaf
    rw [Bool.or_eq_true, decide_eq_true_eq, beq_iff_eq, ← hone, or_iff_not_imp_left, not_lt]
    exact hids id value (AList.mem_lookup_iff.mpr hleaf)

theorem matches_rebuild_iff : x.Matches (x.rebuild s) ↔ x.namesAll s = true := by
  have hclass : x.classOf (x.rebuild s) = x.classOf s := rfl
  have hvectors : (x.rebuild s).vectors = s.vectors := rfl
  simp only [ClassIndex.Matches, mem_rebuild, mem_newMembers, namesAll_iff, hclass, hvectors]
  constructor
  · intro hmatch id value hvalue hlong
    -- only ids of one segment are scanned
    obtain ⟨stored, _, -, -, -, rfl⟩ := (hmatch _ id).mpr ⟨value, hvalue, hlong, rfl⟩
    rfl
  · intro hid bucket id
    constructor
    · rintro ⟨stored, value, hvalue, hlong, rfl, rfl⟩
      rw [hid stored value hvalue hlong]
      exact ⟨value, hvalue, hlong, rfl⟩
    · rintro ⟨value, hvalue, hlong, rfl⟩
      exact ⟨id, value, hvalue, hlong, rfl, (hid id value hvalue hlong).symm⟩

theorem applyAux_of_ne {cs : ChunkSize} {vl : VectorLayer} {ops : List AuxOp} {word : Word}
    (h : ∀ op ∈ ops, word ≠ op.word) (store : Store) (tail : Bytes) :
    applyAux cs vl store ops (vl.place cs word tail) = store (vl.place cs word tail) := by
  induction ops generalizing store with
  | nil => rfl
  | cons op ops ih =>
    rw [applyAux, foldl_cons, ← applyAux, ih fun op hop => h op (mem_cons_of_mem _ hop)]
    exact Function.update_of_ne (place_apart (h op mem_cons_self) _ _) _ _

end Proofs

/-- A rebuild converges exactly if every vector has an id of one segment: among the ids without the
delimiter, all but the empty one. -/
theorem rebuild_converges_iff (x : ClassIndex) (s : IndexLeaves) :
    x.Converges s ↔ x.namesAll s = true := by
  refine ⟨fun h => matches_rebuild_iff.mp h.matched, fun hnames => ?_⟩
  constructor
  · exact matches_rebuild_iff.mpr hnames
  · intro cs vl store word tail hne
    refine applyAux_of_ne (fun op hop => ?_) store tail
    obtain ⟨_, -, rfl⟩ := mem_map.mp hop
    exact hne
  · have hnew : x.newMembers (x.rebuild s) = x.newMembers s := rfl
    simp [ClassIndex.rebuildOps, hnew, mem_rebuild]
  · intro n m
    rw [mem_rebuild, mem_rebuild]
    rfl

def clusterZero : Bucket := ⟨[48], by decide⟩

def clusterOne : Bucket := ⟨[49], by decide⟩

def twoClusters : ClassIndex :=
  ⟨true, 47, 4, fun _ floats => if floats = floatOne then clusterOne else clusterZero⟩

def nameless : IndexLeaves :=
  ⟨AList.insert [] floatOne ∅, [(clusterOne, [])], fun _ => none⟩

/-- The vector with the empty id has the key of its class; the rebuild deletes it and puts one with
the id `vector`. -/
theorem rebuild_deletes_member :
    (twoClusters.rebuild nameless).members = [(clusterOne, [Word.vector.text])] ∧
      ¬ twoClusters.Converges nameless := by
  have hmembers : (twoClusters.rebuild nameless).members = [(clusterOne, [Word.vector.text])] := by
    decide +kernel
  refine ⟨hmembers, fun h => ?_⟩
  have hmem := (h.matched _ []).mpr ⟨floatOne, rfl, le_rfl, rfl⟩
  rw [hmembers, mem_singleton] at hmem
  cases hmem

/-! ### The calls -/

inductive IndexCall where
  | insert (id vec metadata : Bytes)
  | delete (id : Bytes)
  | train (model : Bucket → Option Bytes)
  | rebuild

/-- One call that succeeds. The training of an IVF index returns at once if the scan finds no
vectors; what it comes to otherwise is the argument. -/
def ClassIndex.step (x : ClassIndex) (s : IndexLeaves) : IndexCall → Option IndexLeaves
  | .insert id vec metadata =>
    if vec.length = x.vecBytes then
      some { s with
        vectors := s.vectors.insert (.parse x.delimiter id) (vec ++ metadata)
        members := s.members.insert (x.bucket s.model vec, .parse x.delimiter id) }
    else none
  | .delete id =>
    (s.vectors.lookup (.parse x.delimiter id)).bind fun value =>
      if x.vecBytes ≤ value.length then
        some { s with
          vectors := s.vectors.erase (.parse x.delimiter id)
          members := s.members.filter (· ≠ (x.classOf s value, .parse x.delimiter id)) }
      else none
  | .train model =>
    if x.isIvf && s.vectors.entries.isEmpty then some s
    else some (x.rebuild { s with model })
  | .rebuild => some (x.rebuild s)

/-- Inserts are of new ids, or of vectors of the same class, and rebuilds find only ids of one
segment. -/
def ClassIndex.keepsClasses (x : ClassIndex) (s : IndexLeaves) : IndexCall → Bool
  | .insert id vec _ =>
    (s.vectors.lookup (.parse x.delimiter id)).all fun old =>
      decide (x.classOf s old = x.bucket s.model vec)
  | .delete _ => true
  | .train _ | .rebuild => x.namesAll s

theorem ClassIndex.Matches.step {x : ClassIndex} {s s' : IndexLeaves} {call : IndexCall}
    (h : x.Matches s) (hallowed : x.keepsClasses s call) (hs : x.step s call = some s') :
    x.Matches s' := by
  have hrebuild : ∀ model, x.namesAll s → x.Matches (x.rebuild { s with model }) :=
    fun model hnames => (matches_rebuild_iff (s := { s with model })).mpr hnames
  cases call with
  | insert id vec metadata =>
    obtain ⟨hlength, ⟨⟩⟩ := ite_none_right_eq_some.mp hs
    have hclass : x.classOf s (vec ++ metadata) = x.bucket s.model vec := by
      rw [classOf, take_left' hlength]
    intro bucket id'
    rw [mem_insert_iff, Prod.mk.injEq, h bucket id']
    by_cases hid : id' = .parse x.delimiter id
    · rw [hid, AList.lookup_insert]
      constructor
      · intro hor
        refine ⟨_, rfl, by rw [length_append]; omega, Eq.trans ?_ hclass.symm⟩
        rcases hor with ⟨hbucket, -⟩ | ⟨old, hold, -, rfl⟩
        · exact hbucket
        · rwa [keepsClasses, hold, all_some, decide_eq_true_eq] at hallowed
      · rintro ⟨value, ⟨⟩, -, rfl⟩
        exact .inl ⟨hclass, rfl⟩
    · rw [AList.lookup_insert_ne hid]
      simp [hid, classOf]
  | delete id =>
    obtain ⟨value, hvalue, hs⟩ := bind_eq_some_iff.mp hs
    obtain ⟨-, ⟨⟩⟩ := ite_none_right_eq_some.mp hs
    intro bucket id'
    rw [mem_filter, h bucket id']
    by_cases hid : id' = .parse x.delimiter id
    · rw [hid, AList.lookup_erase, hvalue]
      simp
    · rw [AList.lookup_erase_ne hid]
      simp [hid, classOf]
  | train model =>
    rw [ClassIndex.step] at hs
    split at hs
    · rwa [← some.inj hs]
    · rw [← some.inj hs]
      exact hrebuild model hallowed
  | rebuild =>
    rw [← some.inj hs]
    exact hrebuild s.model hallowed

end WaveDB.Vector
