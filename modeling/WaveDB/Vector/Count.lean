import Mathlib.Data.Set.Card
import WaveDB.Vector.Flat

/-!
The number of vectors (`vector_layer_count` in `Layers/vector/vector_layer.c`, with the inserts and
deletes of `vector_flat.c`, `vector_ivf.c` and `vector_slsh.c`).

The count is a value of its own that every insert raises and every delete lowers. No insert, and no
delete from a flat index, looks whether there is a vector with the id.

* `place_apart`: the keys of a layer with different words are different, whatever its delimiter.
* `vectorStep_visible`: the store of a call is what readers get once its puts and deletes are in the
  trie.
-/

namespace WaveDB.Vector

open WaveDB.Basis HBTrie Database List Option Function Set

/-! ### Keys -/

/-- The words that stand in a key behind the index. -/
inductive Word where
  | vector | count | cluster | centroid | hash | proj | format
deriving DecidableEq

def Word.text : Word → Bytes
  | .vector => ascii "vector".toList
  | .count => ascii "count".toList
  | .cluster => ascii "cluster".toList
  | .centroid => ascii "centroid".toList
  | .hash => ascii "hash".toList
  | .proj => ascii "proj".toList
  | .format => ascii "__format".toList

def Word.isAux : Word → Bool
  | .vector => false
  | .count => false
  | _ => true

variable (vl : VectorLayer)

def VectorLayer.key (word : Word) (tail : Bytes) : Bytes :=
  (ascii "vec".toList ++ vl.delimiter :: vl.indexName) ++ vl.delimiter :: (word.text ++ tail)

def VectorLayer.place (cs : ChunkSize) (word : Word) (tail : Bytes) : List Chunk :=
  pathChunks (pathCreateFromRaw cs (vl.key word tail) vl.delimiter)

/-! ### The calls -/

inductive IndexType where
  | flat | ivf | slsh
deriving DecidableEq

abbrev Store := List Chunk → Option Bytes

structure IndexState where
  indexType : IndexType
  store : Store

/-- A put, or a delete, of an auxiliary key. -/
structure AuxOp where
  word : Word
  aux : word.isAux = true
  tail : Bytes
  value : Option Bytes

/-- A call. `bucket` is the centroid number or the LSH key as it is printed into the auxiliary key
of the vector; `ops` are the auxiliary keys that the call writes and deletes. -/
inductive VectorCall where
  | insert (id vec metadata bucket : Bytes)
  | delete (id bucket : Bytes)
  | train (ops : List AuxOp)
  | rebuild (ops : List AuxOp)
  | migrate (newType : IndexType) (ops : List AuxOp)

section Calls

variable (cs : ChunkSize) (vl : VectorLayer)

def VectorLayer.vectorPlace (id : Bytes) : List Chunk := vl.place cs .vector (vl.delimiter :: id)

def VectorLayer.countPlace : List Chunk := vl.place cs .count []

variable (store : Store)

def vectorLayerCount : Nat :=
  ((store (vl.countPlace cs)).bind (readUintLe 8).run).elim 0 Prod.fst

def putCount (count : Nat) : Store :=
  update store (vl.countPlace cs) (some (writeUintLe 8 count))

/-- The auxiliary key of a vector: `vl_key_cluster_member` or `vl_key_hash`. -/
def VectorLayer.memberPlace (indexType : IndexType) (id bucket : Bytes) : List Chunk :=
  vl.place cs (if indexType = .ivf then .cluster else .hash)
    (vl.delimiter :: (bucket ++ vl.delimiter :: id))

def vectorFlatInsertSync (id vec metadata : Bytes) : Store :=
  putCount cs vl (update store (vl.vectorPlace cs id) (some (vec ++ metadata)))
    (vectorLayerCount cs vl
      (update store (vl.vectorPlace cs id) (some (vec ++ metadata))) + 1)

def vectorMemberInsertSync (indexType : IndexType) (store : Store)
    (id vec metadata bucket : Bytes) : Store :=
  putCount cs vl (update
    (update store (vl.vectorPlace cs id) (some (vec ++ metadata)))
      (vl.memberPlace cs indexType id bucket) (some id)) (vectorLayerCount cs vl store + 1)

def vectorFlatDeleteSync (id : Bytes) : Store :=
  if 0 < vectorLayerCount cs vl (update store (vl.vectorPlace cs id) none) then
    putCount cs vl (update store (vl.vectorPlace cs id) none)
      (vectorLayerCount cs vl (update store (vl.vectorPlace cs id) none) - 1)
  else update store (vl.vectorPlace cs id) none

def vectorMemberDeleteSync (indexType : IndexType) (store : Store) (id bucket : Bytes) :
    Option Store :=
  if ((store (vl.vectorPlace cs id)).any fun value => vl.vecBytes ≤ value.length) = true then
    some (putCount cs vl (update (update store (vl.vectorPlace cs id) none)
      (vl.memberPlace cs indexType id bucket) none) (vectorLayerCount cs vl store - 1))
  else none

def applyAux (ops : List AuxOp) : Store :=
  ops.foldl (fun store op => update store (vl.place cs op.word op.tail) op.value) store

def vectorStep (s : IndexState) : VectorCall → Option IndexState
  | .insert id vec metadata bucket =>
    if vec.length = vl.vecBytes then
      some { s with store :=
        if s.indexType = .flat then vectorFlatInsertSync cs vl s.store id vec metadata
        else vectorMemberInsertSync cs vl s.indexType s.store id vec metadata bucket }
    else none
  | .delete id bucket =>
    if s.indexType = .flat then some { s with store := vectorFlatDeleteSync cs vl s.store id }
    else (vectorMemberDeleteSync cs vl s.indexType s.store id bucket).map fun store =>
      { s with store }
  | .train ops | .rebuild ops =>
    some { s with store := if s.indexType = .flat then s.store else applyAux cs vl s.store ops }
  | .migrate newType ops => some ⟨newType, applyAux cs vl s.store ops⟩

/-- Inserts are of ids without a vector, and deletes from a flat index of ids with one, or while
the count is 0. -/
def looksFirst (s : IndexState) : VectorCall → Bool
  | .insert id _ _ _ => (s.store (vl.vectorPlace cs id)).isNone &&
      decide (vectorLayerCount cs vl s.store + 1 < 2 ^ 64)
  | .delete id _ => !decide (s.indexType = .flat) || (s.store (vl.vectorPlace cs id)).isSome ||
      decide (vectorLayerCount cs vl s.store = 0)
  | _ => true

def VectorLayer.storedVectors : Set (List Chunk) :=
  {place | (store place).isSome = true ∧ ∃ id, place = vl.vectorPlace cs id}

/-- The count is the number of vectors. -/
def CountsVectors : Prop :=
  (vl.storedVectors cs store).Finite ∧
    (vl.storedVectors cs store).ncard = vectorLayerCount cs vl store

end Calls

/-! ### The store in the trie -/

def writeAll (store : Store) (writes : List (Path × Option Bytes)) : Store :=
  writes.foldl (fun store w => update store (pathChunks w.1) w.2) store

theorem newestAt_foldl {cfg : Config} {load : Loader} {trie : HbtrieNode} {ops : List TrieOp}
    (hok : TrieOk load trie) (hops : ∀ op ∈ ops, ValidPath op.path ∧ pathAccepted cfg op.path)
    (hsafe : opsSplitSafely cfg load trie ops) :
    newestAt load (ops.foldl (applyOp cfg load) trie) =
      writeAll (newestAt load trie) (ops.map fun op => (op.path, op.value)) := by
  induction ops generalizing trie with
  | nil => rfl
  | cons op ops ih =>
    obtain ⟨⟨hvalid, haccepted⟩, hrest⟩ := forall_mem_cons.mp hops
    obtain ⟨hfirst, hlater⟩ := Bool.and_eq_true_iff.mp hsafe
    obtain ⟨hok', hcontent⟩ := applyOp_spec hok hvalid hfirst
    have hone : newestAt load (applyOp cfg load trie op) =
        update (newestAt load trie) (pathChunks op.path) op.value := by
      funext key
      rw [newestAt, hcontent, update_apply]
      cases op with
      | insert path value txnId | delete path txnId =>
        by_cases hkey : pathChunks path = key
        · simp [TrieOp.writeTo, TrieOp.path, TrieOp.value, hkey, newest_apply,
            show pathAccepted cfg path = true from haccepted]
        · simp [TrieOp.writeTo, TrieOp.path, hkey, Ne.symm hkey, newestAt]
    rw [foldl_cons, ih hok' hrest hlater, hone]
    rfl

/-- Every call is a list of puts and deletes. -/
theorem vectorStep_writes {cs : ChunkSize} {s s' : IndexState} {call : VectorCall}
    (hs : vectorStep cs vl s call = some s') : ∃ writes, s'.store = writeAll s.store writes := by
  have haux : ∀ ops, ∃ writes, applyAux cs vl s.store ops = writeAll s.store writes := by
    intro ops
    refine ⟨ops.map fun op =>
      (pathCreateFromRaw cs (vl.key op.word op.tail) vl.delimiter, op.value), ?_⟩
    rw [writeAll, foldl_map]
    rfl
  cases call with
  | insert id vec metadata bucket =>
    obtain ⟨-, ⟨⟩⟩ := ite_none_right_eq_some.mp hs
    dsimp only
    split
    · exact ⟨[(_, _), (_, _)], rfl⟩
    · exact ⟨[(_, _), (_, _), (_, _)], rfl⟩
  | delete id bucket =>
    rw [vectorStep] at hs
    split at hs
    · cases hs
      dsimp only [vectorFlatDeleteSync]
      split
      · exact ⟨[(_, _), (_, _)], rfl⟩
      · exact ⟨[(_, _)], rfl⟩
    · obtain ⟨store, hstore, rfl⟩ := map_eq_some_iff.mp hs
      obtain ⟨-, ⟨⟩⟩ := ite_none_right_eq_some.mp hstore
      exact ⟨[(_, _), (_, _), (_, _)], rfl⟩
  | train ops | rebuild ops =>
    cases hs
    dsimp only
    split
    · exact ⟨[], rfl⟩
    · exact haux ops
  | migrate newType ops =>
    cases hs
    exact haux ops

/-- A database whose newest values are the store: once the puts and deletes of a call are in the
trie, a reader gets the store after the call. -/
theorem vectorStep_visible {cs : ChunkSize} {s s' : IndexState} {call : VectorCall} {load : Loader}
    {trie : HbtrieNode} (hs : vectorStep cs vl s call = some s') (hok : TrieOk load trie)
    (hstore : s.store = newestAt load trie) :
    ∃ writes, ∀ (cfg : Config) (ops : List TrieOp) (db : SyncDb) (path : Path),
      ops.map (fun op => (op.path, op.value)) = writes →
      (∀ op ∈ ops, ValidPath op.path ∧ pathAccepted cfg op.path) →
      opsSplitSafely cfg load trie ops → db.trie = ops.foldl (applyOp cfg load) trie →
      ValidPath path → HeadReadable db.readTxnId (contentAt load db.trie (pathChunks path)) →
      db.visible load path = s'.store (pathChunks path) := by
  obtain ⟨writes, hwrites⟩ := vectorStep_writes vl hs
  refine ⟨writes, ?_⟩
  rintro cfg ops db path rfl hops hsafe htrie hvalid hhead
  rw [visible_eq_newestAt hvalid hhead, htrie, newestAt_foldl hok hops hsafe, hwrites, hstore]

/-! ### Keys with different words -/

def letters (d : UInt8) (text : Bytes) : Bytes := (text.filter (· != d)).filter (· != 0)

theorem letters_append (d : UInt8) (x y : Bytes) :
    letters d (x ++ y) = letters d x ++ letters d y := by
  rw [letters, filter_append, filter_append]
  rfl

theorem letters_key (word : Word) (tail : Bytes) : letters vl.delimiter (vl.key word tail) =
      letters vl.delimiter (ascii "vec".toList ++ vl.delimiter :: vl.indexName) ++
        letters vl.delimiter (word.text ++ tail) := by
  rw [VectorLayer.key, letters_append]
  congr 1
  rw [letters, filter_cons_of_neg (by simp)]
  rfl

def Word.all : List Word := [.vector, .count, .cluster, .centroid, .hash, .proj, .format]

theorem Word.mem_all (word : Word) : word ∈ all := by cases word <;> decide

/-- The first two letters tell the words apart, whatever the delimiter. -/
theorem take_letters_word (d : UInt8) (word word' : Word) : 2 ≤ (letters d word.text).length ∧
      ((letters d word.text).take 2 = (letters d word'.text).take 2 → word = word') := by
  have hall : ∀ d ∈ 0 :: Word.all.flatMap Word.text,
      (Word.all.map fun word => (letters d word.text).take 2).Nodup ∧
        ∀ word ∈ Word.all, 2 ≤ (letters d word.text).length := by
    decide +kernel
  -- a delimiter that is in no word is as good as NUL
  obtain ⟨d', hd', hsame⟩ : ∃ d' ∈ 0 :: Word.all.flatMap Word.text,
      ∀ word : Word, letters d word.text = letters d' word.text := by
    by_cases hd : d ∈ Word.all.flatMap Word.text
    · exact ⟨d, mem_cons_of_mem _ hd, fun _ => rfl⟩
    · refine ⟨0, mem_cons_self, fun word => ?_⟩
      have hfilter : word.text.filter (· != d) = word.text := by
        refine filter_eq_self.mpr fun b hb => bne_iff_ne.mpr ?_
        rintro rfl
        exact hd (mem_flatMap.mpr ⟨word, word.mem_all, hb⟩)
      rw [letters, letters, hfilter, List.filter_filter]
      simp
  obtain ⟨hnodup, hlength⟩ := hall d' hd'
  rw [hsame, hsame]
  exact ⟨hlength word word.mem_all,
    fun heq => inj_on_of_nodup_map hnodup word.mem_all word'.mem_all heq⟩

theorem place_apart {cs : ChunkSize} {vl : VectorLayer} {word word' : Word} (hne : word ≠ word')
    (tail tail' : Bytes) : vl.place cs word tail ≠ vl.place cs word' tail' := by
  intro heq
  have hbytes := congrArg (filter (· != 0)) ((pathChunks_eq_iff cs _ _).mp heq)
  rw [filter_paddedBytes, filter_paddedBytes, flatten_rawSegments, flatten_rawSegments] at hbytes
  change letters vl.delimiter (vl.key word tail) = letters vl.delimiter (vl.key word' tail')
    at hbytes
  rw [letters_key, letters_key, append_cancel_left_eq, letters_append, letters_append] at hbytes
  have htake := congrArg (take 2) hbytes
  rw [take_append_of_le_length (take_letters_word _ word word').1,
    take_append_of_le_length (take_letters_word _ word' word).1] at htake
  exact hne ((take_letters_word _ word word').2 htake)

/-! ### The number of vectors -/

section Counting

variable {cs : ChunkSize} {vl : VectorLayer} {store : Store} {place : List Chunk} {id : Bytes}

theorem storedVectors_eq_empty (h : ∀ id, store (vl.vectorPlace cs id) = none) :
    vl.storedVectors cs store = ∅ := by
  refine eq_empty_iff_forall_notMem.mpr ?_
  rintro place ⟨hsome, id, rfl⟩
  rw [h] at hsome
  cases hsome

theorem vectorLayerCount_putCount {count : Nat} (h : count < 2 ^ 64) :
    vectorLayerCount cs vl (putCount cs vl store count) = count := by
  have hread := (@Reads.uintLe 8 count (h.trans_eq (by decide))).run_eq
  rw [vectorLayerCount, putCount, update_self, bind_some, hread]
  rfl

theorem vectorLayerCount_update (h : place ≠ vl.countPlace cs) (value : Option Bytes) :
    vectorLayerCount cs vl (update store place value) = vectorLayerCount cs vl store := by
  rw [vectorLayerCount, update_of_ne h.symm, vectorLayerCount]

theorem storedVectors_update (h : ∀ id, place ≠ vl.vectorPlace cs id) (value : Option Bytes) :
    vl.storedVectors cs (update store place value) = vl.storedVectors cs store := by
  ext q
  refine and_congr_left ?_
  rintro ⟨id, rfl⟩
  rw [update_of_ne (h id).symm]

theorem storedVectors_put (value : Bytes) :
    vl.storedVectors cs (update store (vl.vectorPlace cs id) (some value)) =
      insert (vl.vectorPlace cs id) (vl.storedVectors cs store) := by
  ext q
  rw [mem_insert_iff]
  by_cases hq : q = vl.vectorPlace cs id
  · rw [hq]
    exact iff_of_true ⟨by rw [update_self]; rfl, id, rfl⟩ (.inl rfl)
  · rw [or_iff_right hq]
    refine and_congr_left fun _ => ?_
    rw [update_of_ne hq]

theorem storedVectors_delete : vl.storedVectors cs (update store (vl.vectorPlace cs id) none) =
      vl.storedVectors cs store \ {vl.vectorPlace cs id} := by
  ext q
  rw [mem_sdiff, mem_singleton_iff]
  by_cases hq : q = vl.vectorPlace cs id
  · rw [hq]
    refine iff_of_false ?_ fun h => h.2 rfl
    rintro ⟨hsome, -⟩
    rw [update_self] at hsome
    cases hsome
  · rw [and_iff_left hq]
    refine and_congr_left fun _ => ?_
    rw [update_of_ne hq]

theorem countPlace_ne_vectorPlace (id : Bytes) : vl.countPlace cs ≠ vl.vectorPlace cs id :=
  place_apart (by decide) _ _

theorem storedVectors_putCount (count : Nat) :
    vl.storedVectors cs (putCount cs vl store count) = vl.storedVectors cs store :=
  storedVectors_update countPlace_ne_vectorPlace _

theorem vectorLayerCount_put (value : Option Bytes) :
    vectorLayerCount cs vl (update store (vl.vectorPlace cs id) value) =
      vectorLayerCount cs vl store :=
  vectorLayerCount_update (countPlace_ne_vectorPlace id).symm value

theorem aux_apart {word : Word} (h : word.isAux) (tail : Bytes) :
    (∀ id, vl.place cs word tail ≠ vl.vectorPlace cs id) ∧
      vl.place cs word tail ≠ vl.countPlace cs := by
  constructor
  · intro id
    exact place_apart (by rintro rfl; cases h) _ _
  · exact place_apart (by rintro rfl; cases h) _ _

theorem memberPlace_apart (indexType : IndexType) (id bucket : Bytes) :
    (∀ id', vl.memberPlace cs indexType id bucket ≠ vl.vectorPlace cs id') ∧
      vl.memberPlace cs indexType id bucket ≠ vl.countPlace cs := by
  refine aux_apart ?_ _
  split <;> rfl

/-- The auxiliary keys of a call change neither the vectors nor the count. -/
theorem applyAux_keeps (ops : List AuxOp) (store : Store) :
    vl.storedVectors cs (applyAux cs vl store ops) = vl.storedVectors cs store ∧
      vectorLayerCount cs vl (applyAux cs vl store ops) = vectorLayerCount cs vl store := by
  induction ops generalizing store with
  | nil => exact ⟨rfl, rfl⟩
  | cons op ops ih =>
    obtain ⟨hvector, hcount⟩ := @aux_apart cs vl _ op.aux op.tail
    obtain ⟨hset, hnumber⟩ := ih (update store (vl.place cs op.word op.tail) op.value)
    exact ⟨hset.trans (storedVectors_update hvector _),
      hnumber.trans (vectorLayerCount_update hcount _)⟩

theorem vectorLayerCount_lt (store : Store) : vectorLayerCount cs vl store < 2 ^ 64 := by
  rw [vectorLayerCount]
  cases hread : (store (vl.countPlace cs)).bind (readUintLe 8).run with
  | none => decide
  | some result =>
    obtain ⟨buf, -, hbuf⟩ := bind_eq_some_iff.mp hread
    obtain ⟨bytes, hbytes, heq⟩ := map_eq_some_reader.mp hbuf
    have hlt := ofDigits_lt bytes.reverse
    rw [length_reverse, readBytes_length hbytes, heq] at hlt
    exact hlt.trans_eq (by decide)

theorem mem_storedVectors : vl.vectorPlace cs id ∈ vl.storedVectors cs store ↔
      (store (vl.vectorPlace cs id)).isSome = true :=
  and_iff_left ⟨id, rfl⟩

theorem CountsVectors.insert {store' : Store} (h : CountsVectors cs vl store)
    (hnew : (store (vl.vectorPlace cs id)).isNone)
    (hroom : vectorLayerCount cs vl store + 1 < 2 ^ 64) (hset : vl.storedVectors cs store' =
      insert (vl.vectorPlace cs id) (vl.storedVectors cs store)) :
    CountsVectors cs vl (putCount cs vl store' (vectorLayerCount cs vl store + 1)) := by
  have hnot : vl.vectorPlace cs id ∉ vl.storedVectors cs store := by
    rw [mem_storedVectors, isNone_iff_eq_none.mp hnew]
    nofun
  rw [CountsVectors, storedVectors_putCount, hset, vectorLayerCount_putCount hroom,
    ncard_insert_of_notMem hnot h.1, h.2]
  exact ⟨h.1.insert _, rfl⟩

theorem CountsVectors.delete (h : CountsVectors cs vl store)
    (hold : (store (vl.vectorPlace cs id)).isSome ∨ vectorLayerCount cs vl store = 0) :
    (vl.storedVectors cs store \ {vl.vectorPlace cs id}).Finite ∧
      (vl.storedVectors cs store \ {vl.vectorPlace cs id}).ncard =
        vectorLayerCount cs vl store - 1 := by
  refine ⟨h.1.subset sdiff_subset, ?_⟩
  rcases hold with hsome | hzero
  · rw [ncard_sdiff_singleton_of_mem (mem_storedVectors.mpr hsome), h.2]
  · have hempty := (ncard_eq_zero h.1).mp (h.2.trans hzero)
    rw [hempty, hzero, empty_sdiff, ncard_empty]

theorem vectorStep_insert {s s' : IndexState} {vec metadata bucket : Bytes}
    (hs : vectorStep cs vl s (.insert id vec metadata bucket) = some s') :
    ∃ store, s'.store = putCount cs vl store (vectorLayerCount cs vl s.store + 1) ∧
      vl.storedVectors cs store = insert (vl.vectorPlace cs id) (vl.storedVectors cs s.store) := by
  obtain ⟨-, ⟨⟩⟩ := ite_none_right_eq_some.mp hs
  split
  · rw [vectorFlatInsertSync, vectorLayerCount_put]
    exact ⟨_, rfl, storedVectors_put _⟩
  · refine ⟨_, rfl, ?_⟩
    rw [storedVectors_update (memberPlace_apart _ _ _).1, storedVectors_put]

theorem CountsVectors.step {s s' : IndexState} {call : VectorCall} (h : CountsVectors cs vl s.store)
    (hallowed : looksFirst cs vl s call) (hs : vectorStep cs vl s call = some s') :
    CountsVectors cs vl s'.store := by
  have haux : ∀ ops, CountsVectors cs vl (applyAux cs vl s.store ops) := by
    intro ops
    obtain ⟨hset, hcount⟩ := @applyAux_keeps cs vl ops s.store
    rwa [CountsVectors, hset, hcount]
  cases call with
  | insert id vec metadata bucket =>
    obtain ⟨hnew, hroom⟩ := Bool.and_eq_true_iff.mp hallowed
    rw [decide_eq_true_eq] at hroom
    obtain ⟨store, hstore, hset⟩ := vectorStep_insert hs
    rw [hstore]
    exact h.insert hnew hroom hset
  | delete id bucket =>
    rw [vectorStep] at hs
    split at hs
    · rename_i hflat
      obtain rfl := some.inj hs
      have hold : (s.store (vl.vectorPlace cs id)).isSome ∨ vectorLayerCount cs vl s.store = 0 := by
        simpa [looksFirst, hflat] using hallowed
      have hdelete := h.delete hold
      dsimp only [vectorFlatDeleteSync]
      rw [vectorLayerCount_put]
      split
      · rw [CountsVectors, storedVectors_putCount, storedVectors_delete,
          vectorLayerCount_putCount (by have := @vectorLayerCount_lt cs vl s.store; omega)]
        exact hdelete
      · rename_i hzero
        rw [CountsVectors, storedVectors_delete, vectorLayerCount_put]
        rwa [show vectorLayerCount cs vl s.store - 1 = vectorLayerCount cs vl s.store by omega]
          at hdelete
    · obtain ⟨store, hstore, rfl⟩ := map_eq_some_iff.mp hs
      obtain ⟨hany, ⟨⟩⟩ := ite_none_right_eq_some.mp hstore
      obtain ⟨value, hvalue, -⟩ := (Option.any_eq_true ..).mp hany
      have hdelete := @CountsVectors.delete cs vl s.store id h (.inl (by rw [hvalue]; rfl))
      rw [CountsVectors, storedVectors_putCount, storedVectors_update (memberPlace_apart _ _ _).1,
        storedVectors_delete,
        vectorLayerCount_putCount (by have := @vectorLayerCount_lt cs vl s.store; omega)]
      exact hdelete
  | train ops | rebuild ops =>
    obtain rfl := some.inj hs
    split
    · exact h
    · exact haux ops
  | migrate newType ops =>
    obtain rfl := some.inj hs
    exact haux ops

end Counting

/-- The count is the number of vectors after any calls, if inserts are of new ids and deletes from a
flat index of stored ones. -/
theorem vector_count_exact (cs : ChunkSize) (vl : VectorLayer) (start : IndexState)
    (hvectors : ∀ id, start.store (vl.vectorPlace cs id) = none)
    (hcount : start.store (vl.countPlace cs) = none) (s : IndexState)
    (h : Reaches (vectorStep cs vl) (looksFirst cs vl) start s) :
    CountsVectors cs vl s.store := by
  refine h.invariant (fun s => CountsVectors cs vl s.store) ?_ fun _ _ _ => CountsVectors.step
  rw [CountsVectors, storedVectors_eq_empty hvectors, ncard_empty, vectorLayerCount, hcount]
  exact ⟨finite_empty, rfl⟩

def newIndex (indexType : IndexType) : IndexState := ⟨indexType, fun _ => none⟩

def insertOne (id : Bytes) : VectorCall := .insert id floatOne [] [48]

/-- Two vectors, one of which is deleted again, and one that is not there. -/
theorem vector_count_exact_one :
    ∃ s, Reaches (vectorStep defaultChunkSize numbers) (looksFirst defaultChunkSize numbers)
        (newIndex .ivf) s ∧
      decide (vectorLayerCount defaultChunkSize numbers s.store = 1) = true ∧
      CountsVectors defaultChunkSize numbers s.store := by
  exact exists_reaches_and [insertOne [97], insertOne [98], .migrate .flat [], .delete [97] [48]]
    (by decide +kernel)
    (vector_count_exact defaultChunkSize numbers (newIndex .ivf) (fun _ => rfl) rfl)

/-- An id that is inserted twice counts twice, in an index of any type, and the delete of an id
that is not there takes one from the count of a flat index. -/
theorem vector_count_drifts :
    (∀ indexType, ∃ s, Reaches (vectorStep defaultChunkSize numbers) always (newIndex indexType) s ∧
      vectorLayerCount defaultChunkSize numbers s.store = 2 ∧
      numbers.storedVectors defaultChunkSize s.store =
        {numbers.vectorPlace defaultChunkSize [97]}) ∧
    ∃ s, Reaches (vectorStep defaultChunkSize numbers) always (newIndex .flat) s ∧
      vectorLayerCount defaultChunkSize numbers s.store = 0 ∧
      numbers.vectorPlace defaultChunkSize [97] ∈
        numbers.storedVectors defaultChunkSize s.store := by
  constructor
  · intro indexType
    have hinsert : ∀ s, ∃ s', vectorStep defaultChunkSize numbers s (insertOne [97]) = some s' :=
      fun _ => isSome_iff_exists.mp rfl
    obtain ⟨s, hs⟩ := hinsert (newIndex indexType)
    obtain ⟨s', hs'⟩ := hinsert s
    obtain ⟨store, hstore, hset⟩ := vectorStep_insert hs
    obtain ⟨store', hstore', hset'⟩ := vectorStep_insert hs'
    refine ⟨s', (Reaches.start.next _ rfl hs).next _ rfl hs', ?_, ?_⟩
    · have hone : vectorLayerCount defaultChunkSize numbers s.store = 1 := by
        have hzero : vectorLayerCount defaultChunkSize numbers (newIndex indexType).store = 0 := rfl
        rw [hstore, hzero, vectorLayerCount_putCount (by decide)]
      rw [hstore', hone, vectorLayerCount_putCount (by decide)]
    · rw [hstore', storedVectors_putCount, hset', hstore, storedVectors_putCount, hset,
        storedVectors_eq_empty fun _ => rfl, insert_idem, LawfulSingleton.insert_empty_eq]
  · obtain ⟨s, hs, hzero, hsome⟩ : ∃ s, Reaches (vectorStep defaultChunkSize numbers) always
        (newIndex .flat) s ∧ vectorLayerCount defaultChunkSize numbers s.store = 0 ∧
          (s.store (numbers.vectorPlace defaultChunkSize [97])).isSome = true :=
      exists_reaches [insertOne [97], .delete [98] []] (by decide +kernel)
    exact ⟨s, hs, hzero, mem_storedVectors.mpr hsome⟩

end WaveDB.Vector
