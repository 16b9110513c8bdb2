import WaveDB.Database.Increment
import WaveDB.Database.Lru

/-!
The value cache under concurrent calls (`_database_put`, `_database_get`, `_database_delete` and
the concurrent paths of their `_sync` variants in `Database/database.c`).

A write begins a transaction, applies its call to the trie under the shard lock, commits and then
updates the cache (a put) or removes the path from it (a delete). A get asks the cache, and on a
miss reads the last committed id, looks the path up in the trie at that id and puts what it found
into the cache. `cachedStep` is one such step; calls on any paths interleave freely. The
write-ahead log, garbage collection and the vacuum are not part of the system.
-/

namespace WaveDB.Database

open WaveDB.Basis Workers HBTrie List Option

/-! ### The system -/

inductive CachedWritePoint where
  | begun
  | hasId (id : TransactionId)
  | registered (id : TransactionId)
  | applied (id : TransactionId)
  | committed
  | returned
deriving DecidableEq

structure CachedWrite where
  path : Path
  value : Option Bytes
  point : CachedWritePoint

inductive CachedGetPoint where
  | missed
  | hasReadId (readTxnId : TransactionId)
  | found (result : Option Bytes)
  | returned (result : Option Bytes)
deriving DecidableEq

/-- A get. `expected` records what the write applied last to the path wrote when the get started,
`quiet` that no write of the path was in progress then and none began before it returned; no step
reads them. -/
structure CachedGet where
  path : Path
  point : CachedGetPoint
  expected : Option (Option Bytes)
  quiet : Bool

structure AppliedWrite where
  index : Nat
  path : Path
  value : Option Bytes

/-- What the calls share. `applied` records the writes in the order they reached the trie, the
last one first; no step reads it. -/
structure CachedState where
  mvcc : MvccState
  trie : HbtrieNode
  lru : LruCache
  writes : List CachedWrite
  gets : List CachedGet
  applied : List AppliedWrite

inductive CachedAction where
  | beginWrite (path : Path) (value : Option Bytes)
  | takeId (i : Nat) (clock : ClockReading)
  | register (i : Nat)
  | apply (i : Nat)
  | commit (i : Nat)
  | updateCache (i : Nat) (entryMemory : Nat) (allocated : Bool)
  | lookUp (path : Path)
  | readId (j : Nat)
  | find (j : Nat)
  | fill (j : Nat) (entryMemory : Nat) (allocated : Bool)

/-- `path_compare` takes the two paths as equal. -/
def samePath (p q : Path) : Bool := decide (componentChunks p = componentChunks q)

def CachedWrite.op (w : CachedWrite) (id : TransactionId) : TrieOp :=
  match w.value with
  | some value => .insert w.path value id
  | none => .delete w.path id

def CachedGet.inProgress (g : CachedGet) : Bool :=
  match g.point with
  | .returned _ => false
  | _ => true

def CachedGet.disturb (path : Path) (g : CachedGet) : CachedGet :=
  if samePath g.path path && g.inProgress then { g with quiet := false } else g

namespace CachedState

variable (s : CachedState)

def writing (path : Path) : Bool :=
  s.writes.any fun w => samePath w.path path && !decide (w.point = .returned)

def lastApplied (path : Path) : Option AppliedWrite :=
  s.applied.find? fun r => samePath r.path path

/-- What it wrote; `none` inside for a delete. -/
def lastWrite (path : Path) : Option (Option Bytes) := (s.lastApplied path).map AppliedWrite.value

def updatePending (path : Path) : Bool :=
  (s.lastApplied path).any fun r =>
    (s.writes[r.index]?).any fun w => !decide (w.point = .returned)

def paths : List Path := s.writes.map CachedWrite.path ++ s.gets.map CachedGet.path

def setWrite (i : Nat) (w : CachedWrite) : CachedState := { s with writes := s.writes.set i w }

def setGet (j : Nat) (g : CachedGet) (point : CachedGetPoint) : CachedState :=
  { s with gets := s.gets.set j { g with point := point } }

end CachedState

def cacheFound (lru : LruCache) (path : Path) (entryMemory : Nat) (allocated : Bool) :
    Option Bytes → LruCache
  | some value => databaseLruCachePut lru path value entryMemory allocated
  | none => lru

section System

variable (cfg : Config) (load : Loader)

variable (s : CachedState)

/-- One step of one call; `none` when the call cannot take it. The results of `hbtrie_insert` and
`hbtrie_delete` are ignored. -/
def cachedStep : CachedAction → Option CachedState
  | .beginWrite path value =>
    some { s with
      writes := s.writes ++ [⟨path, value, .begun⟩]
      gets := s.gets.map (CachedGet.disturb path) }
  | .takeId i clock =>
    (s.writes[i]?).bind fun w =>
      match w.point with
      | .begun =>
        (mvccStep s.mvcc (.takeId clock)).map fun mvcc =>
          { s with mvcc }.setWrite i
            { w with point := .hasId (transactionIdGetNext s.mvcc.generator clock).1 }
      | _ => none
  | .register i =>
    (s.writes[i]?).bind fun w =>
      match w.point with
      | .hasId id =>
        (mvccStep s.mvcc (.register id)).map fun mvcc =>
          { s with mvcc }.setWrite i { w with point := .registered id }
      | _ => none
  | .apply i =>
    (s.writes[i]?).bind fun w =>
      match w.point with
      | .registered id =>
        some ({ s with
          trie := applyOp cfg load s.trie (w.op id)
          applied := ⟨i, w.path, w.value⟩ :: s.applied }.setWrite i
            { w with point := .applied id })
      | _ => none
  | .commit i =>
    (s.writes[i]?).bind fun w =>
      match w.point with
      | .applied id =>
        (mvccStep s.mvcc (.commit id)).map fun mvcc =>
          { s with mvcc }.setWrite i { w with point := .committed }
      | _ => none
  | .updateCache i entryMemory allocated =>
    (s.writes[i]?).bind fun w =>
      match w.point with
      | .committed =>
        some ({ s with
          lru := match w.value with
            | some value => databaseLruCachePut s.lru w.path value entryMemory allocated
            | none => databaseLruCacheDelete s.lru w.path }.setWrite i
              { w with point := .returned })
      | _ => none
  | .lookUp path =>
    some { s with
      lru := (databaseLruCacheGet s.lru path).2
      gets := s.gets ++ [{
        path
        point := match (databaseLruCacheGet s.lru path).1 with
          | some value => .returned (some value)
          | none => .missed
        expected := s.lastWrite path
        quiet := !s.writing path }] }
  | .readId j =>
    (s.gets[j]?).bind fun g =>
      match g.point with
      | .missed => some (s.setGet j g (.hasReadId s.mvcc.manager.lastCommittedTxnId))
      | _ => none
  | .find j =>
    (s.gets[j]?).bind fun g =>
      match g.point with
      | .hasReadId readTxnId =>
        some ({ s with trie := hbtrieFindAttach load s.trie (pathSteps g.path) }.setGet j g
          (.found (hbtrieFind load s.trie g.path readTxnId)))
      | _ => none
  | .fill j entryMemory allocated =>
    (s.gets[j]?).bind fun g =>
      match g.point with
      | .found result =>
        some ({ s with
          lru := cacheFound s.lru g.path entryMemory allocated result }.setGet j g
            (.returned result))
      | _ => none

/-- The path has a final position and no earlier call used another path with the same chunks. -/
def pathUsable (path : Path) : Bool :=
  decide (ValidPath path) && s.paths.all fun p =>
    decide (pathChunks p = pathChunks path → componentChunks p = componentChunks path)

/-- The value may go into the cache: it is the newest one of the path, or the write that made a
newer one comes to the cache later. -/
def mayCache (path : Path) (value : Bytes) : Bool :=
  decide (hbtrieFindUnsafe load s.trie path = some value) || s.updatePending path

/-- Every value is put into the cache while it is the newest one of its path, or before the write
applied last updates the cache itself. The trie accepts each path, tells it from the other ones
and splits no leaf at or below its separator. -/
def cacheKeepsUp : CachedAction → Bool
  | .beginWrite path _ => pathUsable s path && pathAccepted cfg path
  | .lookUp path => pathUsable s path
  | .apply i =>
    (s.writes[i]?).all fun w => (w.value.isNone ||
      insertSplitsSafely cfg load s.trie (pathSteps w.path))
  | .updateCache i _ _ =>
    (s.writes[i]?).all fun w => w.value.all fun value =>
      mayCache load (s.setWrite i { w with point := .returned }) w.path value
  | .fill j _ _ =>
    (s.gets[j]?).all fun g =>
      match g.point with
      | .found (some value) => mayCache load s g.path value
      | _ => true
  | _ => true

end System

/-- A get that had its path to itself returned what the last write wrote. -/
def CachedGet.ServesLastWrite (g : CachedGet) : Prop :=
  ∀ result, g.point = .returned result → g.quiet = true →
    ∀ value, g.expected = some value → result = value

/-! ### The invariant -/

def CachedGet.Ok (load : Loader) (s : CachedState) (g : CachedGet) : Prop :=
  g.quiet = true →
    match g.point with
    | .missed => s.writing g.path = false ∧ g.expected = s.lastWrite g.path
    | .hasReadId readTxnId =>
      (s.writing g.path = false ∧ g.expected = s.lastWrite g.path) ∧
        HeadReadable readTxnId (contentAt load s.trie (pathChunks g.path))
    | .found result => ∀ value, g.expected = some value → result = value
    | .returned result => ∀ value, g.expected = some value → result = value

/-- What the cache has for a path is the newest value, or the write that made a newer one has
still to come to the cache. -/
structure CachedInv (cfg : Config) (load : Loader) (s : CachedState) : Prop where
  trie : TrieOk load s.trie
  lru : s.lru.Distinct
  valid : ∀ p ∈ s.paths, ValidPath p
  accepted : ∀ w ∈ s.writes, pathAccepted cfg w.path = true
  apart : ∀ p ∈ s.paths, ∀ q ∈ s.paths, pathChunks p = pathChunks q →
    componentChunks p = componentChunks q
  head : ∀ key v older, contentAt load s.trie key = some (.versions (v :: older)) →
    v.txnId ≤ s.mvcc.manager.lastCommittedTxnId ∨
      ∃ w ∈ s.writes, pathChunks w.path = key ∧ w.point = .applied v.txnId
  recorded : ∀ r ∈ s.applied, ∃ w, s.writes[r.index]? = some w ∧ w.path = r.path
  last : ∀ p r, s.lastApplied p = some r → newestAt load s.trie (pathChunks p) = r.value
  cached : ∀ p value, s.lru.lookup p = some value →
    (∃ q ∈ s.paths, componentChunks q = componentChunks p) ∧
      (newestAt load s.trie (pathChunks p) = some value ∨ s.updatePending p = true)
  gets : ∀ g ∈ s.gets, g.Ok load s

section Reading

variable {s : CachedState} {p q : Path}

theorem samePath_iff : samePath p q ↔ componentChunks p = componentChunks q :=
  decide_eq_true_iff

theorem pathChunks_congr (h : componentChunks p = componentChunks q) :
    pathChunks p = pathChunks q := by
  rw [pathChunks_eq_flatten, pathChunks_eq_flatten, h]

theorem writing_eq_false : s.writing p = false ↔
    ∀ w ∈ s.writes, componentChunks w.path = componentChunks p → w.point = .returned := by
  rw [CachedState.writing, List.any_eq_false]
  refine forall₂_congr fun w _ => ?_
  rw [Bool.and_eq_true, samePath_iff, Bool.not_eq_true', decide_eq_false_iff_not, not_and, not_not]

theorem lastApplied_path {r : AppliedWrite} (h : s.lastApplied p = some r) :
    componentChunks r.path = componentChunks p := by
  have hr := find?_some h
  exact samePath_iff.mp hr

theorem updatePending_iff : s.updatePending p ↔
    ∃ r w, s.lastApplied p = some r ∧ s.writes[r.index]? = some w ∧ w.point ≠ .returned := by
  rw [CachedState.updatePending, Option.any_eq_true]
  constructor
  · rintro ⟨r, hr, hpending⟩
    obtain ⟨w, hw, hpoint⟩ := (Option.any_eq_true ..).mp hpending
    rw [Bool.not_eq_true', decide_eq_false_iff_not] at hpoint
    exact ⟨r, w, hr, hw, hpoint⟩
  · rintro ⟨r, w, hr, hw, hpoint⟩
    refine ⟨r, hr, (Option.any_eq_true ..).mpr ⟨w, hw, ?_⟩⟩
    rw [decide_eq_false hpoint]
    rfl

theorem updatePending_congr (h : componentChunks p = componentChunks q) :
    s.updatePending p = s.updatePending q := by
  simp only [CachedState.updatePending, CachedState.lastApplied, samePath, h]

theorem path_mem_of_write {w : CachedWrite} {i : Nat} (h : s.writes[i]? = some w) :
    w.path ∈ s.paths :=
  mem_append_left _ (mem_map_of_mem (mem_of_getElem? h))

theorem path_mem_of_get {g : CachedGet} (h : g ∈ s.gets) : g.path ∈ s.paths :=
  mem_append_right _ (mem_map_of_mem h)

end Reading

section Moves

variable {s : CachedState} {p : Path} {i : Nat} {w : CachedWrite} {point : CachedWritePoint}

section Write

variable (hw : s.writes[i]? = some w)

include hw

theorem paths_setWrite : (s.setWrite i { w with point }).paths = s.paths :=
  congrArg (· ++ s.gets.map CachedGet.path) (map_set_of_eq hw rfl)

/-- A call that moves on leaves the paths without a write in progress alone. -/
theorem writing_setWrite (hpoint : w.point ≠ .returned) (h : s.writing p = false) :
    (s.setWrite i { w with point }).writing p = false := by
  rw [writing_eq_false] at h ⊢
  intro w' hw' hpath
  rcases mem_or_eq_of_mem_set hw' with hw' | rfl
  · exact h w' hw' hpath
  · exact absurd (h w (mem_of_getElem? hw) hpath) hpoint

theorem recorded_setWrite (h : ∀ r ∈ s.applied, ∃ w, s.writes[r.index]? = some w ∧ w.path = r.path)
    (r : AppliedWrite) (hr : r ∈ s.applied) :
    ∃ w', (s.setWrite i { w with point }).writes[r.index]? = some w' ∧ w'.path = r.path := by
  have hpath : (s.writes.map CachedWrite.path)[r.index]? = some r.path := by
    rw [getElem?_map]
    exact map_eq_some_iff.mpr (h r hr)
  rw [← map_set_of_eq hw (y := { w with point }) rfl, getElem?_map] at hpath
  exact map_eq_some_iff.mp hpath

/-- A pending update stays pending unless its own write moves to its end. -/
theorem updatePending_setWrite
    (hpoint : point ≠ .returned ∨ componentChunks w.path ≠ componentChunks p)
    (hrecorded : ∀ r ∈ s.applied, ∃ w, s.writes[r.index]? = some w ∧ w.path = r.path)
    (h : s.updatePending p) : (s.setWrite i { w with point }).updatePending p = true := by
  obtain ⟨r, w', hr, hw', hpending⟩ := updatePending_iff.mp h
  by_cases hi : i = r.index
  · subst hi
    obtain ⟨w'', hw'', hpath⟩ := hrecorded r (mem_of_find?_eq_some hr)
    cases hw.symm.trans hw''
    have hne := hpoint.resolve_right fun hne => hne (hpath ▸ lastApplied_path hr)
    refine updatePending_iff.mpr ⟨r, _, hr, getElem?_set_self ?_, hne⟩
    exact (List.getElem?_eq_some_iff.mp hw).1
  · refine updatePending_iff.mpr ⟨r, w', hr, ?_, hpending⟩
    rw [CachedState.setWrite, getElem?_set_ne hi]
    exact hw'

end Write

/-- A path without a write in progress sees nothing of the step. -/
def CalmAt (load : Loader) (s s' : CachedState) (p : Path) : Prop :=
  s.writing p = false → s'.writing p = false ∧ s'.lastWrite p = s.lastWrite p ∧
    contentAt load s'.trie (pathChunks p) = contentAt load s.trie (pathChunks p)

theorem CachedGet.Ok.frame {load : Loader} {s s' : CachedState} {g : CachedGet} (h : g.Ok load s)
    (hcalm : g.inProgress → CalmAt load s s' g.path) : g.Ok load s' := by
  intro hquiet
  have hok := h hquiet
  obtain ⟨path, point, expected, quiet⟩ := g
  cases point with
  | missed =>
    obtain ⟨hidle, hexpected⟩ := hok
    obtain ⟨hwriting, hlast, -⟩ := hcalm rfl hidle
    exact ⟨hwriting, hexpected.trans hlast.symm⟩
  | hasReadId readTxnId =>
    obtain ⟨⟨hidle, hexpected⟩, hhead⟩ := hok
    obtain ⟨hwriting, hlast, hcontent⟩ := hcalm rfl hidle
    refine ⟨⟨hwriting, hexpected.trans hlast.symm⟩, ?_⟩
    intro v older hv
    exact hhead v older (hcontent ▸ hv)
  | found result | returned result => exact hok

end Moves

/-! ### Steps -/

section Steps

variable {cfg : Config} {load : Loader} {s s' : CachedState} {i j : Nat} {w : CachedWrite}
  {g : CachedGet} {path : Path} {mvcc : MvccState} {point : CachedWritePoint} {entryMemory : Nat}
  {allocated : Bool}

theorem CachedInv.moveWrite {lru : LruCache} (h : CachedInv cfg load s)
    (hw : s.writes[i]? = some w) (hsource : w.point ≠ .returned)
    (hcommitted : s.mvcc.manager.lastCommittedTxnId ≤ mvcc.manager.lastCommittedTxnId)
    (happlied : ∀ id, w.point = .applied id → id ≤ mvcc.manager.lastCommittedTxnId)
    (hlru : lru.Distinct) (hcached : ∀ p value, lru.lookup p = some value →
      (∃ q ∈ s.paths, componentChunks q = componentChunks p) ∧
        (newestAt load s.trie (pathChunks p) = some value ∨
          (s.setWrite i { w with point }).updatePending p)) :
    CachedInv cfg load ({ s with mvcc, lru }.setWrite i { w with point }) := by
  have hpaths : ({ s with mvcc, lru }.setWrite i { w with point }).paths = s.paths :=
    paths_setWrite hw
  constructor
  · exact h.trie
  · exact hlru
  · rw [hpaths]
    exact h.valid
  · intro w' hw'
    rcases mem_or_eq_of_mem_set hw' with hw' | rfl
    · exact h.accepted w' hw'
    · exact h.accepted w (mem_of_getElem? hw)
  · rw [hpaths]
    exact h.apart
  · intro key v older hcontent
    rcases h.head key v older hcontent with hle | ⟨w', hw', hkey, hid⟩
    · exact .inl (hle.trans hcommitted)
    · rcases eq_or_mem_set hw hw' with rfl | hw'
      · exact .inl (happlied _ hid)
      · exact .inr ⟨w', hw', hkey, hid⟩
  · exact fun r hr => recorded_setWrite hw h.recorded r hr
  · exact h.last
  · rw [hpaths]
    exact hcached
  · intro g hg
    refine (h.gets g hg).frame fun _ hidle => ⟨?_, rfl, rfl⟩
    exact writing_setWrite hw hsource hidle

theorem CachedInv.move (h : CachedInv cfg load s) (hw : s.writes[i]? = some w)
    (hsource : w.point ≠ .returned) (htarget : point ≠ .returned)
    (hcommitted : s.mvcc.manager.lastCommittedTxnId ≤ mvcc.manager.lastCommittedTxnId)
    (happlied : ∀ id, w.point = .applied id → id ≤ mvcc.manager.lastCommittedTxnId) :
    CachedInv cfg load ({ s with mvcc }.setWrite i { w with point }) := by
  refine h.moveWrite hw hsource hcommitted happlied h.lru fun p value hlookup => ?_
  obtain ⟨hused, hnewest⟩ := h.cached p value hlookup
  refine ⟨hused, hnewest.imp_right fun hpending => ?_⟩
  exact updatePending_setWrite hw (.inl htarget) h.recorded hpending

theorem CachedInv.put_cached {value : Bytes} (h : CachedInv cfg load s) (hpath : path ∈ s.paths)
    (hmay : newestAt load s.trie (pathChunks path) = some value ∨ s'.updatePending path)
    (hothers : ∀ p, componentChunks path ≠ componentChunks p → s.updatePending p →
      s'.updatePending p) (p : Path) (cached : Bytes)
    (hlookup : (databaseLruCachePut s.lru path value entryMemory allocated).lookup p = some
      cached) : (∃ q ∈ s.paths, componentChunks q = componentChunks p) ∧
      (newestAt load s.trie (pathChunks p) = some cached ∨ s'.updatePending p) := by
  rcases lookup_put h.lru path p value entryMemory allocated with hnone | hsome
  · rw [hnone] at hlookup
    cases hlookup
  rw [hsome] at hlookup
  by_cases hp : componentChunks path = componentChunks p
  · rw [if_pos hp] at hlookup
    cases hlookup
    refine ⟨⟨path, hpath, hp⟩, ?_⟩
    rwa [← pathChunks_congr hp, ← updatePending_congr hp]
  · rw [if_neg hp] at hlookup
    obtain ⟨hused, hnewest⟩ := h.cached p cached hlookup
    exact ⟨hused, hnewest.imp_right (hothers p hp)⟩

theorem mayCache_iff {value : Bytes} (hvalid : ValidPath path) : mayCache load s path value ↔
      newestAt load s.trie (pathChunks path) = some value ∨ s.updatePending path = true := by
  rw [mayCache, Bool.or_eq_true, decide_eq_true_eq, hbtrieFindUnsafe_eq load _ hvalid]
  rfl

section Written

variable (h : CachedInv cfg load s) (hw : s.writes[i]? = some w)

include h hw

theorem CachedInv.updateCache (hpoint : w.point = .committed)
    (hallowed : cacheKeepsUp cfg load s (.updateCache i entryMemory allocated))
    (hs : cachedStep cfg load s (.updateCache i entryMemory allocated) = some s') :
    CachedInv cfg load s' := by
  have hsource : w.point ≠ .returned := by
    rw [hpoint]
    nofun
  simp only [cachedStep, hw, bind_some, hpoint, some.injEq] at hs
  subst hs
  have hothers : ∀ p, componentChunks w.path ≠ componentChunks p → s.updatePending p →
      (s.setWrite i { w with point := .returned }).updatePending p = true :=
    fun p hne hpending => updatePending_setWrite hw (.inr hne) h.recorded hpending
  refine h.moveWrite hw hsource le_rfl (by rw [hpoint]; nofun) ?_ fun p cached hlookup => ?_
  · split
    · exact h.lru.put _ _ _ _
    · exact h.lru.delete _
  · obtain hvalue | ⟨value, hvalue⟩ := eq_none_or_eq_some w.value
    · rw [hvalue] at hlookup
      rw [lookup_delete h.lru] at hlookup
      split at hlookup
      · cases hlookup
      · rename_i hne
        obtain ⟨hused, hnewest⟩ := h.cached p cached hlookup
        exact ⟨hused, hnewest.imp_right (hothers p hne)⟩
    · rw [hvalue] at hlookup
      rw [cacheKeepsUp, hw, all_some] at hallowed
      have hmay := (Option.all_eq_true ..).mp hallowed value hvalue
      refine h.put_cached (path_mem_of_write hw) ?_ hothers p cached hlookup
      exact (mayCache_iff (h.valid _ (path_mem_of_write hw))).mp hmay

theorem applyOp_cached (hallowed : cacheKeepsUp cfg load s (.apply i)) (id : TransactionId) :
    TrieOk load (applyOp cfg load s.trie (w.op id)) ∧
      ∀ key, contentAt load (applyOp cfg load s.trie (w.op id)) key =
        if pathChunks w.path = key then Write.apply (contentAt load s.trie key) ⟨id, w.value⟩
        else contentAt load s.trie key := by
  have hvalid := h.valid _ (path_mem_of_write hw)
  have haccepted := h.accepted w (mem_of_getElem? hw)
  rw [cacheKeepsUp, hw, all_some] at hallowed
  obtain ⟨path, value, point⟩ := w
  cases value with
  | some value =>
    obtain ⟨htrie, hcontent⟩ := @applyOp_spec cfg load s.trie (.insert path value id) h.trie
      hvalid hallowed
    refine ⟨htrie, fun key => ?_⟩
    rw [CachedWrite.op, hcontent, TrieOp.writeTo]
    by_cases hkey : pathChunks path = key
    · rw [if_pos ⟨hkey, haccepted⟩, if_pos hkey]
    · rw [if_neg fun hand => hkey hand.1, if_neg hkey]
  | none =>
    obtain ⟨htrie, hcontent⟩ := @applyOp_spec cfg load s.trie (.delete path id) h.trie hvalid rfl
    refine ⟨htrie, fun key => ?_⟩
    rw [CachedWrite.op, hcontent, TrieOp.writeTo]
    by_cases hkey : pathChunks path = key
    · rw [if_pos hkey, if_pos hkey]
    · rw [if_neg hkey, if_neg hkey]

/-- The trie after the call of a write: its value is the newest one, and its update is pending. -/
theorem CachedInv.written {id : TransactionId} {trie : HbtrieNode} (hpoint : w.point = .applied id)
    (htrie : TrieOk load trie) (hcontent : ∀ key, contentAt load trie key =
      if pathChunks w.path = key then Write.apply (contentAt load s.trie key) ⟨id, w.value⟩
      else contentAt load s.trie key) :
    CachedInv cfg load { s with trie, applied := ⟨i, w.path, w.value⟩ :: s.applied } := by
  have hpending : w.point ≠ .returned := by
    rw [hpoint]
    nofun
  set t : CachedState := { s with trie, applied := ⟨i, w.path, w.value⟩ :: s.applied }
  have hfirst : ∀ p, componentChunks w.path = componentChunks p →
      t.lastApplied p = some ⟨i, w.path, w.value⟩ :=
    fun p hp => find?_cons_of_pos (samePath_iff.mpr hp)
  have hlast : ∀ p, componentChunks w.path ≠ componentChunks p →
      t.lastApplied p = s.lastApplied p :=
    fun p hne => find?_cons_of_neg fun hsame => hne (samePath_iff.mp hsame)
  have hkept : ∀ p ∈ s.paths, componentChunks w.path ≠ componentChunks p →
      contentAt load trie (pathChunks p) = contentAt load s.trie (pathChunks p) := by
    intro p hp hne
    rw [hcontent, if_neg fun hkey => hne (h.apart _ (path_mem_of_write hw) p hp hkey)]
  constructor
  · exact htrie
  · exact h.lru
  · exact h.valid
  · exact h.accepted
  · exact h.apart
  · intro key v older hversions
    rw [hcontent] at hversions
    split at hversions
    · rename_i hkey
      refine .inr ⟨w, mem_of_getElem? hw, hkey, ?_⟩
      rw [hpoint, head_apply hversions]
    · exact h.head key v older hversions
  · exact forall_mem_cons.mpr ⟨⟨w, hw, rfl⟩, h.recorded⟩
  · intro p r hr
    by_cases hp : componentChunks w.path = componentChunks p
    · rw [hfirst p hp] at hr
      cases hr
      rw [newestAt, hcontent, if_pos (pathChunks_congr hp)]
      exact newest_apply _ _
    · rw [hlast p hp] at hr
      obtain ⟨w', hw', hpath⟩ := h.recorded r (mem_of_find?_eq_some hr)
      have hsame := pathChunks_congr (lastApplied_path hr)
      have hcontent' := hkept r.path (hpath ▸ path_mem_of_write hw')
        fun heq => hp (heq.trans (lastApplied_path hr))
      rw [newestAt, ← hsame, hcontent', hsame]
      exact h.last p r hr
  · intro p value hlookup
    obtain ⟨⟨q, hq, hqp⟩, hnewest⟩ := h.cached p value hlookup
    refine ⟨⟨q, hq, hqp⟩, ?_⟩
    by_cases hp : componentChunks w.path = componentChunks p
    · exact .inr (updatePending_iff.mpr ⟨_, w, hfirst p hp, hw, hpending⟩)
    · refine hnewest.imp (fun hnewest => ?_) fun hpending => ?_
      · have hcontent' := hkept q hq fun heq => hp (heq.trans hqp)
        rw [pathChunks_congr hqp] at hcontent'
        rw [newestAt, hcontent']
        exact hnewest
      · obtain ⟨r, w', hr, hw', hpoint'⟩ := updatePending_iff.mp hpending
        exact updatePending_iff.mpr ⟨r, w', (hlast p hp).trans hr, hw', hpoint'⟩
  · intro g hg
    refine (h.gets g hg).frame fun _ hidle => ?_
    have hne : componentChunks w.path ≠ componentChunks g.path :=
      fun heq => hpending (writing_eq_false.mp hidle w (mem_of_getElem? hw) heq)
    exact ⟨hidle, congrArg _ (hlast g.path hne), hkept g.path (path_mem_of_get hg) hne⟩

theorem CachedInv.apply {id : TransactionId} (hpoint : w.point = .registered id)
    (hallowed : cacheKeepsUp cfg load s (.apply i))
    (hs : cachedStep cfg load s (.apply i) = some s') : CachedInv cfg load s' := by
  obtain ⟨htrie, hcontent⟩ := applyOp_cached h hw hallowed id
  simp only [cachedStep, hw, bind_some, hpoint, some.injEq] at hs
  subst hs
  have hmoved : CachedInv cfg load (s.setWrite i { w with point := .applied id }) :=
    h.move hw (by rw [hpoint]; nofun) nofun le_rfl (by rw [hpoint]; nofun)
  exact hmoved.written (getElem?_set_self (List.getElem?_eq_some_iff.mp hw).1) rfl htrie hcontent

end Written

theorem CachedInv.apart_of_usable (h : CachedInv cfg load s) (husable : pathUsable s path)
    (hpaths : ∀ p ∈ s'.paths, p ∈ s.paths ∨ p = path) :
    (∀ p ∈ s'.paths, ValidPath p) ∧ ∀ p ∈ s'.paths, ∀ q ∈ s'.paths,
      pathChunks p = pathChunks q → componentChunks p = componentChunks q := by
  simp only [pathUsable, Bool.and_eq_true, decide_eq_true_eq, List.all_eq_true] at husable
  obtain ⟨hvalid, hapart⟩ := husable
  constructor
  · intro p hp
    rcases hpaths p hp with hp | rfl
    · exact h.valid p hp
    · exact hvalid
  · intro p hp q hq hkey
    rcases hpaths p hp with hp | rfl
    · rcases hpaths q hq with hq | rfl
      · exact h.apart p hp q hq hkey
      · exact hapart p hp hkey
    · rcases hpaths q hq with hq | rfl
      · exact (hapart q hq hkey.symm).symm
      · rfl

def CachedState.withWrite (s : CachedState) (path : Path) (value : Option Bytes) : CachedState :=
  { s with
    writes := s.writes ++ [⟨path, value, .begun⟩]
    gets := s.gets.map (CachedGet.disturb path) }

theorem mem_paths_withWrite {value : Option Bytes} {p : Path} :
    p ∈ (s.withWrite path value).paths ↔ p ∈ s.paths ∨ p = path := by
  have hgets : (s.gets.map (CachedGet.disturb path)).map CachedGet.path =
      s.gets.map CachedGet.path := by
    rw [List.map_map]
    refine map_congr_left fun g _ => ?_
    rw [Function.comp, CachedGet.disturb]
    split
    · rfl
    · rfl
  rw [CachedState.paths, CachedState.paths, CachedState.withWrite, hgets, map_append,
    map_singleton, mem_append, mem_append, mem_append, mem_singleton]
  exact or_right_comm

theorem withWrite_kept {value : Option Bytes} {k : Nat} (hk : s.writes[k]? = some w) :
    (s.withWrite path value).writes[k]? = some w := by
  rw [CachedState.withWrite, getElem?_append_left (List.getElem?_eq_some_iff.mp hk).1]
  exact hk

variable (h : CachedInv cfg load s)

include h

theorem CachedInv.beginWrite {value : Option Bytes}
    (hallowed : cacheKeepsUp cfg load s (.beginWrite path value)) :
    CachedInv cfg load (s.withWrite path value) := by
  obtain ⟨husable, haccepted⟩ := Bool.and_eq_true_iff.mp hallowed
  obtain ⟨hvalid, hapart⟩ := h.apart_of_usable husable fun p hp => mem_paths_withWrite.mp hp
  constructor
  · exact h.trie
  · exact h.lru
  · exact hvalid
  · exact forall_mem_append.mpr ⟨h.accepted, forall_mem_singleton.mpr haccepted⟩
  · exact hapart
  · intro key v older hcontent
    refine (h.head key v older hcontent).imp_right ?_
    rintro ⟨w, hw, hid⟩
    exact ⟨w, mem_append_left _ hw, hid⟩
  · intro r hr
    obtain ⟨w, hw, hpath⟩ := h.recorded r hr
    exact ⟨w, withWrite_kept hw, hpath⟩
  · exact h.last
  · intro p cached hlookup
    obtain ⟨⟨q, hq, hqp⟩, hnewest⟩ := h.cached p cached hlookup
    refine ⟨⟨q, mem_paths_withWrite.mpr (.inl hq), hqp⟩, hnewest.imp_right fun hpending => ?_⟩
    obtain ⟨r, w, hr, hw, hpoint⟩ := updatePending_iff.mp hpending
    exact updatePending_iff.mpr ⟨r, w, hr, withWrite_kept hw, hpoint⟩
  · intro g' hg'
    obtain ⟨g, hg, rfl⟩ := mem_map.mp hg'
    rw [CachedGet.disturb]
    split
    · exact nofun
    · rename_i hother
      refine (h.gets g hg).frame fun hprogress hidle => ⟨?_, rfl, rfl⟩
      rw [writing_eq_false] at hidle ⊢
      intro w hw hpath
      rcases mem_append.mp hw with hw | hw
      · exact hidle w hw hpath
      · rw [mem_singleton.mp hw] at hpath
        rw [samePath_iff.mpr hpath.symm, hprogress] at hother
        exact absurd rfl hother

/-- Without a write in progress, what the cache has is what the last write wrote. -/
theorem CachedInv.hit {cached : Bytes} (hlookup : s.lru.lookup path = some cached)
    (hidle : s.writing path = false) {value : Option Bytes}
    (hvalue : s.lastWrite path = some value) : some cached = value := by
  obtain ⟨r, hr, rfl⟩ := map_eq_some_iff.mp hvalue
  have hlast := h.last path r hr
  rcases (h.cached path cached hlookup).2 with hnewest | hpending
  · exact hnewest.symm.trans hlast
  · obtain ⟨r', w, hr', hw, hpoint⟩ := updatePending_iff.mp hpending
    obtain ⟨w', hw', hpath⟩ := h.recorded r' (mem_of_find?_eq_some hr')
    cases hw.symm.trans hw'
    have hsame := lastApplied_path hr'
    rw [← hpath] at hsame
    exact absurd (writing_eq_false.mp hidle w (mem_of_getElem? hw) hsame) hpoint

theorem CachedInv.lookUp (hallowed : cacheKeepsUp cfg load s (.lookUp path))
    (hs : cachedStep cfg load s (.lookUp path) = some s') : CachedInv cfg load s' := by
  obtain rfl := some.inj hs
  set g : CachedGet := {
    path
    point := match (databaseLruCacheGet s.lru path).1 with
      | some value => .returned (some value)
      | none => .missed
    expected := s.lastWrite path
    quiet := !s.writing path } with hg
  set t : CachedState :=
    { s with lru := (databaseLruCacheGet s.lru path).2, gets := s.gets ++ [g] } with ht
  have hpaths : ∀ p, p ∈ t.paths ↔ p ∈ s.paths ∨ p = path := by
    intro p
    rw [CachedState.paths, CachedState.paths, ht, map_append, map_singleton,
      ← append_assoc, mem_append, mem_singleton]
  obtain ⟨hvalid, hapart⟩ := h.apart_of_usable hallowed fun p hp => (hpaths p).mp hp
  constructor
  · exact h.trie
  · exact h.lru.get path
  · exact hvalid
  · exact h.accepted
  · exact hapart
  · exact h.head
  · exact h.recorded
  · exact h.last
  · intro p cached hlookup
    rw [ht, lookup_get h.lru] at hlookup
    obtain ⟨⟨q, hq, hqp⟩, hnewest⟩ := h.cached p cached hlookup
    exact ⟨⟨q, (hpaths q).mpr (.inl hq), hqp⟩, hnewest⟩
  · intro g' hg'
    rcases mem_append.mp hg' with hg' | hg'
    · exact (h.gets g' hg').frame fun _ hidle => ⟨hidle, rfl, rfl⟩
    · rw [mem_singleton.mp hg']
      intro hquiet
      have hidle : s.writing path = false := by
        rw [hg, Bool.not_eq_true'] at hquiet
        exact hquiet
      cases hlookup : (databaseLruCacheGet s.lru path).1 with
      | none =>
        simp only [hg, hlookup]
        exact ⟨hidle, rfl⟩
      | some cached =>
        simp only [hg, hlookup]
        rw [get_eq_lookup h.lru] at hlookup
        intro value hvalue
        exact h.hit hlookup hidle hvalue

section Get

variable (hg : s.gets[j]? = some g)

include hg

theorem CachedInv.moveGet {trie : HbtrieNode} {lru : LruCache} {point : CachedGetPoint}
    (htrie : TrieOk load trie)
    (hcontent : ∀ key, contentAt load trie key = contentAt load s.trie key) (hlru : lru.Distinct)
    (hcached : ∀ p value, lru.lookup p = some value → (∃ q ∈ s.paths, componentChunks q =
      componentChunks p) ∧ (newestAt load s.trie (pathChunks p) = some value ∨ s.updatePending p
     )) (hok : CachedGet.Ok load s { g with point }) :
    CachedInv cfg load ({ s with trie, lru }.setGet j g point) := by
  have hpaths : ({ s with trie, lru }.setGet j g point).paths = s.paths :=
    congrArg (s.writes.map CachedWrite.path ++ ·) (map_set_of_eq hg rfl)
  have hnewest : ∀ key, newestAt load trie key = newestAt load s.trie key := by
    intro key
    rw [newestAt, hcontent, newestAt]
  constructor
  · exact htrie
  · exact hlru
  · rw [hpaths]
    exact h.valid
  · exact h.accepted
  · rw [hpaths]
    exact h.apart
  · intro key v older hversions
    exact h.head key v older ((hcontent key).symm.trans hversions)
  · exact h.recorded
  · intro p r hr
    exact (hnewest _).trans (h.last p r hr)
  · rw [hpaths]
    intro p value hlookup
    obtain ⟨hused, hvalue⟩ := hcached p value hlookup
    exact ⟨hused, hvalue.imp_left (hnewest _).trans⟩
  · intro g' hg'
    rcases mem_or_eq_of_mem_set hg' with hg' | rfl
    · exact (h.gets g' hg').frame fun _ hidle => ⟨hidle, rfl, hcontent _⟩
    · exact hok.frame fun _ hidle => ⟨hidle, rfl, hcontent _⟩

theorem CachedInv.readId (hpoint : g.point = .missed) :
    CachedInv cfg load (s.setGet j g (.hasReadId s.mvcc.manager.lastCommittedTxnId)) := by
  refine h.moveGet hg h.trie (fun _ => rfl) h.lru h.cached fun hquiet => ?_
  have hmem := mem_of_getElem? hg
  have hok := h.gets g hmem hquiet
  rw [hpoint] at hok
  refine ⟨hok, ?_⟩
  intro v older hversions
  refine (h.head _ v older hversions).resolve_right ?_
  rintro ⟨w, hw, hkey, hid⟩
  have hsame := h.apart w.path (mem_append_left _ (mem_map_of_mem hw)) g.path
    (path_mem_of_get hmem) hkey
  have hreturned := writing_eq_false.mp hok.1 w hw hsame
  rw [hid] at hreturned
  cases hreturned

theorem CachedInv.find {readTxnId : TransactionId} (hpoint : g.point = .hasReadId readTxnId) :
    CachedInv cfg load ({ s with trie := hbtrieFindAttach load s.trie (pathSteps g.path) }.setGet
      j g (.found (hbtrieFind load s.trie g.path readTxnId))) := by
  obtain ⟨htrie, hcontent⟩ := @hbtrieFindAttach_spec (pathSteps g.path) load s.trie h.trie
  refine h.moveGet hg htrie hcontent h.lru h.cached fun hquiet => ?_
  have hmem := mem_of_getElem? hg
  have hok := h.gets g hmem hquiet
  rw [hpoint] at hok
  obtain ⟨⟨hidle, hexpected⟩, hhead⟩ := hok
  intro value hvalue
  rw [hexpected] at hvalue
  obtain ⟨r, hr, rfl⟩ := map_eq_some_iff.mp hvalue
  rw [← h.last g.path r hr]
  exact hbtrieFind_eq_newestAt (h.valid _ (path_mem_of_get hmem)) hhead

theorem CachedInv.fill {result : Option Bytes} (hpoint : g.point = .found result)
    (hallowed : cacheKeepsUp cfg load s (.fill j entryMemory allocated)) :
    CachedInv cfg load ({ s with
      lru := cacheFound s.lru g.path entryMemory allocated result }.setGet j g
        (.returned result)) := by
  have hmem := mem_of_getElem? hg
  have hpath := path_mem_of_get hmem
  have hok : CachedGet.Ok load s { g with point := .returned result } := by
    intro hquiet
    have hfound := h.gets g hmem hquiet
    rw [hpoint] at hfound
    exact hfound
  cases result with
  | none => exact h.moveGet hg h.trie (fun _ => rfl) h.lru h.cached hok
  | some value =>
    rw [cacheKeepsUp, hg, all_some, hpoint] at hallowed
    have hmay := (mayCache_iff (h.valid _ hpath)).mp hallowed
    refine h.moveGet hg h.trie (fun _ => rfl) (h.lru.put _ _ _ _) ?_ hok
    exact h.put_cached hpath hmay fun _ _ hpending => hpending

end Get

theorem CachedInv.step {a : CachedAction} (hallowed : cacheKeepsUp cfg load s a)
    (hs : cachedStep cfg load s a = some s') : CachedInv cfg load s' := by
  cases a with
  | beginWrite path value =>
    obtain rfl := some.inj hs
    exact h.beginWrite hallowed
  | takeId i clock | register i =>
    obtain ⟨w, hw, hs⟩ := bind_eq_some_iff.mp hs
    split at hs
    · rename_i hpoint
      obtain ⟨mvcc, hmvcc, rfl⟩ := map_eq_some_iff.mp hs
      refine h.move hw ?_ nofun (mvccStep_lastCommitted hmvcc) ?_
      · rw [hpoint]
        nofun
      · rw [hpoint]
        nofun
    · cases hs
  | apply i =>
    obtain ⟨w, hw, hcases⟩ := bind_eq_some_iff.mp hs
    split at hcases
    · next id hpoint => exact h.apply hw hpoint hallowed hs
    · cases hcases
  | commit i =>
    obtain ⟨w, hw, hs⟩ := bind_eq_some_iff.mp hs
    split at hs
    · rename_i id hpoint
      obtain ⟨mvcc, hmvcc, rfl⟩ := map_eq_some_iff.mp hs
      obtain ⟨-, ⟨⟩⟩ := ite_none_right_eq_some.mp hmvcc
      obtain ⟨hle, hid⟩ := le_raiseLastCommitted s.mvcc.manager id
      refine h.move hw ?_ nofun hle ?_
      · rw [hpoint]
        nofun
      · intro id' hid'
        rw [hpoint] at hid'
        cases hid'
        exact hid
    · cases hs
  | updateCache i entryMemory allocated =>
    obtain ⟨w, hw, hcases⟩ := bind_eq_some_iff.mp hs
    split at hcases
    · next hpoint => exact h.updateCache hw hpoint hallowed hs
    · cases hcases
  | lookUp path => exact h.lookUp hallowed hs
  | readId j =>
    obtain ⟨g, hg, hs⟩ := bind_eq_some_iff.mp hs
    split at hs
    · rename_i hpoint
      obtain rfl := some.inj hs
      exact h.readId hg hpoint
    · cases hs
  | find j =>
    obtain ⟨g, hg, hs⟩ := bind_eq_some_iff.mp hs
    split at hs
    · rename_i readTxnId hpoint
      obtain rfl := some.inj hs
      exact h.find hg hpoint
    · cases hs
  | fill j entryMemory allocated =>
    obtain ⟨g, hg, hs⟩ := bind_eq_some_iff.mp hs
    split at hs
    · rename_i result hpoint
      obtain rfl := some.inj hs
      exact h.fill hg hpoint hallowed
    · cases hs

end Steps

/-! ### Runs -/

/-- A database before any call: everything in the trie is committed and the cache is empty. -/
def noCalls (mvcc : MvccState) (trie : HbtrieNode) (maxMemoryBytes numShards : Nat) : CachedState :=
  { mvcc, trie, lru := databaseLruCacheCreate maxMemoryBytes numShards, writes := [], gets := []
    applied := [] }

theorem CachedInv.start (cfg : Config) {load : Loader} {mvcc : MvccState} {trie : HbtrieNode}
    (htrie : TrieOk load trie) (hsettled : ∀ path, Settled load path mvcc trie)
    (maxMemoryBytes numShards : Nat) :
    CachedInv cfg load (noCalls mvcc trie maxMemoryBytes numShards) := by
  constructor
  · exact htrie
  · intro shard hshard
    rw [eq_of_mem_replicate hshard]
    exact nodup_nil
  · exact nofun
  · exact nofun
  · exact nofun
  · intro key v older hversions
    have hkey : pathChunks [⟨key, 0⟩] = key := append_nil key
    refine .inl (hsettled [⟨key, 0⟩] v older ?_)
    rw [hkey]
    exact hversions
  · exact nofun
  · exact nofun
  · intro p value hlookup
    rw [noCalls, lookup_create] at hlookup
    cases hlookup
  · exact nofun

/-- If the cache is only given values that are the newest ones of their paths, or that the write
applied last will replace, a get that has its path to itself returns what the last write wrote. -/
theorem quiet_gets_return_last_write (cfg : Config) (load : Loader) (mvcc : MvccState)
    (trie : HbtrieNode) (htrie : TrieOk load trie)
    (hsettled : ∀ path, Settled load path mvcc trie) (maxMemoryBytes numShards : Nat)
    (s : CachedState)
    (h : Reaches (cachedStep cfg load) (cacheKeepsUp cfg load)
      (noCalls mvcc trie maxMemoryBytes numShards) s) :
    ∀ g ∈ s.gets, g.ServesLastWrite := by
  have hinv : CachedInv cfg load s :=
    h.invariant _ (.start cfg htrie hsettled maxMemoryBytes numShards) fun _ _ _ hinv => hinv.step
  intro g hg result hpoint hquiet
  have hok := hinv.gets g hg hquiet
  rw [hpoint] at hok
  exact hok

def wholeWrite (i : Nat) (path : Path) (value : Option Bytes) : List CachedAction :=
  [.beginWrite path value, .takeId i stoppedClock, .register i, .apply i, .commit i,
    .updateCache i 100 true]

def wholeGet (j : Nat) (path : Path) : List CachedAction :=
  [.lookUp path, .readId j, .find j, .fill j 100 true]

/-- A database that was opened with the value 1 at the path 1, and a cache that has room for one
entry. -/
def openedDatabase : CachedState :=
  noCalls (.initial firstId)
    (runOps defaultConfig noLoader [.insert (bytePath 1) [1] ⟨0, 0, 0⟩]) 100 1

/-- The get at the index had its path to itself and returned this after this was written. -/
def served (j : Nat) (result expected : Option Bytes) (s : CachedState) : Bool :=
  (s.gets[j]?).any fun g => decide (g.point = .returned result) && g.quiet &&
    decide (g.expected = some expected)

/-- A put, a get from the cache, a put of another path that takes its place there, a get from the
trie that fills it again, a delete and a get. -/
def writesInTurn : List CachedAction :=
  wholeWrite 0 (bytePath 1) (some [2]) ++ [.lookUp (bytePath 1)] ++
    wholeWrite 1 (bytePath 2) (some [3]) ++ wholeGet 1 (bytePath 1) ++
      wholeWrite 2 (bytePath 1) none ++ wholeGet 2 (bytePath 1)

theorem quiet_gets_return_last_write_in_turn :
    ∃ s, Reaches (cachedStep defaultConfig noLoader) (cacheKeepsUp defaultConfig noLoader)
        openedDatabase s ∧
      (served 0 (some [2]) (some [2]) s && served 1 (some [2]) (some [2]) s &&
        served 2 none none s) = true ∧
      ∀ g ∈ s.gets, g.ServesLastWrite := by
  have hsafe : SafeRun defaultConfig noLoader [.insert (bytePath 1) [1] ⟨0, 0, 0⟩] :=
    ⟨by decide, by decide⟩
  obtain ⟨htrie, hcontent⟩ := contentAt_runOps hsafe
  have hsettled : ∀ path, Settled noLoader path (.initial firstId)
      (runOps defaultConfig noLoader [.insert (bytePath 1) [1] ⟨0, 0, 0⟩]) := by
    intro path v older hversions
    rw [hcontent, history, filterMap_cons, TrieOp.writeTo] at hversions
    split at hversions
    · rename_i hwrite
      cases hversions
    · rename_i w hwrite
      split at hwrite
      · cases hwrite
        cases hversions
      · cases hwrite
  exact exists_reaches_and writesInTurn (by decide +kernel)
    (quiet_gets_return_last_write defaultConfig noLoader (.initial firstId) _ htrie hsettled 100 1)

/-- A get reads the old value, a put of a new one runs from begin to end, and the get fills the
cache. -/
def fillAfterPut : List CachedAction :=
  [.lookUp (bytePath 1), .readId 0, .find 0] ++ wholeWrite 0 (bytePath 1) (some [2]) ++
    [.fill 0 100 true, .lookUp (bytePath 1)]

/-- A get reads the old value, a delete runs from begin to end, and the get fills the cache. -/
def fillAfterDelete : List CachedAction :=
  [.lookUp (bytePath 1), .readId 0, .find 0] ++ wholeWrite 0 (bytePath 1) none ++
    [.fill 0 100 true, .lookUp (bytePath 1)]

def putsCrossing : List CachedAction :=
  [.beginWrite (bytePath 1) (some [2]), .beginWrite (bytePath 1) (some [3]),
    .takeId 0 stoppedClock, .register 0, .apply 0, .takeId 1 stoppedClock, .register 1, .apply 1,
    .commit 0, .commit 1, .updateCache 1 100 true, .updateCache 0 100 true, .lookUp (bytePath 1)]

/-- A get whose path no one writes returns 1 after a put of 2 or a delete has returned, and 2
after a later put of 3. -/
theorem cache_serves_stale_values :
    (∃ s, Reaches (cachedStep defaultConfig noLoader) always openedDatabase s ∧
      served 1 (some [1]) (some [2]) s = true) ∧
    (∃ s, Reaches (cachedStep defaultConfig noLoader) always openedDatabase s ∧
      served 1 (some [1]) none s = true) ∧
    ∃ s, Reaches (cachedStep defaultConfig noLoader) always openedDatabase s ∧
      served 0 (some [2]) (some [3]) s = true := by
  refine ⟨?_, ?_, ?_⟩
  · exact exists_reaches fillAfterPut (by decide +kernel)
  · exact exists_reaches fillAfterDelete (by decide +kernel)
  · exact exists_reaches putsCrossing (by decide +kernel)

end WaveDB.Database
