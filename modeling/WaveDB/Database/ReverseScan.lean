import WaveDB.Database.RangeScan
import WaveDB.Database.ReverseWalk

/-!
Bounded reverse scans.

`reverse_scan_exact_iff` says when a bounded reverse scan returns exactly its range, greatest key
first, in a database whose visible keys are in the same order as their chunks: the seek must leave
every key of the range to be visited, no component may be empty, and where the seek gives up with
a pending root frame, no key that is misread behind the last value of the root may be reported in
place of another one or end the scan.
-/

namespace WaveDB.Database

open WaveDB.Basis HBTrie Workers List Option

/-- The order of the chunks and `path_compare` agree on the visible keys. -/
def Db.OrdersAgree (db : Db) : Prop :=
  ∀ p q value value', db.Shows p value → db.Shows q value' →
    (db.chunksOf p < db.chunksOf q ↔
      pathCompare (pathOf db.chunkSize p) (pathOf db.chunkSize q) < 0)

def BeforeStart (startPath : Option Path) (path : Path) : Prop :=
  ∃ bound ∈ startPath, pathCompare path bound < 0

def Db.readPath (db : Db) (endPath : Option Path) (p : List Bytes) : Path :=
  db.pathFrom 0 (endReads db.load db.root endPath) p

/-- A reverse scan from the end path reads other chunks than those of the key. -/
def Db.Misread (db : Db) (endPath : Option Path) (p : List Bytes) : Prop :=
  endReads db.load db.root endPath (db.chunksOf p) ≠ db.chunksOf p

/-- With enough fuel the scan returns the expected keys with their values, greatest first. -/
def ReturnsDescending (db : Db) (scan : Nat → Option (List ScanResult))
    (expected : List Bytes → Bytes → Prop) : Prop :=
  ∃ results n, (∀ fuel, n ≤ fuel → scan fuel = some results) ∧
    results.Pairwise (fun a b => pathCompare b.path a.path < 0) ∧
    ∀ r, r ∈ results ↔ ∃ p value, expected p value ∧
      r = ⟨db.chunksOf p, pathOf db.chunkSize p, value⟩

/-! ### Misread keys -/

section Misread

variable {load : Loader} {root : HbtrieNode} {endPath : Option Path} {path : Path}
  {last k : Chunk} {key : List Chunk}

theorem keyBefore_ne {bnode : Bnode} (h : bnode.Sorted) (k : Chunk) :
    keyBefore bnode k ≠ some k := by
  obtain ⟨lower, upper, hentries, hindex, hlower, -⟩ := h.bnodeFind_split k
  rw [keyBefore, hindex]
  intro hkey
  obtain ⟨e, he, hekey⟩ := map_eq_some_iff.mp hkey
  obtain ⟨hget, -⟩ := filter_eq_some_iff.mp he
  cases hlength : lower.length with
  | zero =>
    rw [hlength] at hget
    cases hget
  | succ m =>
    rw [hlength] at hget
    have hget : bnode.entries[m]? = some e := hget
    rw [hentries, getElem?_append_left (by omega)] at hget
    exact (hlower e (mem_of_getElem? hget)).ne hekey

variable (hsorted : root.btree.Sorted)

include hsorted

theorem endReads_ne_iff (hoverrun : endPath.bind (endOverrun load root) = some last) :
    endReads load root endPath (k :: key) ≠ k :: key ↔ last < k := by
  rw [endReads, hoverrun]
  change readBehind root.btree last (k :: key) ≠ k :: key ↔ _
  rw [readBehind]
  split
  · rename_i hlt
    refine ⟨fun _ => hlt, fun _ heq => ?_⟩
    cases hbefore : keyBefore root.btree k with
    | none =>
      rw [hbefore] at heq
      exact absurd (congrArg length heq) (by simp)
    | some k' =>
      rw [hbefore] at heq
      cases heq
      exact keyBefore_ne hsorted k hbefore
  · next hlt => exact ⟨fun h => absurd rfl h, fun h => absurd h hlt⟩

/-- The entries behind the one that the seek goes on from are behind the chunk. -/
theorem endStale_chunk {c : Chunk} {steps : List PathStep}
    (hbails : endBails load root (.chunk c :: steps))
    (hstale : endStale load root (.chunk c :: steps)) :
    ∃ t ∈ root.btree.entries, t.storedValue.isSome ∧
      ∀ e ∈ root.btree.entries, t.key < e.key → c < e.key := by
  obtain ⟨hlevel, htarget⟩ := Bool.and_eq_true_iff.mp hstale
  have hlevel := of_decide_eq_true hlevel
  obtain ⟨t, ht, hvalue⟩ := (any_eq_true _ _).mp htarget
  rw [endBails, ht] at hbails
  have hlast : steps.isEmpty = false := by
    simpa using (Bool.and_eq_true_iff.mp hbails).1
  rw [hlast, endEntry, endLeaf_of_leaf hlevel, bind_some] at ht
  obtain ⟨index, hindex, hget⟩ := bind_eq_some_iff.mp ht
  refine ⟨t, mem_of_getElem? hget, hvalue, fun e he hlt => ?_⟩
  obtain ⟨lower, upper, hentries, hfound, hlower, hupper⟩ := hsorted.bnodeFind_split c
  cases hfind : (bnodeFind root.btree c).1 with
  | some x =>
    have hx := (hsorted.bnodeFind_eq_some c x).mp hfind
    have hat : some lower.length = some index := by
      rw [← hindex, endIndex, hfind, hfound]
      rfl
    have hget' : root.btree.entries[lower.length]? = some x := by simp [hentries, hfind]
    cases some.inj hat
    cases some.inj (hget.symm.trans hget')
    rwa [hx.2] at hlt
  | none =>
    have hat : decrement lower.length = some index := by
      rw [← hindex, endIndex, hfind, hfound]
      rfl
    rw [hfind, toList_none, nil_append] at hentries
    rw [hentries, mem_append] at he
    rcases he with he | he
    · -- The entry is the last one before the chunk.
      exfalso
      rcases eq_nil_or_concat lower with rfl | ⟨before, x, rfl⟩
      · cases hat
      · rw [concat_eq_append] at hat hentries he
        rw [length_append] at hat
        cases hat
        have hget' : root.btree.entries[before.length]? = some x := by simp [hentries]
        cases some.inj (hget.symm.trans hget')
        have hpair : Ascending BnodeEntry.key ((before ++ [t]) ++ upper) := hentries ▸ hsorted
        have hbefore := (pairwise_append.mp (pairwise_append.mp hpair).1).2.2
        rcases mem_append.mp he with he | he
        · exact lt_asymm hlt (hbefore e he t (mem_singleton_self t))
        · rw [mem_singleton.mp he] at hlt
          exact lt_irrefl _ hlt
    · exact hupper e he

theorem endOverrun_behind (h : endOverrun load root path = some last) :
    ∃ identifier rest c chunks, path = identifier :: rest ∧ identifier.chunks = c :: chunks ∧
      ∀ e ∈ root.btree.entries, last < e.key → c < e.key := by
  unfold endOverrun at h
  split at h
  · rename_i hboth
    obtain ⟨hbails, hstale⟩ := Bool.and_eq_true_iff.mp hboth
    cases path with
    | nil => cases hbails
    | cons identifier rest =>
      obtain ⟨hchunks, hstale⟩ := Bool.and_eq_true_iff.mp hstale
      have hne : identifier.chunks.isEmpty = false := by simpa using hchunks
      have hbails : endBails load root
          (identifier.chunks.map PathStep.chunk ++ pathSteps rest) = true := by
        have hbails : (identifier.chunks.isEmpty || endBails load root
          (identifier.chunks.map PathStep.chunk ++ pathSteps rest)) = true := hbails
        rwa [hne, Bool.false_or] at hbails
      cases hchunk : identifier.chunks with
      | nil =>
        rw [hchunk] at hne
        cases hne
      | cons c chunks =>
        rw [hchunk] at hbails
        rw [hchunk] at hstale
        obtain ⟨t, ht, hvalue, hbehind⟩ := endStale_chunk hsorted hbails hstale
        refine ⟨identifier, rest, c, chunks, rfl, hchunk, fun e he hlt => hbehind e he ?_⟩
        obtain ⟨lower, v, mid, hsplit, -, hmid, hlastKey⟩ := exists_last_value ht hvalue
        have hlast : last = v.key := by
          rw [h] at hlastKey
          split at hlastKey
          · cases hlastKey
          · exact some.inj hlastKey
        have hpair : Ascending BnodeEntry.key (lower ++ v :: mid) := hsplit ▸ hsorted
        rw [hsplit, mem_append, mem_cons] at ht
        rcases ht with ht | rfl | ht
        · have hbefore := (pairwise_append.mp hpair).2.2 t ht v mem_cons_self
          exact hbefore.trans (hlast ▸ hlt)
        · exact hlast ▸ hlt
        · rw [hmid t ht] at hvalue
          cases hvalue
  · cases h

end Misread

section Keys

variable {db : Db} {depth : Nat} {startPath endPath : Option Path} {p q : List Bytes}
  {content content' : Content} {k : Chunk} {key : List Chunk}

theorem Db.Stores.root_entry (h : db.Stores p content)
    (htree : SearchTree db.load 0 db.root.btree ⊥ ⊤) (hchunks : db.chunksOf p = k :: key) :
    ∃ e ∈ db.root.btree.entries, e.key = k := by
  obtain ⟨pathMeta, hitem, -⟩ := h
  rw [hchunks] at hitem
  obtain ⟨x, hx, -⟩ := bind_eq_some_iff.mp hitem
  have hfind : ∃ e, bnodeFindLeafLazy db.load db.root.btree k = some e := by
    cases key with
    | nil => exact ⟨x, hx⟩
    | cons d key =>
      obtain ⟨next, hnext, -⟩ := bind_eq_some_iff.mp hx
      obtain ⟨e, he, -⟩ := bind_eq_some_iff.mp hnext
      exact ⟨e, he⟩
  obtain ⟨e, he⟩ := hfind
  exact ⟨e, (htree.find_iff k e).mp he⟩

theorem componentChunks_of_chunksOf (h : db.chunksOf p = k :: key) :
    ∃ tail components, componentChunks (pathOf db.chunkSize p) = (k :: tail) :: components := by
  cases p with
  | nil => cases h
  | cons data p =>
    obtain ⟨c, tail, hc⟩ := exists_cons_of_ne_nil (identifierCreate_chunks_ne_nil db.chunkSize data)
    have hfirst : db.chunksOf (data :: p) = (identifierCreate data db.chunkSize).chunks ++
        db.chunksOf p := rfl
    rw [hfirst, hc] at h
    cases h
    exact ⟨tail, componentChunks (pathOf db.chunkSize p), by rw [← hc]; rfl⟩

theorem Db.Misread.overrun (h : db.Misread endPath p) :
    ∃ last, endPath.bind (endOverrun db.load db.root) = some last := by
  cases hoverrun : endPath.bind (endOverrun db.load db.root) with
  | none =>
    refine absurd ?_ h
    rw [endReads, hoverrun]
  | some last => exact ⟨last, rfl⟩

variable (hdb : db.Ok depth)

include hdb

theorem Db.Ok.root_leaf {last : Chunk} (h : endPath.bind (endOverrun db.load db.root) = some last) :
    SearchTree db.load 0 db.root.btree ⊥ ⊤ := by
  obtain ⟨n, below, -, htree, -⟩ := hdb.walk.level
  obtain ⟨path, -, hpath⟩ := bind_eq_some_iff.mp h
  unfold endOverrun at hpath
  split at hpath
  · rename_i hboth
    have hlevel := (endStale_spec (Bool.and_eq_true_iff.mp hboth).2).1
    obtain rfl : n = 0 := by
      have hn := htree.level_eq
      omega
    exact htree
  · cases hpath

/-- The keys whose first chunk is behind the overrun are misread. -/
theorem Db.Ok.misread_iff {last : Chunk}
    (h : endPath.bind (endOverrun db.load db.root) = some last) (hp : db.Stores p content) :
    ∃ k key, db.chunksOf p = k :: key ∧ (db.Misread endPath p ↔ last < k) := by
  obtain ⟨k, key, hk⟩ := exists_cons_of_ne_nil hp.chunksOf_ne_nil
  refine ⟨k, key, hk, ?_⟩
  rw [Misread, hk, endReads_ne_iff (hdb.root_leaf h).sorted h]

variable (hp : db.Stores p content)

include hp

theorem Db.Ok.not_inRange (h : db.Misread endPath p) :
    ¬ InRange startPath endPath (pathOf db.chunkSize p) := by
  obtain ⟨last, hoverrun⟩ := h.overrun
  have htree := hdb.root_leaf hoverrun
  obtain ⟨k, key, hchunks, hmis⟩ := hdb.misread_iff hoverrun hp
  obtain ⟨path, hpath, hlast⟩ := bind_eq_some_iff.mp hoverrun
  obtain ⟨identifier, rest, c, chunks, rfl, hc, hbehind⟩ := endOverrun_behind htree.sorted hlast
  obtain ⟨e, he, rfl⟩ := hp.root_entry htree hchunks
  have hck := hbehind e he (hmis.mp h)
  rintro ⟨-, hend⟩
  have hcompare := (pathCompare_lt _ _).mp (hend _ hpath)
  obtain ⟨tail, components, hcomponents⟩ := componentChunks_of_chunksOf hchunks
  rw [hcomponents, componentChunks, map_cons, hc] at hcompare
  rcases cons_lt_cons_iff.mp hcompare with hfirst | ⟨hfirst, -⟩
  · rcases cons_lt_cons_iff.mp hfirst with hkc | ⟨hkc, -⟩
    · exact lt_asymm hck hkc
    · exact hck.ne' hkc
  · exact hck.ne' (cons.inj hfirst).1

/-- What is behind a misread key is misread, and visited. -/
theorem Db.Misread.of_lt (hq : db.Stores q content') (h : db.Misread endPath p)
    (hlt : db.chunksOf p < db.chunksOf q) : db.Misread endPath q := by
  obtain ⟨last, hoverrun⟩ := h.overrun
  obtain ⟨k, key, hk, hmis⟩ := hdb.misread_iff hoverrun hp
  obtain ⟨k', key', hk', hmis'⟩ := hdb.misread_iff hoverrun hq
  rw [hmis] at h
  rw [hmis']
  rw [hk, hk'] at hlt
  rcases cons_lt_cons_iff.mp hlt with hfirst | ⟨hfirst, -⟩
  · exact h.trans hfirst
  · exact hfirst ▸ h

theorem Db.Misread.visited (h : db.Misread endPath p) :
    endVisits db.load db.root endPath (db.chunksOf p) = true := by
  obtain ⟨last, hoverrun⟩ := h.overrun
  obtain ⟨k, key, hk, hmis⟩ := hdb.misread_iff hoverrun hp
  rw [hmis] at h
  obtain ⟨path, rfl, hlast⟩ := bind_eq_some_iff.mp hoverrun
  rw [endVisits, all_some, hlast, hk]
  cases key with
  | nil => rfl
  | cons d key => simp [notUnder, h.ne']

/-- Keys that are read as they are stand before the misread ones. -/
theorem Db.Misread.lt_of_not (hq : db.Stores q content') (hread : ¬ db.Misread endPath p)
    (h : db.Misread endPath q) : db.chunksOf p < db.chunksOf q := by
  obtain ⟨last, hoverrun⟩ := h.overrun
  obtain ⟨k, key, hk, hmis⟩ := hdb.misread_iff hoverrun hp
  obtain ⟨k', key', hk', hmis'⟩ := hdb.misread_iff hoverrun hq
  rw [hmis, not_lt] at hread
  rw [hk, hk']
  exact cons_lt_cons_iff.mpr (.inl (hread.trans_lt (hmis'.mp h)))

end Keys

/-! ### What a bounded reverse scan reports -/

section Range

variable {db : Db} {depth : Nat} {startPath endPath : Option Path} {i : StoredItem} {p : List Bytes}
  {r : ScanResult} {path : Path} {cs : ChunkSize} {iter : DatabaseIterator} {leaf : ScanLeaf}

theorem withinBoundsReverse_stop :
    withinBoundsReverse startPath endPath path = .stop ↔ BeforeStart startPath path :=
  (boundsCheck_stop _ _).trans (by simp [Option.any_eq_true, BeforeStart])

theorem withinBoundsReverse_inside :
    withinBoundsReverse startPath endPath path = .inside ↔ InRange startPath endPath path :=
  (boundsCheck_inside _ _).trans (and_congr notBefore notBehind)

theorem judgePrev_stop : judgePrev cs iter leaf = .stop ↔
      (∃ value, shownValue iter.readTxnId leaf.collected.content = some value) ∧
        BeforeStart iter.startPath (buildPath cs iter.prefixSkip leaf.collected) := by
  rw [← @withinBoundsReverse_stop iter.startPath iter.endPath, judgePrev]
  cases shownValue iter.readTxnId leaf.collected.content <;>
    cases withinBoundsReverse iter.startPath iter.endPath
      (buildPath cs iter.prefixSkip leaf.collected) <;> simp

theorem judgePrev_report : judgePrev cs iter leaf = .report r ↔
      ∃ value, shownValue iter.readTxnId leaf.collected.content = some value ∧
        InRange iter.startPath iter.endPath (buildPath cs iter.prefixSkip leaf.collected) ∧
        r = ⟨leaf.source, buildPath cs iter.prefixSkip leaf.collected, value⟩ := by
  rw [← withinBoundsReverse_inside, judgePrev]
  cases shownValue iter.readTxnId leaf.collected.content <;>
    cases withinBoundsReverse iter.startPath iter.endPath
      (buildPath cs iter.prefixSkip leaf.collected) <;> simp [eq_comm]

def reverseLeaves (db : Db) (depth : Nat) (endPath : Option Path) : List ScanLeaf :=
  (db.leaves depth (endVisits db.load db.root endPath) (endReads db.load db.root endPath)).reverse

theorem reverseLeaves_descending (hdb : db.Ok depth) :
    (reverseLeaves db depth endPath).Pairwise fun a b => b.source < a.source :=
  pairwise_reverse.mpr hdb.leaves_ascending

/-- A reverse scan with these bounds emits the key. -/
structure Db.ReverseEmits (db : Db) (skip : Nat) (startPath endPath : Option Path)
    (p : List Bytes) : Prop where
  seek : endVisits db.load db.root endPath (db.chunksOf p) = true
  inside : InRange startPath endPath (db.pathFrom skip (endReads db.load db.root endPath) p)
  unstopped : ∀ q value, db.Shows q value →
    endVisits db.load db.root endPath (db.chunksOf q) = true →
    db.chunksOf p < db.chunksOf q →
    ¬ BeforeStart startPath (db.pathFrom skip (endReads db.load db.root endPath) q)

/-- What a reverse scan reports, with any number of components cut off. -/
theorem mem_reverse_results (hdb : db.Ok depth) (skip : Nat) : r ∈ sift (judgePrev db.chunkSize
          { databaseScanStartReverse db startPath endPath with prefixSkip := skip })
        (reverseLeaves db depth endPath) ↔
      ∃ p value, db.Shows p value ∧ db.ReverseEmits skip startPath endPath p ∧
        r = ⟨db.chunksOf p, db.pathFrom skip (endReads db.load db.root endPath) p, value⟩ := by
  refine (hdb.mem_sift skip (InRange startPath endPath)
    (fun content path => (∃ value, shownValue (scanReadTxnId db) content = some value) ∧
      BeforeStart startPath path) (· > ·) (fun leaf r => ?_) (fun leaf => ?_)
    (fun _ _ => lt_asymm) (fun _ => mem_reverse) (reverseLeaves_descending hdb)).trans
    (exists_congr fun p => exists_congr fun value => ?_)
  · exact judgePrev_report
  · exact judgePrev_stop
  constructor
  · rintro ⟨hshows, hvisits, hrange, hunstopped, rfl⟩
    refine ⟨hshows, ⟨hvisits, hrange, ?_⟩, rfl⟩
    rintro q value' ⟨content, hq, hshown⟩ hqvisits hlt hbefore
    exact hunstopped q content hq hqvisits hlt ⟨⟨value', hshown⟩, hbefore⟩
  · rintro ⟨hshows, ⟨hvisits, hrange, hunstopped⟩, rfl⟩
    refine ⟨hshows, hvisits, hrange, ?_, rfl⟩
    rintro q content hq hqvisits hlt ⟨⟨value', hshown⟩, hbefore⟩
    exact hunstopped q value' ⟨content, hq, hshown⟩ hqvisits hlt hbefore

/-- The reports are in the descending order of the chunk sequences. -/
theorem reverse_results_descending (hdb : db.Ok depth) (skip : Nat) : (sift (judgePrev db.chunkSize
        { databaseScanStartReverse db startPath endPath with prefixSkip := skip })
      (reverseLeaves db depth endPath)).Pairwise fun a b => b.source < a.source := by
  refine pairwise_sift (fun a b r s hlt hr hs => ?_) (reverseLeaves_descending hdb)
  obtain ⟨value, -, -, rfl⟩ := judgePrev_report.mp hr
  obtain ⟨value', -, -, rfl⟩ := judgePrev_report.mp hs
  exact hlt

/-- When a bounded reverse scan goes well: every key of the range has components that are not
empty and is visited, and no misread key ends the scan before them or is reported. -/
structure Db.ReverseSafe (db : Db) (startPath endPath : Option Path) : Prop where
  visited : ∀ p value, db.Shows p value → InRange startPath endPath (pathOf db.chunkSize p) →
    (∀ data ∈ p, data ≠ []) ∧ endVisits db.load db.root endPath (db.chunksOf p) = true
  unstopped : ∀ p value, db.Shows p value → InRange startPath endPath (pathOf db.chunkSize p) →
    ∀ q value', db.Shows q value' → db.Misread endPath q →
      ¬ BeforeStart startPath (db.readPath endPath q)
  unreported : ∀ q value, db.Shows q value → db.Misread endPath q →
    InRange startPath endPath (db.readPath endPath q) →
    ∃ q' value', db.Shows q' value' ∧ db.Misread endPath q' ∧ db.chunksOf q < db.chunksOf q' ∧
      BeforeStart startPath (db.readPath endPath q')

theorem Db.OrdersAgree.not_beforeStart (hagree : db.OrdersAgree) {q : List Bytes}
    {value value' : Bytes} (hp : db.Shows p value) (hq : db.Shows q value')
    (hrange : InRange startPath endPath (pathOf db.chunkSize p))
    (hread : ¬ db.Misread endPath q) (hlt : db.chunksOf p < db.chunksOf q) :
    ¬ BeforeStart startPath (db.readPath endPath q) := by
  rintro ⟨bound, hbound, hbefore⟩
  have hpq := (pathCompare_lt _ _).mp ((hagree p q value value' hp hq).mp hlt)
  obtain ⟨content, hstores, -⟩ := hq
  rw [readPath, hstores.pathCompare_pathFrom (not_not.mp hread), pathCompare_lt] at hbefore
  have hstart := (pathCompare_nonneg _ _).mp (hrange.1 bound hbound)
  exact absurd (hpq.trans hbefore) (not_lt.mpr hstart)

/-- Reports that are the keys of the range come from a scan that goes well. -/
theorem reverseSafe_of_mem (hdb : db.Ok depth)
    (hmem : ∀ r, r ∈ sift (judgePrev db.chunkSize (databaseScanStartReverse db startPath endPath))
        (reverseLeaves db depth endPath) ↔
      ∃ p value, (db.Shows p value ∧ InRange startPath endPath (pathOf db.chunkSize p)) ∧
        r = ⟨db.chunksOf p, pathOf db.chunkSize p, value⟩) : db.ReverseSafe startPath endPath := by
  have hreported : ∀ p value, db.Shows p value →
      InRange startPath endPath (pathOf db.chunkSize p) → ¬ db.Misread endPath p ∧
        pathOf db.chunkSize p = db.readPath endPath p ∧
        endVisits db.load db.root endPath (db.chunksOf p) ∧
        ∀ q value', db.Shows q value' → endVisits db.load db.root endPath (db.chunksOf q) →
          db.chunksOf p < db.chunksOf q → ¬ BeforeStart startPath (db.readPath endPath q) := by
    intro p value hshows hrange
    obtain ⟨q, value', hq, ⟨hvisits, -, hunstopped⟩, heq⟩ :=
      (mem_reverse_results hdb 0).mp ((hmem _).mpr ⟨p, value, ⟨hshows, hrange⟩, rfl⟩)
    obtain ⟨hflat, hpath, -⟩ := ScanResult.mk.inj heq
    obtain rfl := hshows.unique hq hflat
    obtain ⟨content, hp, -⟩ := hshows
    exact ⟨fun hmis => hdb.not_inRange hp hmis hrange, hpath, hvisits, hunstopped⟩
  constructor
  · intro p value hshows hrange
    obtain ⟨hread, hpath, hvisits, -⟩ := hreported p value hshows hrange
    obtain ⟨content, hp, -⟩ := hshows
    rw [Db.readPath, hp.pathFrom_zero (not_not.mp hread)] at hpath
    exact ⟨nonempty_of_reported hpath, hvisits⟩
  · intro p value hshows hrange q value' hq hmis
    obtain ⟨hread, -, -, hunstopped⟩ := hreported p value hshows hrange
    obtain ⟨content, hp, -⟩ := hshows
    obtain ⟨content', hq', hshown'⟩ := hq
    exact hunstopped q value' ⟨content', hq', hshown'⟩ (hmis.visited hdb hq')
      (hmis.lt_of_not hdb hp hq' hread)
  · intro q value hshows hmis hrange
    by_contra hnone
    push Not at hnone
    obtain ⟨content, hq, hshown⟩ := hshows
    have hresult : ScanResult.mk (db.chunksOf q) (db.readPath endPath q) value ∈
        sift (judgePrev db.chunkSize (databaseScanStartReverse db startPath endPath))
          (reverseLeaves db depth endPath) := by
      refine (mem_reverse_results hdb 0).mpr ⟨q, value, ⟨content, hq, hshown⟩,
        ⟨hmis.visited hdb hq, hrange, ?_⟩, rfl⟩
      rintro q' value' ⟨content', hq', hshown'⟩ - hlt
      exact hnone q' value' ⟨content', hq', hshown'⟩ (hmis.of_lt hdb hq hq' hlt) hlt
    obtain ⟨p, value', ⟨⟨content', hp, -⟩, hprange⟩, heq⟩ := (hmem _).mp hresult
    obtain ⟨rfl, -⟩ := hq.unique hp (ScanResult.mk.inj heq).1
    exact hdb.not_inRange hq hmis hprange

/-- A scan that goes well reports the keys of the range. -/
theorem Db.ReverseSafe.mem_results (hsafe : db.ReverseSafe startPath endPath) (hdb : db.Ok depth)
    (hagree : db.OrdersAgree) (r : ScanResult) :
    r ∈ sift (judgePrev db.chunkSize (databaseScanStartReverse db startPath endPath))
        (reverseLeaves db depth endPath) ↔
      ∃ p value, (db.Shows p value ∧ InRange startPath endPath (pathOf db.chunkSize p)) ∧
        r = ⟨db.chunksOf p, pathOf db.chunkSize p, value⟩ := by
  refine (mem_reverse_results hdb 0).trans ?_
  constructor
  · rintro ⟨p, value, ⟨content, hp, hshown⟩, ⟨-, hrange, hunstopped⟩, rfl⟩
    have hshows : db.Shows p value := ⟨content, hp, hshown⟩
    by_cases hmis : db.Misread endPath p
    · obtain ⟨q, value', ⟨content', hq, hshown'⟩, hqmis, hlt, hbefore⟩ :=
        hsafe.unreported p value hshows hmis hrange
      exact absurd hbefore (hunstopped q value' ⟨content', hq, hshown'⟩ (hqmis.visited hdb hq) hlt)
    · have hrange' := (hp.inRange_pathFrom (not_not.mp hmis)).mp hrange
      refine ⟨p, value, ⟨hshows, hrange'⟩, ?_⟩
      rw [hp.pathFrom_zero (not_not.mp hmis),
        map_reportedComponent (hsafe.visited p value hshows hrange').1]
  · rintro ⟨p, value, ⟨hshows, hrange⟩, rfl⟩
    obtain ⟨hne, hvisits⟩ := hsafe.visited p value hshows hrange
    have hunstopped := hsafe.unstopped p value hshows hrange
    obtain ⟨content, hp, hshown⟩ := hshows
    have hread : ¬ db.Misread endPath p := fun hmis => hdb.not_inRange hp hmis hrange
    refine ⟨p, value, ⟨content, hp, hshown⟩,
      ⟨hvisits, (hp.inRange_pathFrom (not_not.mp hread)).mpr hrange,
        fun q value' hq _ hlt => ?_⟩, ?_⟩
    · by_cases hmis : db.Misread endPath q
      · exact hunstopped q value' hq hmis
      · exact hagree.not_beforeStart ⟨content, hp, hshown⟩ hq hrange hmis hlt
    · rw [hp.pathFrom_zero (not_not.mp hread), map_reportedComponent hne]

/-- A bounded reverse scan returns exactly the keys of its range, greatest first, when it goes
well. -/
theorem reverse_scan_exact_iff (db : Db) (depth : Nat) (hdb : db.Ok depth)
    (hagree : db.OrdersAgree) (startPath endPath : Option Path) :
    ReturnsDescending db
        (fun fuel => scanAllReverse db fuel (databaseScanStartReverse db startPath endPath))
        (fun p value => db.Shows p value ∧ InRange startPath endPath (pathOf db.chunkSize p)) ↔
      db.ReverseSafe startPath endPath := by
  obtain ⟨m, hm⟩ :=
    (visits_scanPrev (visits_databaseScanStartReverse hdb.walk startPath endPath)).collect
  constructor
  · rintro ⟨results, n, hn, -, hmem⟩
    obtain rfl := enough_unique hn hm
    exact reverseSafe_of_mem hdb hmem
  · intro hsafe
    have hmem := hsafe.mem_results hdb hagree
    refine ⟨_, m, hm, ?_, hmem⟩
    refine (reverse_results_descending hdb 0).imp_of_mem fun {a b} ha hb hlt => ?_
    obtain ⟨p, value, ⟨hp, -⟩, rfl⟩ := (hmem a).mp ha
    obtain ⟨q, value', ⟨hq, -⟩, rfl⟩ := (hmem b).mp hb
    exact (hagree q p value' value hq hp).mp hlt

end Range

/-! ### Examples -/

/-- `aaaabbbb`. -/
def lowKey : List Bytes := [[97, 97, 97, 97, 98, 98, 98, 98]]

/-- `aaaazzzz`. -/
def highKey : List Bytes := [[97, 97, 97, 97, 122, 122, 122, 122]]

def pairPaths : Set (List Bytes) := {p | p = lowKey ∨ p = highKey}

def pairWrites : List TrieOp :=
  [.insert (pathOf defaultChunkSize lowKey) [1] ⟨0, 0, 1⟩,
    .insert (pathOf defaultChunkSize highKey) [2] ⟨0, 0, 2⟩]

def pairDb : Db := memoryDb pairWrites ⟨0, 0, 2⟩

theorem trieFrom_pairWrites : TrieFrom defaultChunkSize noLoader pairPaths pairDb.root := by
  refine trieFrom_runOps ⟨by decide, by decide⟩ fun op hop => ?_
  simp only [pairWrites, mem_cons, not_mem_nil, or_false] at hop
  rcases hop with rfl | rfl
  · exact ⟨_, .inl rfl, rfl⟩
  · exact ⟨_, .inr rfl, rfl⟩

theorem pairDb_ok : ∃ depth, pairDb.Ok depth := ok_of_trieFrom trieFrom_pairWrites rfl

theorem pairDb_ordersAgree : pairDb.OrdersAgree := by
  rintro p q value value' ⟨content, hp, -⟩ ⟨content', hq, -⟩
  have hp : p ∈ pairPaths := mem_of_stores trieFrom_pairWrites hp
  have hq : q ∈ pairPaths := mem_of_stores trieFrom_pairWrites hq
  rcases hp with rfl | rfl
  · rcases hq with rfl | rfl
    · decide +kernel
    · decide +kernel
  · rcases hq with rfl | rfl
    · decide +kernel
    · decide +kernel

/-- Up to `aaaazzzz`: the other key is returned. -/
theorem reverse_scan_exact_pair : ReturnsDescending pairDb (fun fuel => scanAllReverse pairDb fuel
        (databaseScanStartReverse pairDb none (some (pathOf defaultChunkSize highKey))))
      (fun p value => pairDb.Shows p value ∧
        InRange none (some (pathOf defaultChunkSize highKey)) (pathOf defaultChunkSize p)) := by
  obtain ⟨depth, hdb⟩ := pairDb_ok
  have hread : ∀ q, ¬ pairDb.Misread (some (pathOf defaultChunkSize highKey)) q := by
    intro q hmis
    obtain ⟨last, hlast⟩ := hmis.overrun
    have hnone : (some (pathOf defaultChunkSize highKey)).bind
        (endOverrun pairDb.load pairDb.root) = none := by decide +kernel
    cases hnone.symm.trans hlast
  refine (reverse_scan_exact_iff pairDb depth hdb pairDb_ordersAgree none _).mpr ⟨?_, ?_, ?_⟩
  · rintro p value ⟨content, hstores, -⟩ hrange
    have hp : p ∈ pairPaths := mem_of_stores trieFrom_pairWrites hstores
    rcases hp with rfl | rfl
    · exact ⟨by decide, by decide +kernel⟩
    · exact absurd (hrange.2 _ rfl) (by decide +kernel)
  · intro p value hp hrange q value' hq hmis
    exact absurd hmis (hread q)
  · intro q value hq hmis
    exact absurd hmis (hread q)

/-- `bbbbcccc`. -/
def beyond : Path := pathOf defaultChunkSize [[98, 98, 98, 98, 99, 99, 99, 99]]

/-- Up to `bbbbcccc`: the seek goes on below `aaaa` and takes `aaaazzzz` for a key behind the
end. -/
theorem reverse_scan_drops_key : (∃ depth, pairDb.Ok depth) ∧ pairDb.OrdersAgree ∧
      ¬ ReturnsDescending pairDb (fun fuel => scanAllReverse pairDb fuel
          (databaseScanStartReverse pairDb none (some beyond)))
        (fun p value => pairDb.Shows p value ∧
          InRange none (some beyond) (pathOf defaultChunkSize p)) := by
  refine ⟨pairDb_ok, pairDb_ordersAgree, ?_⟩
  rintro ⟨results, n, hn, -, hmem⟩
  have hrun : scanAllReverse pairDb 20 (databaseScanStartReverse pairDb none (some beyond)) =
      some [⟨pairDb.chunksOf lowKey, pathOf defaultChunkSize lowKey, [1]⟩] := by decide +kernel
  obtain rfl := collect_unique hrun hn
  have hitem : itemAt pairDb.load pairDb.root (pairDb.chunksOf highKey) =
      some (.legacy [2] ⟨0, 0, 2⟩, [⟨2, 8⟩]) := by decide +kernel
  have hshows : pairDb.Shows highKey [2] :=
    ⟨_, ⟨_, hitem, rfl, .inl (by decide +kernel)⟩, rfl⟩
  have hrange : InRange none (some beyond) (pathOf defaultChunkSize highKey) := by decide +kernel
  have hlost := (hmem _).mpr ⟨_, _, ⟨hshows, hrange⟩, rfl⟩
  exact absurd hlost (by decide +kernel)

/-- `aaaa`, `aaaazzzz` and `ccccbbbb`. -/
def staleWrites : List TrieOp :=
  [.insert (pathOf defaultChunkSize [[97, 97, 97, 97]]) [1] ⟨0, 0, 1⟩,
    .insert (pathOf defaultChunkSize highKey) [2] ⟨0, 0, 2⟩,
    .insert (pathOf defaultChunkSize [[99, 99, 99, 99, 98, 98, 98, 98]]) [3] ⟨0, 0, 3⟩]

-- Up to `aaaammmm`: the seek gives up below `aaaa`, and `ccccbbbb` is reported as `aaaabbbb`.
example : (scanAllReverse (memoryDb staleWrites ⟨0, 0, 3⟩) 30
    (databaseScanStartReverse (memoryDb staleWrites ⟨0, 0, 3⟩) none
      (some (pathOf defaultChunkSize [[97, 97, 97, 97, 109, 109, 109, 109]])))).map
        (List.map fun r => (r.path, r.value)) =
    some [(pathOf defaultChunkSize lowKey, [3]),
      (pathOf defaultChunkSize [[97, 97, 97, 97]], [1])] := by
  decide +kernel

end WaveDB.Database
