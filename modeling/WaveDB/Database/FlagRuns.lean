import WaveDB.Database.FlushPass
import WaveDB.Database.VacuumWalk

/-!
The `is_dirty` flags of trie nodes over whole runs.

`trieStep` are the operations that set and clear flags: inserts (with their splits),
deletes, garbage collection, eviction, flushes and the walk of a vacuum. Three of them can
leave a dirty trie node without a dirty bnode: an eviction that drops a dirty bnode out of a
B+tree, a walk over a dirty trie, and a flush in which a write fails after another one
succeeded.
-/

namespace WaveDB.Database

open WaveDB.Basis HBTrie Storage Workers List Option BnodeEntry Bnode

/-! ### What the file answers -/

/-- The results of the calls to the page file during one flush or walk: the offset of each
`page_file_write_node`, the number of the first one that fails, if one does, and whether
`page_file_write_superblock` returns 0. -/
structure WriteAnswers where
  offset : Nat → Nat
  failsAt : Option Nat
  superblock : Bool

def WriteAnswers.io (answers : WriteAnswers) : PageIo Nat where
  writeNode calls _ :=
    if answers.failsAt = some calls then none else some (answers.offset calls, calls + 1)
  markStale calls _ _ := calls
  writeSuperblock calls _ := if answers.superblock then some calls else none

def WriteAnswers.failsFirst (answers : WriteAnswers) : Bool := answers.failsAt.all (· == 0)

section Answers

variable {answers : WriteAnswers} {cs : ChunkSize} {s s' : FlushState Nat}

theorem markOldStale_answers (bn : Bnode) (length calls : Nat) :
    markOldStale answers.io bn length calls = calls := by
  unfold markOldStale
  split <;> rfl

theorem flushBnode_calls {info : DirtyBnodeInfo} (h : flushBnode answers.io cs s info = some s') :
    s'.file = s.file + 1 := by
  obtain ⟨bn, -, hwrite⟩ := bind_eq_some_iff.mp h
  obtain ⟨written, hwritten, rfl⟩ := map_eq_some_iff.mp hwrite
  rw [markOldStale_answers]
  simp only [WriteAnswers.io, ite_none_left_eq_some] at hwritten
  rw [← some.inj hwritten.2]

variable (hfirst : answers.failsFirst = true)

include hfirst

theorem flushAll_answers (s : FlushState Nat) (infos : List DirtyBnodeInfo) (hcalls : 0 < s.file)
    (hpos : ∀ info ∈ infos, (s.root.btree.bnodeAt info.pos).isSome) :
    (flushAll answers.io cs s infos).2 = true := by
  induction infos generalizing s with
  | nil => rfl
  | cons info infos ih =>
    rw [flushAll]
    split
    · rename_i hnone
      obtain ⟨bn, hbn⟩ := isSome_iff_exists.mp (hpos info mem_cons_self)
      have hfails : answers.failsAt ≠ some s.file := by
        intro heq
        rw [WriteAnswers.failsFirst, heq, all_some, beq_iff_eq] at hfirst
        omega
      simp only [flushBnode, hbn, WriteAnswers.io, if_neg hfails] at hnone
      cases hnone
    · rename_i s' hs'
      refine ih s' (by rw [flushBnode_calls hs']; omega) fun x hx => ?_
      rw [flushBnode_isSome_bnodeAt hs']
      exact hpos x (mem_cons_of_mem _ hx)

theorem flushAll_fails_first {infos : List DirtyBnodeInfo}
    (hpos : ∀ info ∈ infos, (s.root.btree.bnodeAt info.pos).isSome)
    (h : flushAll answers.io cs s infos = (s', false)) : s' = s := by
  cases infos with
  | nil => cases h
  | cons info infos =>
    rw [flushAll] at h
    split at h
    · exact (congrArg Prod.fst h).symm
    · rename_i mid hmid
      have hrest : ∀ x ∈ infos, (mid.root.btree.bnodeAt x.pos).isSome = true := by
        intro x hx
        rw [flushBnode_isSome_bnodeAt hmid]
        exact hpos x (mem_cons_of_mem _ hx)
      have hcalls : 0 < mid.file := by
        rw [flushBnode_calls hmid]
        omega
      have hok : (flushAll answers.io cs mid infos).2 = true :=
        flushAll_answers hfirst mid infos hcalls hrest
      rw [h] at hok
      cases hok

/-- A flush in which only the first write can fail keeps the trie nodes backed. -/
theorem flush_answers_backed (qsort : DirtySort) {root : HbtrieNode} (h : root.btree.TriesBacked)
    (passes calls : Nat) : (databaseFlushDirtyBnodes answers.io cs qsort passes
      ⟨root, calls⟩).state.root.btree.TriesBacked := by
  refine flush_backed answers.io cs qsort (s := ⟨root, calls⟩) h (fun s' hs' => ?_) passes
  refine flushAll_fails_first hfirst (fun info hinfo => ?_) hs'
  have hinfo := (qsort.perm _).mem_iff.mp hinfo
  obtain ⟨b, hb, -⟩ := (collected_dirty hinfo).bnode
  exact isSome_iff_exists.mpr ⟨b, hb⟩

end Answers

/-! ### The walk of a vacuum -/

section Walk

variable {σ : Type} {io : PageIo σ} {cs : ChunkSize} {load : Loader} {e e' : BnodeEntry}
  {s s' : FlushState σ} {pos : List Nat}

theorem triesBelow_modifyBelow {b : Bnode} (i : Nat) (f : Bnode → Bnode)
    (h : b.TriesBelow fun next => next.isDirty = false) :
    (b.modifyBelow i f (HbtrieNode.mapBtree f)).TriesBelow fun next => next.isDirty = false := by
  intro e he next hnext
  obtain ⟨j, hj⟩ := mem_iff_getElem?.mp he
  have hat := b.modifyBelow_trieNode (f := f) (g := HbtrieNode.mapBtree f) i j
  rw [hj, bind_some, hnext] at hat
  have hold : ∀ old, (b.entries[j]?).bind trieNode = some old → old.isDirty = false := by
    intro old hbind
    obtain ⟨x, hx, hold⟩ := bind_eq_some_iff.mp hbind
    exact h x (mem_of_getElem? hx) old hold
  split at hat
  · obtain ⟨old, hbind, rfl⟩ := map_eq_some_iff.mp hat.symm
    exact hold old hbind
  · exact hold next hat.symm

theorem loadBelow_clean (hbare : BarePages load) (h : loadBelow load e = some e')
    (hbelow : e.Below (Bnode.TriesBelow fun next => next.isDirty = false))
    (hclean : ∀ next, e.trieNode = some next → next.isDirty = false) :
    e'.Below (Bnode.TriesBelow fun next => next.isDirty = false) ∧
      ∀ next, e'.trieNode = some next → next.isDirty = false := by
  unfold loadBelow at h
  split at h
  · cases h
    exact ⟨hbelow, hclean⟩
  · obtain ⟨page, hpage, rfl⟩ := map_eq_some_iff.mp h
    have hpages : page.Everywhere (Bnode.TriesBelow fun next => next.isDirty = false) :=
      hbare.triesBelow _ _ hpage
    unfold attachPage
    split
    · exact ⟨below_childBnode hpages, nofun⟩
    · constructor
      · refine below_of_slot (e.setTrieNode_slot _) fun next hnext => ?_
        rw [setTrieNode_trieNode] at hnext
        cases hnext
        exact hpages
      · intro next hnext
        rw [setTrieNode_trieNode] at hnext
        cases hnext
        rfl

theorem loadEntryAt_triesClean (hbare : BarePages load) {index : Nat} (h : TriesClean s.root.btree)
    (he : entryAt s.root pos index = some e)
    (hload : loadEntryAt load s pos index e = some (s', e')) : TriesClean s'.root.btree := by
  obtain ⟨bn, hbn, hentry⟩ := bind_eq_some_iff.mp he
  have hcontains := contains_of_bnodeAt hbn
  have hmem := mem_of_getElem? hentry
  have hbelow : e.Below (Bnode.TriesBelow fun next => next.isDirty = false) :=
    (everywhere_iff.mp fun b hb => h b (hcontains.trans hb)).2 e hmem
  obtain ⟨e'', hloaded, heq⟩ := map_eq_some_iff.mp hload
  cases heq
  obtain ⟨hbelow', hclean'⟩ := loadBelow_clean hbare hloaded hbelow (h bn hcontains e hmem)
  refine modifyAt_everywhere (fun b i f hb => triesBelow_modifyBelow i f hb) ?_ pos h
  intro b hb
  refine hb.of_entries ((hb b .self).setEntry hclean') fun x hx => ?_
  rcases mem_or_eq_of_mem_set hx with hx | rfl
  · exact .inl hx
  · exact .inr hbelow'

theorem walkWrite_triesClean (h : TriesClean s.root.btree)
    (hwrite : walkWrite io cs s pos = some s') : TriesClean s'.root.btree := by
  obtain ⟨bn, -, hwritten⟩ := bind_eq_some_iff.mp hwrite
  obtain ⟨written, -, rfl⟩ := map_eq_some_iff.mp hwritten
  refine triesClean_of_nodeFlagsAt fun i hbPos flags hflags => ?_
  rw [modifyParent_nodeFlagsAt (fun _ => local_repointEntry _ _),
    HbtrieNode.nodeFlagsAt_modifyAt _ (local_placeBnode _)] at hflags
  exact h.nodeFlagsAt hflags

theorem walkTask_triesClean (hbare : BarePages load) {task : WalkTask} {added : List WalkTask}
    (h : TriesClean s.root.btree) (hstep : walkTask io cs load s task = some (s', added)) :
    TriesClean s'.root.btree := by
  have hentry : ∀ {pos : List Nat} {index : Nat} {e : BnodeEntry}
      {k : BnodeEntry → List WalkTask}, entryAt s.root pos index = some e →
      (loadEntryAt load s pos index e).map (fun p => (p.1, k p.2)) = some (s', added) →
      TriesClean s'.root.btree := by
    intro pos index e k he hmap
    obtain ⟨⟨mid, e'⟩, hload, heq⟩ := map_eq_some_iff.mp hmap
    cases heq
    exact loadEntryAt_triesClean hbare h he hload
  cases task with
  | leaves pos index leafStack =>
    unfold walkTask at hstep
    dsimp only at hstep
    split at hstep
    · next e he => exact hentry he hstep
    · split at hstep
      · cases hstep
        exact h
      · cases hstep
        exact h
  | tree pos index =>
    unfold walkTask at hstep
    dsimp only at hstep
    split at hstep
    · rename_i e he
      split at hstep
      · exact hentry he hstep
      · cases hstep
        exact h
    · obtain ⟨mid, hwrite, heq⟩ := map_eq_some_iff.mp hstep
      cases heq
      exact walkWrite_triesClean h hwrite

theorem walkTasks_triesClean (hbare : BarePages load) (steps : Nat) (s : FlushState σ)
    (tasks : List WalkTask) (h : TriesClean s.root.btree) :
    TriesClean (walkTasks io cs load steps s tasks).state.root.btree := by
  induction steps generalizing s tasks with
  | zero => cases tasks <;> exact h
  | succ steps ih =>
    cases tasks with
    | nil => exact h
    | cons task tasks =>
      rw [walkTasks]
      split
      · exact h
      · next s' added hstep => exact ih s' _ (walkTask_triesClean hbare h hstep)

end Walk

/-! ### Runs -/

/-- The pages that lazy loads read, as `bnode_deserialize_v3` makes them: with nothing in
memory below. -/
structure Pages where
  load : Loader
  bare : BarePages load

def noPages : Pages := ⟨noLoader, nofun⟩

/-- The operations that set or clear flags. A flush is seen after a number of passes, or when
it returned; a walk after a number of iterations, or when it returned. -/
inductive TrieAction where
  | insert (pages : Pages) (path : Path) (value : Bytes) (txnId : TransactionId)
  | delete (pages : Pages) (path : Path) (txnId : TransactionId)
  | gc (minActive : TransactionId)
  | evict (offset : Nat)
  | flush (qsort : DirtySort) (answers : WriteAnswers) (passes : Nat)
  | vacuumWalk (pages : Pages) (answers : WriteAnswers) (steps : Nat)

def trieStep (cfg : Config) (root : HbtrieNode) : TrieAction → Option HbtrieNode
  | .insert pages path value txnId => some (hbtrieInsert cfg pages.load root path value txnId).1
  | .delete pages path txnId => some (hbtrieDelete pages.load root path txnId).1
  | .gc minActive => some (hbtrieGc root minActive).1
  | .evict offset => some (hbtrieNullEntriesByOffset root offset).1
  | .flush qsort answers passes =>
    some (databaseFlushDirtyBnodes answers.io cfg.chunkSize qsort passes ⟨root, 0⟩).state.root
  | .vacuumWalk pages answers steps =>
    some (databaseVacuumWalkHbnode answers.io cfg.chunkSize pages.load steps ⟨root, 0⟩).state.root

/-- The step drops and clears no dirty bnode under a flag that stays: an eviction drops clean
child bnodes only, in a flush only the first write can fail, and a walk finds no dirty trie
node below the root. -/
def keepsBacking (root : HbtrieNode) : TrieAction → Bool
  | .evict offset => (evictedEntries root offset).all fun e => (treeNodesEntry e).all (!·.isDirty)
  | .flush _ answers _ => answers.failsFirst
  | .vacuumWalk _ _ _ => root.btree.tries.all (!·.isDirty)
  | _ => true

/-- The root of a new trie, or of one that is opened from its page file. -/
def OpenedRoot (root : HbtrieNode) : Prop :=
  root = hbtrieNodeCreate ∨ ∃ (pages : Pages) (offset : Nat),
    hbtrieLoadChildNode pages.load offset = some root

theorem OpenedRoot.backed {root : HbtrieNode} (h : OpenedRoot root) : root.btree.TriesBacked := by
  rcases h with rfl | ⟨pages, offset, hload⟩
  · exact everywhere_create (triesBelow_create 1)
  · obtain ⟨-, hmap⟩ := ite_none_right_eq_some.mp hload
    obtain ⟨page, hpage, rfl⟩ := map_eq_some_iff.mp hmap
    exact pages.bare.triesBelow _ _ hpage

theorem trieStep_backed {cfg : Config} {root root' : HbtrieNode} {a : TrieAction}
    (h : root.btree.TriesBacked) (hkeeps : keepsBacking root a)
    (hstep : trieStep cfg root a = some root') : root'.btree.TriesBacked := by
  cases a with
  | insert pages path value txnId =>
    cases hstep
    exact hbtrieInsert_backed cfg path value txnId pages.bare h
  | delete pages path txnId =>
    cases hstep
    exact hbtrieDelete_backed path txnId pages.bare h
  | gc minActive =>
    cases hstep
    exact hbtrieGc_backed minActive h
  | evict offset =>
    cases hstep
    refine hbtrieNullEntriesByOffset_backed offset (fun e he child hslot b hb => ?_) h
    have hclean := all_eq_true.mp (all_eq_true.mp hkeeps e he) b
      (mem_treeNodesEntry.mpr ⟨child, hslot, mem_treeNodes.mpr hb⟩)
    simpa using hclean
  | flush qsort answers passes =>
    cases hstep
    exact flush_answers_backed hkeeps qsort h passes 0
  | vacuumWalk pages answers steps =>
    cases hstep
    have hclean : TriesClean root.btree := by
      refine forall_mem_tries.mp fun node hnode => ?_
      have hnode := all_eq_true.mp hkeeps node hnode
      simpa using hnode
    exact (walkTasks_triesClean pages.bare steps ⟨root, 0⟩ _ hclean).backed

/-- In a run whose steps keep the backing, every dirty trie node below the root has a dirty
bnode in its B+tree, and the loop of a flush ends, whatever the page file answers. -/
theorem dirty_tries_backed (cfg : Config) {start root : HbtrieNode} (hstart : OpenedRoot start)
    (hrun : Reaches (trieStep cfg) keepsBacking start root) :
    (∀ node ∈ root.btree.tries, node.isDirty = true → ∃ b, node.btree.InTree b ∧ b.isDirty = true) ∧
    ∀ (σ : Type) (io : PageIo σ) (qsort : DirtySort) (file : σ), ∃ ok s,
      databaseFlushDirtyBnodes io cfg.chunkSize qsort 3 ⟨root, file⟩ = .returned ok s := by
  have hinv : root.btree.TriesBacked :=
    hrun.invariant (fun root => root.btree.TriesBacked) hstart.backed
      fun _ _ _ h hkeeps hstep => trieStep_backed h hkeeps hstep
  constructor
  · exact forall_mem_tries.mpr hinv
  · intro σ io qsort file
    exact flush_returns io cfg.chunkSize qsort (s := ⟨root, file⟩) hinv 0

def answersFailing (failsAt : Option Nat) : WriteAnswers :=
  ⟨fun calls => 8192 + calls, failsAt, true⟩

def pathAA : Path := pathOf defaultConfig.chunkSize [[1], [1]]

/-- An insert, a flush, another insert, a garbage collection, an eviction and a flush whose
first write fails: the trie node below the root is dirty, with a dirty bnode. -/
theorem dirty_tries_backed_after_failed_write :
    ∃ root, Reaches (trieStep defaultConfig) keepsBacking hbtrieNodeCreate root ∧
      (∃ node ∈ root.btree.tries, node.isDirty = true) ∧
      (∀ node ∈ root.btree.tries, node.isDirty = true →
        ∃ b, node.btree.InTree b ∧ b.isDirty = true) ∧
      ∀ (σ : Type) (io : PageIo σ) (qsort : DirtySort) (file : σ), ∃ ok s,
        databaseFlushDirtyBnodes io defaultConfig.chunkSize qsort 3 ⟨root, file⟩ =
          .returned ok s := by
  obtain ⟨root, hroot, hdirty⟩ : ∃ root,
      Reaches (trieStep defaultConfig) keepsBacking hbtrieNodeCreate root ∧
        (root.btree.tries.any HbtrieNode.isDirty) = true :=
    exists_reaches [.insert noPages pathAA [7] ⟨0, 0, 1⟩,
      .flush insertionQsort (answersFailing none) 3,
      .vacuumWalk noPages (answersFailing none) 20, .insert noPages pathAA [8] ⟨0, 0, 2⟩,
      .gc ⟨0, 0, 1⟩, .evict 9, .flush insertionQsort (answersFailing (some 0)) 3]
      (by decide +kernel)
  exact ⟨root, hroot, any_eq_true.mp hdirty,
    dirty_tries_backed defaultConfig (.inl rfl) hroot⟩

/-- In such a run a successful flush leaves no trie node below the root dirty. -/
theorem flush_cleans_tries (cfg : Config) {start : HbtrieNode} (hstart : OpenedRoot start)
    {σ : Type} {s : FlushState σ} (hrun : Reaches (trieStep cfg) keepsBacking start s.root)
    (io : PageIo σ) (qsort : DirtySort) :
    ∃ ok s', databaseFlushDirtyBnodes io cfg.chunkSize qsort 3 s = .returned ok s' ∧
      (ok = false ∨ ∀ node ∈ s'.root.btree.tries, node.isDirty = false) := by
  have hinv := hrun.invariant (fun root => root.btree.TriesBacked) hstart.backed
    fun _ _ _ => trieStep_backed
  rcases flush_pass io cfg.chunkSize qsort 2 s with
    ⟨hnil, heq⟩ | ⟨infos, hinfos, -, ⟨-, heq⟩ | ⟨-, heq⟩⟩
  · have hperm := hnil ▸ qsort.perm (collectDirtyBnodes (collectMarks s.root))
    have hclean := pass_triesClean io cfg.chunkSize hinv hperm
    obtain ⟨hroot, _, _, hret⟩ := finishFlush_returned io (markedState s)
    rw [hret] at hroot
    exact ⟨_, _, heq.trans hret, .inr (forall_mem_tries.mpr (hroot ▸ hclean))⟩
  · exact ⟨_, _, heq, .inl rfl⟩
  · have hend := flush_of_triesClean io cfg.chunkSize qsort (s := passEnd _ infos)
      (pass_triesClean io cfg.chunkSize hinv (hinfos ▸ qsort.perm _)) 2
    obtain ⟨_, _, hret⟩ := hend.2 le_rfl
    rw [hret] at hend
    exact ⟨_, _, heq.trans hret, .inr (forall_mem_tries.mpr hend.1)⟩

def insertedAA : HbtrieNode :=
  (hbtrieInsert defaultConfig noLoader hbtrieNodeCreate pathAA [7] ⟨0, 0, 1⟩).1

/-- The first flush of a new page file returns 0. -/
theorem flush_cleans_tries_sample :
    ∃ s', databaseFlushDirtyBnodes pageFileIo defaultConfig.chunkSize insertionQsort 3
        ⟨insertedAA, pageFileCreate⟩ = .returned true s' ∧
      ∀ node ∈ s'.root.btree.tries, node.isDirty = false := by
  have hreturns : (databaseFlushDirtyBnodes pageFileIo defaultConfig.chunkSize insertionQsort 3
      ⟨insertedAA, pageFileCreate⟩).ok = true := by decide +kernel
  have hrun : Reaches (trieStep defaultConfig) keepsBacking hbtrieNodeCreate insertedAA :=
    Reaches.start.next (.insert noPages pathAA [7] ⟨0, 0, 1⟩) rfl rfl
  obtain ⟨ok, s', hret, hclean⟩ := flush_cleans_tries defaultConfig (.inl rfl)
    (s := ⟨insertedAA, pageFileCreate⟩) hrun pageFileIo insertionQsort
  rw [hret] at hreturns
  obtain rfl : ok = true := hreturns
  exact ⟨s', hret, hclean.resolve_left nofun⟩

/-! ### A flush that never ends -/

def hasStray (root : HbtrieNode) : Bool :=
  root.btree.tries.any fun node => node.isDirty && node.btree.treeNodes.all (!·.isDirty)

theorem exists_stray {root : HbtrieNode} (h : hasStray root) :
    ∃ node ∈ root.btree.tries, node.isDirty ∧ ∀ b, node.btree.InTree b → b.isDirty = false := by
  obtain ⟨node, hnode, hstray⟩ := any_eq_true.mp h
  obtain ⟨hdirty, hclean⟩ := Bool.and_eq_true_iff.mp hstray
  refine ⟨node, hnode, hdirty, fun b hb => ?_⟩
  simpa using all_eq_true.mp hclean b (mem_treeNodes.mpr hb)

def stuckRoot (key : Chunk) (value : Content) (pathMeta : List PathSubscriptMeta) (offset : Nat)
    (diskOffset : Option Nat) (bnodeDirty rootDirty : Bool) : HbtrieNode :=
  { btree :=
      { level := 1
        entries := [⟨key, .child (some
          ⟨⟨1, [⟨key, .value value pathMeta none, 0⟩], some offset, false⟩, none, true⟩), offset⟩]
        diskOffset, isDirty := bnodeDirty }
    diskOffset := none
    isDirty := rootDirty }

variable (cs : ChunkSize) (qsort : DirtySort) (passes calls : Nat) (key : Chunk) (value : Content)
  (pathMeta : List PathSubscriptMeta) (offset : Nat) (diskOffset : Option Nat)
  (bnodeDirty rootDirty : Bool)

/-- A pass over such a trie writes the bnode of the root and leaves the trie node as it was. -/
theorem stuckRoot_pass : databaseFlushDirtyBnodes (answersFailing none).io cs qsort (passes + 1)
        ⟨stuckRoot key value pathMeta offset diskOffset bnodeDirty rootDirty, calls⟩ =
      databaseFlushDirtyBnodes (answersFailing none).io cs qsort passes
        ⟨stuckRoot key value pathMeta offset (some (8192 + calls)) false false, calls + 1⟩ := by
  have hmarks : collectMarks (stuckRoot key value pathMeta offset diskOffset bnodeDirty rootDirty) =
      stuckRoot key value pathMeta offset diskOffset true true := by
    cases bnodeDirty <;> cases rootDirty <;> rfl
  have hlist : qsort.sort (collectDirtyBnodes
      (stuckRoot key value pathMeta offset diskOffset true true)) = [⟨[], [], 1, 0⟩] :=
    perm_singleton.mp (qsort.perm _)
  rw [databaseFlushDirtyBnodes]
  rw [hmarks, hlist]
  cases diskOffset <;> rfl

theorem stuckRoot_running : ∃ s, databaseFlushDirtyBnodes (answersFailing none).io cs qsort passes
      ⟨stuckRoot key value pathMeta offset diskOffset bnodeDirty rootDirty, calls⟩ =
        .running s := by
  induction passes generalizing calls diskOffset bnodeDirty rootDirty with
  | zero => exact ⟨_, rfl⟩
  | succ passes ih =>
    rw [stuckRoot_pass]
    exact ih _ _ _ _

def siblings : List Path := [1, 2, 3, 4, 5].map fun b => pathOf defaultConfig.chunkSize [[1], [b]]

def smallConfig : Config := { defaultConfig with nodeSize := 1 }

/-- (1) The second write of a flush fails: the next flush runs forever, though all its writes
succeed. (2) An eviction drops the only dirty bnode of a trie node. (3) A walk clears the
bnodes of a dirty trie node. -/
theorem failed_flush_never_ends :
    (∃ root, Reaches (trieStep defaultConfig) always hbtrieNodeCreate root ∧
      (∃ node ∈ root.btree.tries, node.isDirty = true ∧
        ∀ b, node.btree.InTree b → b.isDirty = false) ∧
      ∀ (qsort : DirtySort) (passes : Nat), ∃ s,
        databaseFlushDirtyBnodes (answersFailing none).io defaultConfig.chunkSize qsort passes
          ⟨root, 0⟩ = .running s) ∧
    (∃ root, Reaches (trieStep smallConfig) always hbtrieNodeCreate root ∧
      ∃ node ∈ root.btree.tries, node.isDirty = true ∧
        ∀ b, node.btree.InTree b → b.isDirty = false) ∧
    ∃ root, Reaches (trieStep defaultConfig) always hbtrieNodeCreate root ∧
      ∃ node ∈ root.btree.tries, node.isDirty = true ∧
        ∀ b, node.btree.InTree b → b.isDirty = false := by
  refine ⟨?_, ?_, ?_⟩
  · have hstuck : perform (trieStep defaultConfig) always hbtrieNodeCreate
        [.insert noPages pathAA [7] ⟨0, 0, 1⟩, .flush insertionQsort (answersFailing (some 1)) 3] =
          some (stuckRoot (paddedChunk defaultConfig.chunkSize [1]) (.legacy [7] ⟨0, 0, 1⟩)
            [⟨1, 1⟩, ⟨1, 1⟩] 8192 none true true) := rfl
    exact ⟨_, Reaches.start.perform hstuck, exists_stray rfl,
      fun qsort passes => stuckRoot_running _ qsort passes 0 _ _ _ _ _ _ _⟩
  · obtain ⟨root, hroot, hstray⟩ : ∃ root, Reaches (trieStep smallConfig) always
        hbtrieNodeCreate root ∧ hasStray root = true :=
      exists_reaches (siblings.map (fun path => .insert noPages path [7] ⟨0, 0, 1⟩) ++
        [.flush insertionQsort (answersFailing none) 3,
          .insert noPages pathAA [8] ⟨0, 0, 2⟩, .evict 8192]) (by decide +kernel)
    exact ⟨root, hroot, exists_stray hstray⟩
  · obtain ⟨root, hroot, hstray⟩ : ∃ root, Reaches (trieStep defaultConfig) always
        hbtrieNodeCreate root ∧ hasStray root = true :=
      exists_reaches [.insert noPages pathAA [7] ⟨0, 0, 1⟩,
        .vacuumWalk noPages (answersFailing none) 20] (by decide +kernel)
    exact ⟨root, hroot, exists_stray hstray⟩

end WaveDB.Database
