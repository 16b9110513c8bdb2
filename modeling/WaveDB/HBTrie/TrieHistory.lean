import WaveDB.HBTrie.TrieMap

/-!
Histories of `hbtrie_insert` and `hbtrie_delete` calls on one trie.

`contentAt_runOps` computes what a run stores under every chunk sequence from the
writes to that sequence alone.
-/

namespace WaveDB.HBTrie

open WaveDB.Basis Workers List

/-! ### Operations on whole paths -/

/-- A path with a final position: it has identifiers, each with a chunk. -/
def ValidPath (path : Path) : Prop := path ≠ [] ∧ ∀ identifier ∈ path, identifier.chunks ≠ []

instance (path : Path) : Decidable (ValidPath path) := inferInstanceAs (Decidable (_ ∧ _))

variable (load : Loader) (cfg : Config) (root : HbtrieNode)

/-- `hbtrie_insert`'s guard lets every identifier of the path pass. -/
def pathAccepted (path : Path) : Bool :=
  path.all fun identifier => !identifierRefused cfg identifier

theorem pathSteps_cons (identifier : Identifier) (path : Path) : pathSteps (identifier :: path) =
      .enter identifier :: (identifier.chunks.map .chunk ++ pathSteps path) := rfl

theorem stepChunks_pathSteps (path : Path) : stepChunks (pathSteps path) = pathChunks path := by
  induction path with
  | nil => rfl
  | cons identifier path ih =>
    have hchunks : (identifier.chunks.map PathStep.chunk).filterMap PathStep.followed =
        identifier.chunks := by
      rw [filterMap_map]
      exact filterMap_some
    rw [pathSteps_cons, stepChunks_enter, stepChunks, filterMap_append, hchunks, ← stepChunks, ih]
    rfl

theorem stepsAccepted_pathSteps (path : Path) :
    stepsAccepted cfg (pathSteps path) = pathAccepted cfg path := by
  induction path with
  | nil => rfl
  | cons identifier path ih =>
    have hchunks : (identifier.chunks.map PathStep.chunk).all (PathStep.accepted cfg) = true := by
      simp [PathStep.accepted]
    rw [pathSteps_cons, stepsAccepted, all_cons, all_append, hchunks, Bool.true_and,
      ← stepsAccepted, ih]
    rfl

theorem ValidPath.endsInChunk {path : Path} (h : ValidPath path) :
    EndsInChunk (pathSteps path) := by
  obtain ⟨hne, hchunks⟩ := h
  obtain ⟨pre, last, rfl⟩ := eq_nil_or_concat path |>.resolve_left hne
  obtain ⟨chunks, c, hlast⟩ := eq_nil_or_concat last.chunks |>.resolve_left (hchunks last (by simp))
  refine ⟨pathSteps pre ++ .enter last :: chunks.map .chunk, c, ?_⟩
  simp [pathSteps, hlast]

theorem hbtrieFindEntry_content (node : HbtrieNode) {steps : List PathStep}
    (hend : EndsInChunk steps) : (hbtrieFindEntry load node steps).bind BnodeEntry.content =
      contentAt load node (stepChunks steps) := by
  induction steps using stepsInduction generalizing node with
  | nil => exact absurd rfl hend.stepChunks_ne_nil
  | enter identifier rest ih => exact ih node hend.of_enter
  | chunk c rest ih =>
    cases rest with
    | nil => rfl
    | cons step rest =>
      obtain ⟨d, q, hq⟩ := exists_cons_of_ne_nil hend.of_cons.stepChunks_ne_nil
      rw [stepChunks_chunk, hq, contentAt, hbtrieFindEntry, Option.bind_assoc, ← hq]
      refine Option.bind_congr fun next _ => ?_
      exact ih next hend.of_cons

theorem hbtrieFind_eq {path : Path} (hvalid : ValidPath path) (readTxnId : TransactionId) :
    hbtrieFind load root path readTxnId =
      (contentAt load root (pathChunks path)).bind (Content.visible readTxnId) := by
  rw [hbtrieFind, hbtrieFindEntry_content load root hvalid.endsInChunk, stepChunks_pathSteps]

theorem hbtrieFindUnsafe_eq {path : Path} (hvalid : ValidPath path) :
    hbtrieFindUnsafe load root path =
      (contentAt load root (pathChunks path)).bind Content.newest := by
  rw [hbtrieFindUnsafe, hbtrieFindEntry_content load root hvalid.endsInChunk, stepChunks_pathSteps]

/-! ### Runs -/

inductive TrieOp where
  | insert (path : Path) (value : Bytes) (txnId : TransactionId)
  | delete (path : Path) (txnId : TransactionId)

def TrieOp.path : TrieOp → Path
  | .insert path _ _ => path
  | .delete path _ => path

def TrieOp.value : TrieOp → Option Bytes
  | .insert _ value _ => some value
  | .delete _ _ => none

def TrieOp.txnId : TrieOp → TransactionId
  | .insert _ _ txnId => txnId
  | .delete _ txnId => txnId

def applyOp (cfg : Config) (load : Loader) (root : HbtrieNode) : TrieOp → HbtrieNode
  | .insert path value txnId => (hbtrieInsert cfg load root path value txnId).1
  | .delete path txnId => (hbtrieDelete load root path txnId).1

def runOps (load : Loader) (ops : List TrieOp) : HbtrieNode :=
  ops.foldl (applyOp cfg load) hbtrieNodeCreate

def opSplitsSafely (cfg : Config) (load : Loader) (root : HbtrieNode) : TrieOp → Bool
  | .insert path _ _ => insertSplitsSafely cfg load root (pathSteps path)
  | .delete _ _ => true

/-- Every call has a path with a final position and splits safely in the state it
meets: each B+tree behaves as a finite map throughout. -/
structure SafeRun (cfg : Config) (load : Loader) (ops : List TrieOp) : Prop where
  valid : ∀ op ∈ ops, ValidPath op.path
  splits : ∀ i, (h : i < ops.length) →
    opSplitsSafely cfg load (runOps cfg load (ops.take i)) ops[i] = true

/-- One write to a key: a value, or `none` for a delete. -/
structure Write where
  txnId : TransactionId
  value : Option Bytes
deriving DecidableEq

/-- The write a call makes to a key, if any: an insert counts when its path is
accepted. -/
def TrieOp.writeTo (accept : Path → Bool) (key : List Chunk) : TrieOp → Option Write
  | .insert path value txnId =>
    if pathChunks path = key ∧ accept path = true then some ⟨txnId, some value⟩ else none
  | .delete path txnId => if pathChunks path = key then some ⟨txnId, none⟩ else none

def history (accept : Path → Bool) (ops : List TrieOp) (key : List Chunk) : List Write :=
  ops.filterMap (TrieOp.writeTo accept key)

def Write.apply (content : Option Content) (w : Write) : Option Content :=
  match w.value with
  | some value => some (.write content value w.txnId)
  | none => content.map fun c => c.delete w.txnId

def contentOf (writes : List Write) : Option Content := writes.foldl Write.apply none

def newestAt (load : Loader) (trie : HbtrieNode) (key : List Chunk) : Option Bytes :=
  (contentAt load trie key).bind Content.newest

theorem newest_apply (content : Option Content) (w : Write) :
    (w.apply content).bind Content.newest = w.value := by
  unfold Write.apply
  cases w.value <;> cases content <;> rfl

theorem head_apply {content : Option Content} {w : Write} {v : VersionEntry}
    {older : List VersionEntry} (h : w.apply content = some (.versions (v :: older))) :
    v.txnId = w.txnId := by
  unfold Write.apply at h
  cases hvalue : w.value with
  | some value | none =>
    rw [hvalue] at h
    cases content with
    | none => cases h
    | some content =>
      cases h
      rfl

theorem newest_foldl (writes : List Write) (content : Option Content) :
    (writes.foldl Write.apply content).bind Content.newest =
      writes.getLast?.elim (content.bind Content.newest) Write.value := by
  rcases eq_nil_or_concat' writes with rfl | ⟨front, w, rfl⟩
  · rfl
  · rw [foldl_append, getLast?_concat, Option.elim_some]
    exact newest_apply _ w

/-- The newest version, if there are versions, is not above the read id. -/
def HeadReadable (readTxnId : TransactionId) (content : Option Content) : Prop :=
  ∀ v older, content = some (.versions (v :: older)) → v.txnId ≤ readTxnId

section Head

variable {readTxnId later : TransactionId} {content : Option Content}

theorem HeadReadable.mono (h : HeadReadable readTxnId content) (hle : readTxnId ≤ later) :
    HeadReadable later content :=
  fun v older hcontent => (h v older hcontent).trans hle

theorem HeadReadable.foldl {writes : List Write} (h : HeadReadable readTxnId content)
    (hw : ∀ w ∈ writes, w.txnId ≤ readTxnId) :
    HeadReadable readTxnId (writes.foldl Write.apply content) := by
  induction writes generalizing content with
  | nil => exact h
  | cons w rest ih =>
    refine ih ?_ fun w' hw' => hw w' (mem_cons_of_mem _ hw')
    intro v older hcontent
    rw [head_apply hcontent]
    exact hw w mem_cons_self

end Head

theorem contentOf_history_concat (accept : Path → Bool) (ops : List TrieOp) (op : TrieOp)
    (key : List Chunk) : contentOf (history accept (ops ++ [op]) key) =
      match op.writeTo accept key with
      | some w => w.apply (contentOf (history accept ops key))
      | none => contentOf (history accept ops key) := by
  rw [history, filterMap_append, filterMap_cons, filterMap_nil, ← history]
  cases op.writeTo accept key with
  | none => simp
  | some w => simp [contentOf]

section Run

variable {cfg : Config} {load : Loader} {root : HbtrieNode} {ops : List TrieOp}

theorem hbtrieInsert_effect {path : Path} {value : Bytes} {txnId : TransactionId}
    (hok : TrieOk load root) (hvalid : ValidPath path)
    (hsafe : insertSplitsSafely cfg load root (pathSteps path)) :
    InsertEffect cfg load value txnId (pathSteps path) root
      (hbtrieInsert cfg load root path value txnId) := by
  rw [hbtrieInsert, if_neg hvalid.1]
  have hend := hvalid.endsInChunk
  exact (hbtrieInsertSteps_inserts hok hend hsafe).effect hok hend

/-- One call: the trie stays well formed and each key sees its own write. -/
theorem applyOp_spec {op : TrieOp} (hok : TrieOk load root) (hvalid : ValidPath op.path)
    (hsafe : opSplitsSafely cfg load root op) : TrieOk load (applyOp cfg load root op) ∧
      ∀ key, contentAt load (applyOp cfg load root op) key =
        match op.writeTo (pathAccepted cfg) key with
        | some w => w.apply (contentAt load root key)
        | none => contentAt load root key := by
  cases op with
  | insert path value txnId =>
    change ValidPath path at hvalid
    obtain ⟨hok', hacc, hcontent⟩ := hbtrieInsert_effect hok hvalid hsafe
    refine ⟨hok', fun key => ?_⟩
    rw [stepsAccepted_pathSteps] at hacc
    simp only [applyOp, hcontent, hacc, stepChunks_pathSteps, TrieOp.writeTo]
    by_cases h : pathChunks path = key ∧ pathAccepted cfg path
    · rw [if_pos ⟨h.2, h.1.symm⟩, if_pos h]
      rfl
    · rw [if_neg h, if_neg fun h' => h ⟨h'.2.symm, h'.1⟩]
  | delete path txnId =>
    change ValidPath path at hvalid
    obtain ⟨hok', hcontent⟩ := hbtrieDeleteSteps_spec hok hvalid.endsInChunk
    refine ⟨hok', fun key => ?_⟩
    simp only [applyOp, hbtrieDelete, hcontent, stepChunks_pathSteps, TrieOp.writeTo]
    by_cases h : pathChunks path = key
    · rw [if_pos h.symm, if_pos h]
      rfl
    · rw [if_neg h, if_neg fun h' => h h'.symm]

theorem runOps_concat (ops : List TrieOp) (op : TrieOp) :
    runOps cfg load (ops ++ [op]) = applyOp cfg load (runOps cfg load ops) op := by
  simp [runOps]

theorem SafeRun.of_append {rest : List TrieOp} (h : SafeRun cfg load (ops ++ rest)) :
    SafeRun cfg load ops := by
  refine ⟨fun op hop => h.valid op (mem_append_left _ hop), fun i hi => ?_⟩
  have hsplit := h.splits i (by rw [length_append]; omega)
  rwa [take_append_of_le_length hi.le, getElem_append_left hi] at hsplit

/-- In a safe run the content under every key is what its own writes make it. -/
theorem contentAt_runOps (h : SafeRun cfg load ops) : TrieOk load (runOps cfg load ops) ∧
      ∀ key, contentAt load (runOps cfg load ops) key =
        contentOf (history (pathAccepted cfg) ops key) := by
  induction ops using reverseRecOn with
  | nil => exact ⟨TrieOk.create load, contentAt_create load⟩
  | append_singleton ops op ih =>
    obtain ⟨hok, hcontent⟩ := ih h.of_append
    have hsafe : opSplitsSafely cfg load (runOps cfg load ops) op = true := by
      simpa using h.splits ops.length (by simp)
    obtain ⟨hok', hcontent'⟩ := applyOp_spec hok (h.valid op (by simp)) hsafe
    rw [runOps_concat]
    refine ⟨hok', fun key => ?_⟩
    rw [hcontent', contentOf_history_concat, hcontent]

end Run

/-- `abcd`, `abcd/efgh` and the tombstone of the first. -/
def familyWrites : List TrieOp :=
  [.insert parentPath [1] ⟨0, 0, 1⟩, .insert childPath [2] ⟨0, 0, 2⟩, .delete parentPath ⟨0, 0, 3⟩]

end WaveDB.HBTrie
