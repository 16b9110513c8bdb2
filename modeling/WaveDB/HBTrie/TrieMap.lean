import WaveDB.HBTrie.BtreeMap
import WaveDB.HBTrie.NodeInvariant

/-!
The trie as a partial map from chunk sequences to stored content.

`contentAt` reads a node as such a map. `hbtrieInsertSteps_inserts` and
`hbtrieDeleteSteps_spec` say that an insert rewrites the content of its own chunk
sequence and a delete adds a tombstone there, with every other sequence as
before; both keep every B+tree of the trie a search tree (`TrieOk`). The premise
on inserts is that no leaf on the way splits below its separator
(`insertSplitsSafely`).
-/

namespace WaveDB.HBTrie

open WaveDB.Basis Workers Option BnodeEntry

/-! ### The map view -/

def contentAt (load : Loader) : HbtrieNode → List Chunk → Option Content
  | _, [] => none
  | node, [c] => (bnodeFindLeafLazy load node.btree c).bind content
  | node, c :: d :: rest =>
    ((bnodeFindLeafLazy load node.btree c).bind fun e => e.loadedTrieNode load).bind
      fun next => contentAt load next (d :: rest)

def BnodeEntry.contentAt (load : Loader) (e : BnodeEntry) : List Chunk → Option Content
  | [] => e.content
  | c :: rest => (e.loadedTrieNode load).bind fun next => HBTrie.contentAt load next (c :: rest)

theorem contentAt_cons (load : Loader) (node : HbtrieNode) (c : Chunk) (rest : List Chunk) :
    contentAt load node (c :: rest) =
      (bnodeFindLeafLazy load node.btree c).bind fun e => e.contentAt load rest := by
  cases rest with
  | nil => rfl
  | cons d rest => rw [contentAt, bind_assoc]; rfl

def nodeAt (load : Loader) : HbtrieNode → List Chunk → Option HbtrieNode
  | node, [] => some node
  | node, c :: rest =>
    ((bnodeFindLeafLazy load node.btree c).bind fun e => e.loadedTrieNode load).bind
      fun next => nodeAt load next rest

def TrieOk (load : Loader) (root : HbtrieNode) : Prop :=
  ∀ chunks node, nodeAt load root chunks = some node → IsSearchTree load node.btree

variable {e : BnodeEntry} {step : PathStep} {rest steps : List PathStep}

section TrieOk

variable {load : Loader} {node : HbtrieNode}

theorem TrieOk.btree (h : TrieOk load node) : IsSearchTree load node.btree := h [] node rfl

theorem TrieOk.child (h : TrieOk load node) {c : Chunk} {next : HbtrieNode}
    (hfind : bnodeFindLeafLazy load node.btree c = some e)
    (hnext : e.loadedTrieNode load = some next) : TrieOk load next := by
  intro chunks node' hnode'
  refine h (c :: chunks) node' ?_
  simp [nodeAt, hfind, hnext, hnode']

theorem TrieOk.intro (htree : IsSearchTree load node.btree)
    (hchild : ∀ c e next, bnodeFindLeafLazy load node.btree c = some e →
      e.loadedTrieNode load = some next → TrieOk load next) : TrieOk load node := by
  intro chunks node' hnode'
  cases chunks with
  | nil =>
    cases hnode'
    exact htree
  | cons c rest =>
    obtain ⟨next, hnext, hrest⟩ := bind_eq_some_iff.mp hnode'
    obtain ⟨e, hfind, hload⟩ := bind_eq_some_iff.mp hnext
    exact hchild c e next hfind hload rest node' hrest

theorem bnodeFindLeafLazy_create (load : Loader) (c : Chunk) :
    bnodeFindLeafLazy load (bnodeCreateWithLevel 1) c = none := by
  have htree : SearchTree load 0 (bnodeCreateWithLevel 1) ⊥ ⊤ :=
    ⟨rfl, List.Pairwise.nil, by simp⟩
  refine eq_none_iff_forall_ne_some.mpr fun e hfind => ?_
  have hmem := ((htree.find_iff c e).mp hfind).1
  simp [leafEntries, bnodeCreateWithLevel] at hmem

theorem TrieOk.create (load : Loader) : TrieOk load hbtrieNodeCreate := by
  refine intro ⟨0, rfl, List.Pairwise.nil, by simp⟩ ?_
  intro c e next hfind
  cases hfind

theorem TrieOk.below (h : TrieOk load node) {c : Chunk}
    (hfind : bnodeFindLeafLazy load node.btree c = some e) :
    TrieOk load ((e.loadedTrieNode load).getD hbtrieNodeCreate) := by
  cases hnext : e.loadedTrieNode load with
  | none => exact create load
  | some next => exact h.child hfind hnext

theorem contentAt_create (load : Loader) (q : List Chunk) :
    contentAt load hbtrieNodeCreate q = none := by
  cases q with
  | nil => rfl
  | cons c rest => rw [contentAt_cons, hbtrieNodeCreate, bnodeFindLeafLazy_create]; rfl

end TrieOk

/-! ### One entry rewritten -/

section Rewrite

/-- The lookups of the second node are those of the first, but for the entry at one chunk. -/
def Rewritten (load : Loader) (node : HbtrieNode) (c : Chunk) (e' : BnodeEntry)
    (node' : HbtrieNode) : Prop :=
  IsSearchTree load node'.btree ∧ ∀ k, bnodeFindLeafLazy load node'.btree k =
    if k = c then some e' else bnodeFindLeafLazy load node.btree k

variable {load : Loader} {node node' : HbtrieNode} {c : Chunk} {e' : BnodeEntry}

theorem TrieOk.rewrite (h : TrieOk load node) (hnew : Rewritten load node c e' node')
    (hchild : ∀ next, e'.loadedTrieNode load = some next → TrieOk load next) :
    TrieOk load node' := by
  refine intro hnew.1 ?_
  intro k e next hk hnext
  rw [hnew.2 k] at hk
  split at hk
  · cases hk
    exact hchild next hnext
  · exact h.child hk hnext

/-- The map after one entry was rewritten, from its values at and below that entry. -/
theorem Rewritten.content (hnew : Rewritten load node c e' node') {f : List Chunk → Option Content}
    (hother : ∀ q, q.head? ≠ some c → f q = contentAt load node q) (hself : f [c] = e'.content)
    (hbelow : ∀ d q, f (c :: d :: q) = (e'.loadedTrieNode load).bind fun next =>
      contentAt load next (d :: q)) (q : List Chunk) : contentAt load node' q = f q := by
  cases q with
  | nil => exact (hother [] nofun).symm
  | cons k rest =>
    rw [contentAt_cons, hnew.2 k]
    split
    · rename_i hk
      subst hk
      cases rest with
      | nil => exact hself.symm
      | cons d q => exact (hbelow d q).symm
    · rename_i hk
      rw [← contentAt_cons]
      exact (hother (k :: rest) fun hhead => hk (some.inj hhead)).symm

end Rewrite

/-! ### Entries -/

section Entries

variable (load : Loader) (e : BnodeEntry)

@[simp] theorem BnodeEntry.setTrieNode_loaded (node : HbtrieNode) :
    (e.setTrieNode node).loadedTrieNode load = some node := by
  unfold setTrieNode loadedTrieNode trieNode
  cases e.slot <;> rfl

variable (value : Bytes) (txnId : TransactionId) (pathMeta : List PathSubscriptMeta)

@[simp] theorem BnodeEntry.insertValue_loaded :
    (e.insertValue value txnId pathMeta).loadedTrieNode load = e.loadedTrieNode load := by
  unfold insertValue loadedTrieNode trieNode
  cases e.slot with
  | child node => rfl
  | childBnode node => rfl
  | value content oldMeta node => cases content <;> rfl

@[simp] theorem BnodeEntry.deleteValue_loaded :
    (e.deleteValue txnId).loadedTrieNode load = e.loadedTrieNode load := by
  cases e <;> rfl

end Entries

/-! ### Steps -/

def PathStep.followed : PathStep → Option Chunk
  | .enter _ => none
  | .chunk c => some c

/-- The guard of `hbtrie_insert` lets the step pass. -/
def PathStep.accepted (cfg : Config) : PathStep → Bool
  | .enter identifier => !identifierRefused cfg identifier
  | .chunk _ => true

def stepChunks (steps : List PathStep) : List Chunk := steps.filterMap PathStep.followed

/-- The last step is a chunk: the path has a final position. -/
def EndsInChunk (steps : List PathStep) : Prop := ∃ pre c, steps = pre ++ [.chunk c]

def stepsAccepted (cfg : Config) (steps : List PathStep) : Bool := steps.all (PathStep.accepted cfg)

/-- No leaf on the way of an insert splits at or below its separator: the
condition `splitsAboveSeparator` at the first missing chunk. Below it every node is
new and holds one entry. -/
def insertSplitsSafely (cfg : Config) (load : Loader) : HbtrieNode → List PathStep → Bool
  | _, [] => true
  | node, .enter identifier :: rest =>
    identifierRefused cfg identifier || insertSplitsSafely cfg load node rest
  | node, .chunk c :: rest =>
    match bnodeFindLeafLazy load node.btree c with
    | none =>
      splitsAboveSeparator cfg load node.btree
        { key := c, slot := .child none, childDiskOffset := 0 }
    | some e =>
      insertSplitsSafely cfg load ((e.loadedTrieNode load).getD hbtrieNodeCreate) rest

@[simp] theorem stepChunks_nil : stepChunks [] = [] := rfl

@[simp] theorem stepChunks_enter (identifier : Identifier) (rest : List PathStep) :
    stepChunks (.enter identifier :: rest) = stepChunks rest := rfl

@[simp] theorem stepChunks_chunk (c : Chunk) (rest : List PathStep) :
    stepChunks (.chunk c :: rest) = c :: stepChunks rest := rfl

theorem EndsInChunk.of_cons {next : PathStep} (h : EndsInChunk (step :: next :: rest)) :
    EndsInChunk (next :: rest) := by
  obtain ⟨pre, c, hsteps⟩ := h
  cases pre with
  | nil => simp at hsteps
  | cons s pre => exact ⟨pre, c, (List.cons.inj hsteps).2⟩

theorem EndsInChunk.of_enter {identifier : Identifier}
    (h : EndsInChunk (.enter identifier :: rest)) : EndsInChunk rest := by
  cases rest with
  | nil =>
    obtain ⟨pre, c, hsteps⟩ := h
    cases pre with
    | nil | cons s pre => simp at hsteps
  | cons next rest => exact h.of_cons

theorem EndsInChunk.stepChunks_ne_nil (h : EndsInChunk steps) : stepChunks steps ≠ [] := by
  obtain ⟨pre, c, rfl⟩ := h
  simp [stepChunks, PathStep.followed]

theorem insertSplitsSafely_create (cfg : Config) (load : Loader) (steps : List PathStep) :
    insertSplitsSafely cfg load hbtrieNodeCreate steps = true := by
  induction steps using stepsInduction with
  | nil => rfl
  | enter identifier rest ih => simp [insertSplitsSafely, ih]
  | chunk c rest ih =>
    rfl

/-! ### Nodes -/

section Nodes

variable {cfg : Config} {load : Loader} {node : HbtrieNode} {c : Chunk}

variable (h : TrieOk load node)

include h

theorem TrieOk.updateEntry {e' : BnodeEntry} (hfind : bnodeFindLeafLazy load node.btree c = some e)
    (hkey : e'.key = c) (dirty : Bool) :
    Rewritten load node c e' (node.updateEntry (btreeDescendWithPathLazy load node.btree c).1
      (btreeDescendWithPathLazy load node.btree c).2
      (bnodeSearch (btreeDescendWithPathLazy load node.btree c).2 c) e' dirty) := by
  cases dirty with
  | false | true => exact h.btree.update hfind hkey rfl rfl

theorem TrieOk.insertEntry {entry : BnodeEntry} (hkey : entry.key = c)
    (hnone : bnodeFindLeafLazy load node.btree c = none)
    (hsafe : splitsAboveSeparator cfg load node.btree
      { key := c, slot := .child none, childDiskOffset := 0 }) :
    Rewritten load node c entry
      (node.insertEntry cfg (btreeDescendWithPathLazy load node.btree c).1
        (btreeDescendWithPathLazy load node.btree c).2 entry) := by
  subst hkey
  have hsafe' : splitsAboveSeparator cfg load node.btree entry = true := by
    rw [← hsafe]
    exact splitsAboveSeparator_congr rfl
  exact h.btree.insert hnone hsafe'

theorem TrieOk.attachPath (c : Chunk) :
    TrieOk load (node.attachPath (btreeDescendWithPathLazy load node.btree c).1
        (btreeDescendWithPathLazy load node.btree c).2) ∧
      ∀ q, contentAt load (node.attachPath (btreeDescendWithPathLazy load node.btree c).1
        (btreeDescendWithPathLazy load node.btree c).2) q = contentAt load node q := by
  obtain ⟨htree, hfind⟩ := h.btree.attach c
  refine ⟨intro htree ?_, ?_⟩
  · intro k e next hk hnext
    exact h.child ((hfind k).symm.trans hk) hnext
  · intro q
    cases q with
    | nil => rfl
    | cons k rest =>
      rw [contentAt_cons, contentAt_cons]
      exact congrArg (fun o => o.bind fun e => e.contentAt load rest) (hfind k)

end Nodes

/-! ### Insert -/

/-- What an insert of `value` at `txnId` along `steps` makes of a node. -/
structure InsertEffect (cfg : Config) (load : Loader) (value : Bytes) (txnId : TransactionId)
    (steps : List PathStep) (node : HbtrieNode) (result : HbtrieNode × Bool) : Prop where
  ok : TrieOk load result.1
  accepted : result.2 = stepsAccepted cfg steps
  content : ∀ q, contentAt load result.1 q =
    if result.2 = true ∧ q = stepChunks steps then
      some (.write (contentAt load node q) value txnId)
    else contentAt load node q

section Inserts

variable (cfg : Config) (load : Loader) (value : Bytes) (txnId : TransactionId)

/-- An insert into a trie of search trees, step by step: the entry at the final chunk takes the
value, those on the way the node below them. -/
inductive Inserts : List PathSubscriptMeta → List PathStep → HbtrieNode → HbtrieNode × Bool → Prop
  | refused {pathMeta node identifier rest} : identifierRefused cfg identifier = true →
      Inserts pathMeta (.enter identifier :: rest) node (node, false)
  | enter {pathMeta node identifier rest result} : identifierRefused cfg identifier = false →
      Inserts (pathMeta ++ [⟨identifier.chunks.length, identifier.length⟩]) rest node result →
        Inserts pathMeta (.enter identifier :: rest) node result
  | newValue {pathMeta node node' c} : bnodeFindLeafLazy load node.btree c = none →
      Rewritten load node c ⟨c, .value (.write none value txnId) pathMeta none, 0⟩ node' →
        Inserts pathMeta [.chunk c] node (node', true)
  | oldValue {pathMeta node node' c e} : bnodeFindLeafLazy load node.btree c = some e →
      Rewritten load node c (e.insertValue value txnId pathMeta) node' →
        Inserts pathMeta [.chunk c] node (node', true)
  | newChild {pathMeta node node' c step rest below} :
      bnodeFindLeafLazy load node.btree c = none →
      Inserts pathMeta (step :: rest) hbtrieNodeCreate below →
      Rewritten load node c ⟨c, .child (some below.1), 0⟩ node' →
        Inserts pathMeta (.chunk c :: step :: rest) node (node', below.2)
  | oldChild {pathMeta node node' c e step rest below} :
      bnodeFindLeafLazy load node.btree c = some e →
      Inserts pathMeta (step :: rest) ((e.loadedTrieNode load).getD hbtrieNodeCreate) below →
      Rewritten load node c (e.setTrieNode below.1) node' →
        Inserts pathMeta (.chunk c :: step :: rest) node (node', below.2)

variable {cfg load value txnId} {pathMeta : List PathSubscriptMeta} {node : HbtrieNode}

theorem hbtrieInsertSteps_inserts (hok : TrieOk load node) (hend : EndsInChunk steps)
    (hsafe : insertSplitsSafely cfg load node steps) :
    Inserts cfg load value txnId pathMeta steps node
      (hbtrieInsertSteps cfg load value txnId pathMeta node steps) := by
  induction steps using stepsInduction generalizing pathMeta node with
  | nil => exact absurd rfl hend.stepChunks_ne_nil
  | enter identifier rest ih =>
    rw [hbtrieInsertSteps]
    cases hrefused : identifierRefused cfg identifier with
    | true => exact .refused hrefused
    | false =>
      refine .enter hrefused (ih hok hend.of_enter ?_)
      simpa [insertSplitsSafely, hrefused] using hsafe
  | chunk c rest ih =>
    rw [insertSplitsSafely] at hsafe
    cases hfound : bnodeFindLeafLazy load node.btree c with
    | none =>
      rw [hfound] at hsafe
      cases rest with
      | nil =>
        simp only [hbtrieInsertSteps, hok.btree.ensureBtreeLoaded_eq, bnodeFind_descend, hfound]
        exact .newValue hfound (hok.insertEntry rfl hfound hsafe)
      | cons step rest =>
        simp only [hbtrieInsertSteps, hok.btree.ensureBtreeLoaded_eq, bnodeFind_descend, hfound]
        exact .newChild hfound (ih (TrieOk.create load) hend.of_cons
          (insertSplitsSafely_create ..)) (hok.insertEntry rfl hfound hsafe)
    | some e =>
      rw [hfound] at hsafe
      have hkey := hok.btree.key_of_find hfound
      cases rest with
      | nil =>
        simp only [hbtrieInsertSteps, hok.btree.ensureBtreeLoaded_eq, bnodeFind_descend, hfound]
        exact .oldValue hfound (hok.updateEntry hfound ((insertValue_key ..).trans hkey) true)
      | cons step rest =>
        simp only [hbtrieInsertSteps, hok.btree.ensureBtreeLoaded_eq, bnodeFind_descend, hfound]
        exact .oldChild hfound (ih (hok.below hfound) hend.of_cons hsafe)
          (hok.updateEntry hfound ((setTrieNode_key ..).trans hkey) _)

variable {node' : HbtrieNode} {c : Chunk} {e' : BnodeEntry}

/-- The final chunk: the entry there takes the value and keeps its subtree. -/
theorem InsertEffect.final (h : TrieOk load node) (hnew : Rewritten load node c e' node')
    (hcontent : e'.content = some (.write (contentAt load node [c]) value txnId))
    (hloaded : e'.loadedTrieNode load =
      (bnodeFindLeafLazy load node.btree c).bind fun e => e.loadedTrieNode load) :
    InsertEffect cfg load value txnId [.chunk c] node (node', true) := by
  refine ⟨h.rewrite hnew ?_, rfl, hnew.content ?_ ?_ ?_⟩
  · intro next hnext
    rw [hloaded] at hnext
    obtain ⟨e, he, hnext⟩ := bind_eq_some_iff.mp hnext
    exact h.child he hnext
  · exact fun q hq => if_neg (by rintro ⟨-, rfl⟩; exact hq rfl)
  · rw [hcontent]
    exact if_pos ⟨rfl, rfl⟩
  · intro d q
    simp [hloaded, contentAt]

theorem InsertEffect.descend {next : HbtrieNode} {below : HbtrieNode × Bool}
    (hbelow : InsertEffect cfg load value txnId (step :: rest) next below)
    (hend : EndsInChunk (step :: rest)) (h : TrieOk load node)
    (hnew : Rewritten load node c e' node') (hcontent : e'.content = contentAt load node [c])
    (hloaded : e'.loadedTrieNode load = some below.1)
    (hnext : ∀ d q, contentAt load next (d :: q) = contentAt load node (c :: d :: q)) :
    InsertEffect cfg load value txnId (.chunk c :: step :: rest) node (node', below.2) := by
  refine ⟨h.rewrite hnew ?_, hbelow.accepted, hnew.content ?_ ?_ ?_⟩
  · intro n hn
    rw [hloaded] at hn
    cases hn
    exact hbelow.ok
  · exact fun q hq => if_neg (by rintro ⟨-, rfl⟩; exact hq rfl)
  · exact (if_neg fun h => hend.stepChunks_ne_nil (List.cons.inj h.2).2.symm).trans hcontent.symm
  · intro d q
    rw [hloaded, bind_some, hbelow.content, hnext, stepChunks_chunk]
    simp only [List.cons.injEq, true_and]

/-- The content at the chunks of the path is the written one, unless a component is refused. -/
theorem Inserts.effect {result : HbtrieNode × Bool}
    (h : Inserts cfg load value txnId pathMeta steps node result) (hok : TrieOk load node)
    (hend : EndsInChunk steps) : InsertEffect cfg load value txnId steps node result := by
  induction h with
  | refused hrefused =>
    exact ⟨hok, by simp [stepsAccepted, PathStep.accepted, hrefused], by simp⟩
  | enter hrefused _ ih =>
    obtain ⟨hok', hacc, hcontent⟩ := ih hok hend.of_enter
    exact ⟨hok', by simp [hacc, stepsAccepted, PathStep.accepted, hrefused], hcontent⟩
  | newValue hfind hnew =>
    refine .final hok hnew ?_ ?_
    · simp [content, contentAt, hfind]
    · simp [loadedTrieNode, trieNode, hbtrieLoadChildNode, hfind]
  | oldValue hfind hnew => exact .final hok hnew (by simp [contentAt, hfind]) (by simp [hfind])
  | newChild hfind _ hnew ih =>
    refine (ih (TrieOk.create load) hend.of_cons).descend hend.of_cons hok hnew ?_ rfl ?_
    · simp [content, contentAt, hfind]
    · intro d q
      rw [contentAt_create, contentAt, hfind]
      rfl
  | @oldChild _ _ _ _ e _ _ _ hfind _ hnew ih =>
    refine (ih (hok.below hfind) hend.of_cons).descend hend.of_cons hok hnew ?_ (by simp) ?_
    · simp [contentAt, hfind]
    · intro d q
      rw [contentAt, hfind, bind_some]
      cases e.loadedTrieNode load with
      | none => exact contentAt_create load (d :: q)
      | some next => rfl

end Inserts

/-! ### Delete -/

/-- What a delete at `txnId` along `steps` makes of a node. -/
structure DeleteEffect (load : Loader) (txnId : TransactionId) (steps : List PathStep)
    (node node' : HbtrieNode) : Prop where
  ok : TrieOk load node'
  content : ∀ q, contentAt load node' q =
    if q = stepChunks steps then (contentAt load node q).map fun content => content.delete txnId
    else contentAt load node q

section Deletes

variable (load : Loader) (txnId : TransactionId)

/-- A delete in a trie of search trees: it finds nothing, or the entry at the final chunk takes a
tombstone. -/
inductive Deletes : List PathStep → HbtrieNode → HbtrieNode → Prop
  | nil {node} : Deletes [] node node
  | enter {node node' identifier rest} :
      Deletes rest node node' → Deletes (.enter identifier :: rest) node node'
  | missed {node c rest} :
      (EndsInChunk (.chunk c :: rest) → contentAt load node (stepChunks (.chunk c :: rest)) =
        none) →
        Deletes (.chunk c :: rest) node (node.attachPath
          (btreeDescendWithPathLazy load node.btree c).1
          (btreeDescendWithPathLazy load node.btree c).2)
  | final {node node' c e} : bnodeFindLeafLazy load node.btree c = some e →
      Rewritten load node c (e.deleteValue txnId) node' → Deletes [.chunk c] node node'
  | child {node node' c e step rest next below} : bnodeFindLeafLazy load node.btree c = some e →
      e.loadedTrieNode load = some next → Deletes (step :: rest) next below →
      Rewritten load node c (e.setTrieNode below) node' →
        Deletes (.chunk c :: step :: rest) node node'

variable {load txnId} {node node' : HbtrieNode}

theorem hbtrieDeleteSteps_deletes (hok : TrieOk load node) :
    Deletes load txnId steps node (hbtrieDeleteSteps load txnId node steps).1 := by
  induction steps using stepsInduction generalizing node with
  | nil => exact .nil
  | enter identifier rest ih => exact .enter (ih hok)
  | chunk c rest ih =>
    cases hfound : bnodeFindLeafLazy load node.btree c with
    | none =>
      simp only [hbtrieDeleteSteps, hok.btree.ensureBtreeLoaded_eq, bnodeFind_descend, hfound]
      refine .missed fun _ => ?_
      rw [stepChunks_chunk, contentAt_cons, hfound]
      rfl
    | some e =>
      have hkey := hok.btree.key_of_find hfound
      cases rest with
      | nil =>
        simp only [hbtrieDeleteSteps, hok.btree.ensureBtreeLoaded_eq, bnodeFind_descend, hfound]
        cases hcontent : e.content with
        | none => exact .missed fun _ => by simp [contentAt, hfound, hcontent]
        | some content =>
          exact .final hfound (hok.updateEntry hfound ((deleteValue_key e txnId).trans hkey) true)
      | cons step rest =>
        simp only [hbtrieDeleteSteps, hok.btree.ensureBtreeLoaded_eq, bnodeFind_descend, hfound]
        cases hload : e.loadedTrieNode load with
        | none =>
          refine .missed fun hend => ?_
          obtain ⟨d, q, hq⟩ := List.exists_cons_of_ne_nil hend.of_cons.stepChunks_ne_nil
          rw [stepChunks_chunk, hq, contentAt, hfound, bind_some, hload]
          rfl
        | some next =>
          exact .child hfound hload (ih (hok.child hfound hload)) (hok.updateEntry hfound
            ((setTrieNode_key e _).trans hkey) e.trieNode.isNone)

/-- A tombstone at the chunks of the path, if something is stored there. -/
theorem Deletes.effect (h : Deletes load txnId steps node node') (hok : TrieOk load node)
    (hend : EndsInChunk steps) : DeleteEffect load txnId steps node node' := by
  induction h with
  | nil => exact absurd rfl hend.stepChunks_ne_nil
  | enter _ ih =>
    obtain ⟨hok', hcontent⟩ := ih hok hend.of_enter
    exact ⟨hok', hcontent⟩
  | @missed node c rest hnone =>
    obtain ⟨hattach, hsame⟩ := hok.attachPath c
    refine ⟨hattach, fun q => ?_⟩
    rw [hsame q]
    split
    · rename_i hq
      rw [hq, hnone hend]
      rfl
    · rfl
  | final hfind hnew =>
    refine ⟨hok.rewrite hnew fun next hnext => ?_, hnew.content ?_ ?_ ?_⟩
    · rw [deleteValue_loaded] at hnext
      exact hok.child hfind hnext
    · exact fun q hq => if_neg (by rintro rfl; exact hq rfl)
    · simp [contentAt, hfind]
    · intro d q
      simp [contentAt, hfind]
  | child hfind hnext _ hnew ih =>
    have hbelow := ih (hok.child hfind hnext) hend.of_cons
    refine ⟨hok.rewrite hnew fun n hn => ?_, hnew.content ?_ ?_ ?_⟩
    · rw [setTrieNode_loaded] at hn
      cases hn
      exact hbelow.ok
    · exact fun q hq => if_neg (by rintro rfl; exact hq rfl)
    · have hne := Ne.symm hend.of_cons.stepChunks_ne_nil
      simp [contentAt, hfind, hne]
    · intro d q
      simp [contentAt, hfind, hnext, hbelow.content]

/-- A delete adds a tombstone at its own chunks if something is stored there;
everything else stays. -/
theorem hbtrieDeleteSteps_spec (hok : TrieOk load node) (hend : EndsInChunk steps) :
    DeleteEffect load txnId steps node (hbtrieDeleteSteps load txnId node steps).1 :=
  (hbtrieDeleteSteps_deletes hok).effect hok hend

end Deletes

/-! ### Find -/

theorem hbtrieFindAttach_spec {load : Loader} {node : HbtrieNode} (hok : TrieOk load node) :
    TrieOk load (hbtrieFindAttach load node steps) ∧
      ∀ q, contentAt load (hbtrieFindAttach load node steps) q = contentAt load node q := by
  induction steps using stepsInduction generalizing node with
  | nil => exact ⟨hok, fun _ => rfl⟩
  | enter identifier rest ih => exact ih hok
  | chunk c rest ih =>
    have hattach := hok.attachPath c
    cases rest with
    | nil => simpa only [hbtrieFindAttach] using hattach
    | cons step rest =>
      rcases hfind : bnodeFind (btreeDescendWithPathLazy load node.btree c).2 c with
        ⟨found, index⟩
      cases found with
      | none =>
        rw [hbtrieFindAttach.eq_def]
        simpa only [hfind] using hattach
      | some e =>
        have hsome : bnodeFindLeafLazy load node.btree c = some e := congrArg Prod.fst hfind
        obtain rfl : bnodeSearch (btreeDescendWithPathLazy load node.btree c).2 c = index :=
          congrArg Prod.snd hfind
        cases hnext : e.loadedTrieNode load with
        | none =>
          rw [hbtrieFindAttach.eq_def]
          simpa only [hfind, hnext] using hattach
        | some next =>
          obtain ⟨hokNext, hcontentNext⟩ := ih (hok.child hsome hnext)
          rw [hbtrieFindAttach.eq_def]
          simp only [hfind, hnext]
          generalize hbtrieFindAttach load next (step :: rest) = next' at *
          have hkey := (setTrieNode_key e next').trans (hok.btree.key_of_find hsome)
          have hnew := hok.updateEntry hsome hkey false
          refine ⟨hok.rewrite hnew fun n hn => ?_, hnew.content (fun _ _ => rfl) ?_ ?_⟩
          · rw [setTrieNode_loaded] at hn
            cases hn
            exact hokNext
          · simp [contentAt, hsome]
          · intro d q
            simp [contentAt, hsome, hnext, hcontentNext]

end WaveDB.HBTrie
