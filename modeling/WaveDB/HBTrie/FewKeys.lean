import WaveDB.HBTrie.GcPreserves

/-!
Tries of a few keys.

A bnode is split from four entries on. After three inserts every B+tree of the trie is still a
single leaf, and a leaf without a separator above it splits safely: four inserts into an empty
trie are a safe run whatever the node size is (`safeRun_of_length_le_four`).
-/

namespace WaveDB.HBTrie

open Workers List BnodeEntry

/-- The node is a leaf with at most this many entries. -/
structure Flat (n : Nat) (node : Bnode) : Prop where
  leaf : node.level = 1
  few : node.entries.length ≤ n

theorem flat_create (n : Nat) : Flat n (bnodeCreateWithLevel 1) := ⟨rfl, Nat.zero_le n⟩

section Flat

variable {cfg : Config} {load : Loader} {n : Nat} {node : HbtrieNode} {leaf : Bnode}

theorem btreeDescend_of_leaf (h : leaf.level = 1) (key : Chunk) :
    btreeDescendWithPathLazy load leaf key = ([], leaf) := by
  rw [btreeDescendWithPathLazy, h, btreeDescendLoop, if_neg (by omega)]

theorem insertSplitsSafely_of_flat (hload : LoadsAll (Flat n) load)
    (h : node.btree.Everywhere (Flat n)) (steps : List PathStep) :
    insertSplitsSafely cfg load node steps = true := by
  induction steps using stepsInduction generalizing node with
  | nil => rfl
  | enter identifier rest ih => rw [insertSplitsSafely, ih h, Bool.or_true]
  | chunk c rest ih =>
    have hleaf := (h _ .self).leaf
    rw [insertSplitsSafely]
    cases hfind : bnodeFindLeafLazy load node.btree c with
    | none =>
      -- a leaf that is the root splits safely
      simp only [splitsAboveSeparator, btreeDescend_of_leaf hleaf]
      exact Option.all_eq_true _ _ |>.mpr fun _ _ => rfl
    | some e =>
      refine ih ?_
      cases hloaded : e.loadedTrieNode load with
      | none => exact Bnode.everywhere_create (flat_create n)
      | some next =>
        obtain ⟨-, -, -, hbelow⟩ := bnodeFindLeafLazy_below hload h hfind
        exact hbelow.loadedTrieNode hload hloaded

theorem Bnode.Everywhere.flat_mono {m : Nat} (hle : m ≤ n) (h : leaf.Everywhere (Flat m)) :
    leaf.Everywhere (Flat n) := fun b hb => ⟨(h b hb).leaf, (h b hb).few.trans hle⟩

theorem btreeInsertAt_flat {entry : BnodeEntry} (hn : n < 3) (h : leaf.Everywhere (Flat n))
    (hentry : entry.Below (Flat (n + 1))) :
    (btreeInsertAt cfg [] leaf entry).Everywhere (Flat (n + 1)) := by
  have hself := h leaf .self
  have hlength : (bnodeInsert leaf entry).entries.length ≤ n + 1 := by
    exact length_insertIdx_le_succ.trans (Nat.succ_le_succ hself.few)
  have hsplit : splitIfNeeded cfg (bnodeInsert leaf entry).markDirty =
      ((bnodeInsert leaf entry).markDirty, none) := by
    have hfew : ¬ 4 ≤ (bnodeInsert leaf entry).markDirty.entries.length := by
      change ¬ 4 ≤ (bnodeInsert leaf entry).entries.length
      omega
    rw [splitIfNeeded, bnodeNeedsSplit, decide_eq_false hfew]
    rfl
  have hinserted := bnodeInsert_everywhere (h.flat_mono (Nat.le_succ n))
    ⟨hself.leaf, hlength⟩ hentry
  rw [btreeInsertAt, btreeSplitAfterInsert, hsplit]
  exact hinserted.of_entries ⟨hself.leaf, hlength⟩ fun e he => .inl he

theorem updateEntry_flat {index : Nat} {entry : BnodeEntry} (dirty : Bool)
    (h : leaf.Everywhere (Flat n)) (hentry : entry.Below (Flat n)) :
    (node.updateEntry [] leaf index entry dirty).btree.Everywhere (Flat n) := by
  have hself := h leaf .self
  have hset : (leaf.setEntry index entry).Everywhere (Flat n) := by
    refine h.of_entries ⟨hself.leaf, (length_set ..).trans_le hself.few⟩ fun e he => ?_
    rcases mem_or_eq_of_mem_set he with hold | rfl
    · exact .inl hold
    · exact .inr hentry
  cases dirty with
  | false => exact hset
  | true =>
    have hroot := hset (leaf.setEntry index entry) .self
    exact hset.of_entries ⟨hroot.leaf, hroot.few⟩ fun e he => .inl he

theorem hbtrieInsertSteps_flat {value : Bytes} {txnId : TransactionId} (hn : n < 3)
    (hload : LoadsAll (Flat n) load) {steps : List PathStep}
    {pathMeta : List PathSubscriptMeta} (h : node.btree.Everywhere (Flat n)) :
    (hbtrieInsertSteps cfg load value txnId pathMeta node steps).1.btree.Everywhere
      (Flat (n + 1)) := by
  have hmono := fun {leaf : Bnode} (h : leaf.Everywhere (Flat n)) => h.flat_mono (Nat.le_succ n)
  have hensure {node : HbtrieNode} (h : node.btree.Everywhere (Flat n)) (c : Chunk) :
      ensureBtreeLoaded load node.btree c = some ([], node.btree) := by
    rw [ensureBtreeLoaded, btreeDescend_of_leaf (h _ .self).leaf]
    exact if_neg (by rw [(h _ .self).leaf]; decide)
  fun_induction hbtrieInsertSteps cfg load value txnId pathMeta node steps with
  | case1 | case2 | case4 => exact hmono h
  | case3 _ _ _ _ _ ih => exact ih h
  | case5 _ _ c _ _ hloaded =>
    cases hloaded.symm.trans (hensure h c)
    exact btreeInsertAt_flat hn h (below_of_slot (by rintro _ ⟨⟩) (by rintro _ ⟨⟩))
  | case6 _ _ c _ _ hloaded e _ hfind =>
    cases hloaded.symm.trans (hensure h c)
    have he := h.below (mem_of_bnodeFind (congrArg Prod.fst hfind))
    refine updateEntry_flat _ (hmono h) (below_of_slot (e.insertValue_slot _ _ _)
      fun next hnext => ?_)
    exact hmono (he.under next (by simpa using hnext))
  | case7 _ _ c _ _ hloaded _ _ _ _ _ ih =>
    cases hloaded.symm.trans (hensure h c)
    refine btreeInsertAt_flat hn h (below_of_slot (by rintro _ ⟨⟩) ?_)
    rintro next ⟨⟩
    exact ih (Bnode.everywhere_create (flat_create n))
  | case8 _ _ c _ _ hloaded _ _ e _ hfind _ _ ih =>
    cases hloaded.symm.trans (hensure h c)
    have he := h.below (mem_of_bnodeFind (congrArg Prod.fst hfind))
    refine updateEntry_flat _ (hmono h) (below_of_slot (e.setTrieNode_slot _) fun next hnext => ?_)
    rw [setTrieNode_trieNode] at hnext
    cases hnext
    exact ih (he.nextNode hload (flat_create n))

end Flat

def TrieOp.isInsert : TrieOp → Bool
  | .insert _ _ _ => true
  | .delete _ _ => false

/-- After at most three inserts every B+tree is a leaf. -/
theorem runOps_flat (cfg : Config) {ops : List TrieOp} (hlength : ops.length ≤ 3)
    (hinserts : ∀ op ∈ ops, op.isInsert) :
    (runOps cfg noLoader ops).btree.Everywhere (Flat ops.length) := by
  induction ops using reverseRecOn with
  | nil => exact Bnode.everywhere_create (flat_create 0)
  | append_singleton ops op ih =>
    rw [length_append, length_singleton] at hlength
    have hflat := ih (by omega) fun op hop => hinserts op (mem_append_left _ hop)
    have hop := hinserts op (mem_append_right _ (mem_singleton_self op))
    rw [runOps_concat, length_append, length_singleton]
    cases op with
    | insert path value txnId =>
      rw [applyOp, hbtrieInsert]
      split
      · exact hflat.flat_mono (Nat.le_succ _)
      · exact hbtrieInsertSteps_flat (by omega) loadsAll_noLoader hflat
    | delete path txnId => cases hop

theorem safeRun_of_length_le_four (cfg : Config) {ops : List TrieOp} (hlength : ops.length ≤ 4)
    (hinserts : ∀ op ∈ ops, op.isInsert) (hvalid : ∀ op ∈ ops, ValidPath op.path) :
    SafeRun cfg noLoader ops := by
  refine ⟨hvalid, fun i hi => ?_⟩
  have hflat : (runOps cfg noLoader (ops.take i)).btree.Everywhere
      (Flat (ops.take i).length) := by
    refine runOps_flat cfg ?_ fun op hop => hinserts op (mem_of_mem_take hop)
    rw [length_take]
    omega
  cases hop : ops[i] with
  | insert path value txnId => exact insertSplitsSafely_of_flat loadsAll_noLoader hflat _
  | delete path txnId => rfl

end WaveDB.HBTrie
