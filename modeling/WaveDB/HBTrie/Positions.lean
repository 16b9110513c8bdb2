import WaveDB.HBTrie.NodeInvariant
import WaveDB.HBTrie.Stored

/-!
Positions in a trie in memory.

A bnode is named by the entry indices that lead to it from the root of the trie, through
child bnodes and child tries alike (`Bnode.bnodeAt`); a trie node by the position of the
root of its B+tree (`HbtrieNode.nodeAt`). C code that follows a pointer to a node and writes
to its fields is `modifyAt` or `modifyNodeAt` here. Seen as a map from positions to nodes
without what hangs below them (`aloneAt`), such a write changes one point:
`aloneAt_modifyAt` and `nodeFlagsAt_modifyNodeAt` are the rules every walk uses.
-/

namespace WaveDB.HBTrie

open WaveDB.Basis Workers List Option BnodeEntry HbtrieNode

/-! ### Rewriting below an entry -/

def BnodeEntry.mapBelow (f : Bnode → Bnode) (g : HbtrieNode → HbtrieNode) (e : BnodeEntry) :
    BnodeEntry :=
  match e.slot with
  | .child node => { e with slot := .child (node.map g) }
  | .childBnode node => { e with slot := .childBnode (node.map f) }
  | .value content pathMeta node => { e with slot := .value content pathMeta (node.map g) }

section MapBelow

variable (f : Bnode → Bnode) (g : HbtrieNode → HbtrieNode) (e : BnodeEntry)

@[simp] theorem BnodeEntry.mapBelow_trieNode : (e.mapBelow f g).trieNode = e.trieNode.map g := by
  cases e <;> rfl

variable {f g e}

theorem BnodeEntry.mapBelow_slot_eq {child : Option Bnode}
    (h : (e.mapBelow f g).slot = .childBnode child) :
    ∃ old, e.slot = .childBnode old ∧ child = old.map f := by
  cases e with
  | child node => cases h
  | childBnode node =>
    cases h
    exact ⟨node, rfl, rfl⟩
  | value content pathMeta node => cases h

theorem BnodeEntry.mapBelow_eq_self
    (hf : ∀ child, e.slot = .childBnode (some child) → f child = child)
    (hg : ∀ next, e.trieNode = some next → g next = next) : e.mapBelow f g = e := by
  cases e with
  | child node | value content pathMeta node => cases node with
      | none => rfl
      | some next => simp [mapBelow, hg next rfl]
  | childBnode node => cases node with
      | none => rfl
      | some child => simp [mapBelow, hf child rfl]

end MapBelow

def HbtrieNode.mapBtree (f : Bnode → Bnode) (node : HbtrieNode) : HbtrieNode :=
  { node with btree := f node.btree }

/-! ### Recursion over a trie in memory -/

section BottomUp

variable (f : Bnode → Bnode) (g : HbtrieNode → HbtrieNode)

mutual

def Bnode.bottomUp : Bnode → Bnode
  | ⟨level, entries, diskOffset, isDirty⟩ =>
    f ⟨level, bottomUpEntries entries, diskOffset, isDirty⟩

def bottomUpEntries : List BnodeEntry → List BnodeEntry
  | [] => []
  | e :: es => bottomUpEntry e :: bottomUpEntries es

def bottomUpEntry : BnodeEntry → BnodeEntry
  | ⟨key, .child node, offset⟩ => ⟨key, .child (bottomUpChild node), offset⟩
  | ⟨key, .childBnode node, offset⟩ => ⟨key, .childBnode (bottomUpChildBnode node), offset⟩
  | ⟨key, .value content pathMeta node, offset⟩ =>
    ⟨key, .value content pathMeta (bottomUpChild node), offset⟩

def bottomUpChildBnode : Option Bnode → Option Bnode
  | none => none
  | some node => some node.bottomUp

def bottomUpChild : Option HbtrieNode → Option HbtrieNode
  | none => none
  | some node => some node.bottomUp

def HbtrieNode.bottomUp : HbtrieNode → HbtrieNode
  | ⟨btree, diskOffset, isDirty⟩ => g ⟨btree.bottomUp, diskOffset, isDirty⟩

end

theorem bottomUpEntries_eq (es : List BnodeEntry) :
    bottomUpEntries f g es = es.map (mapBelow (Bnode.bottomUp f g) (bottomUp f g)) := by
  have hentry : ∀ e : BnodeEntry, bottomUpEntry f g e =
      e.mapBelow (Bnode.bottomUp f g) (bottomUp f g) := by
    rintro ⟨key, slot, offset⟩
    cases slot with
    | child node | childBnode node | value content pathMeta node => cases node <;> rfl
  induction es with
  | nil => rfl
  | cons e es ih => rw [bottomUpEntries, ih, hentry, map_cons]

theorem Bnode.bottomUp_eq (node : Bnode) : node.bottomUp f g = f { node with
        entries := node.entries.map
          (BnodeEntry.mapBelow (bottomUp f g) (HbtrieNode.bottomUp f g)) } := by
  cases node
  rw [bottomUp, bottomUpEntries_eq]

end BottomUp

/-! ### The bnodes of one B+tree -/

mutual

def Bnode.treeNodes : Bnode → List Bnode
  | ⟨level, entries, diskOffset, isDirty⟩ =>
    ⟨level, entries, diskOffset, isDirty⟩ :: treeNodesEntries entries

def treeNodesEntries : List BnodeEntry → List Bnode
  | [] => []
  | e :: es => treeNodesEntry e ++ treeNodesEntries es

def treeNodesEntry : BnodeEntry → List Bnode
  | ⟨_, .childBnode node, _⟩ => treeNodesChild node
  | ⟨_, .child _, _⟩ => []
  | ⟨_, .value _ _ _, _⟩ => []

def treeNodesChild : Option Bnode → List Bnode
  | none => []
  | some node => node.treeNodes

end

variable {b node : Bnode} {next : HbtrieNode}

theorem mem_treeNodesEntry {e : BnodeEntry} :
    b ∈ treeNodesEntry e ↔ ∃ child, e.slot = .childBnode (some child) ∧ b ∈ child.treeNodes := by
  cases e with
  | child node | value content pathMeta node => simp [treeNodesEntry]
  | childBnode node => cases node <;> simp [treeNodesEntry, treeNodesChild]

theorem Bnode.mem_treeNodes_iff :
    b ∈ node.treeNodes ↔ b = node ∨ ∃ e ∈ node.entries, ∃ child, e.slot = .childBnode (some child) ∧
      b ∈ child.treeNodes := by
  have hentries : ∀ es, b ∈ treeNodesEntries es ↔ ∃ e ∈ es, b ∈ treeNodesEntry e := by
    intro es
    induction es with
    | nil => simp [treeNodesEntries]
    | cons e es ih => simp [treeNodesEntries, ih]
  cases node
  simp only [treeNodes, mem_cons, hentries, mem_treeNodesEntry]

theorem Bnode.mem_treeNodes : b ∈ node.treeNodes ↔ node.InTree b := by
  constructor
  · intro hb
    induction node using induction with
    | h node ih =>
      rcases mem_treeNodes_iff.mp hb with rfl | ⟨e, he, child, hslot, hchild⟩
      · exact .self
      · exact .child he hslot (ih e he child (bnodeBelow_childBnode hslot) hchild)
  · intro h
    induction h with
    | self => exact mem_treeNodes_iff.mpr (.inl rfl)
    | child he hslot _ ih => exact mem_treeNodes_iff.mpr (.inr ⟨_, he, _, hslot, ih⟩)

/-! ### The trie nodes below a bnode -/

mutual

def Bnode.tries : Bnode → List HbtrieNode
  | ⟨_, entries, _, _⟩ => triesEntries entries

def triesEntries : List BnodeEntry → List HbtrieNode
  | [] => []
  | e :: es => triesEntry e ++ triesEntries es

def triesEntry : BnodeEntry → List HbtrieNode
  | ⟨_, .childBnode node, _⟩ => triesChildBnode node
  | ⟨_, .child node, _⟩ => triesChild node
  | ⟨_, .value _ _ node, _⟩ => triesChild node

def triesChildBnode : Option Bnode → List HbtrieNode
  | none => []
  | some node => node.tries

def triesChild : Option HbtrieNode → List HbtrieNode
  | none => []
  | some ⟨btree, diskOffset, isDirty⟩ => ⟨btree, diskOffset, isDirty⟩ :: btree.tries

end

theorem mem_triesEntry {e : BnodeEntry} :
    next ∈ triesEntry e ↔ (∃ child, e.slot = .childBnode (some child) ∧ next ∈ child.tries) ∨
      ∃ trie, e.trieNode = some trie ∧ (next = trie ∨ next ∈ trie.btree.tries) := by
  have hchild : ∀ node : Option HbtrieNode, next ∈ triesChild node ↔
      ∃ trie, node = some trie ∧ (next = trie ∨ next ∈ trie.btree.tries) := by
    intro node
    cases node with
    | none => simp [triesChild]
    | some trie =>
      cases trie
      simp [triesChild]
  cases e with
  | child node | value content pathMeta node => simp [triesEntry, hchild, trieNode]
  | childBnode node => cases node <;> simp [triesEntry, triesChildBnode, trieNode]

theorem Bnode.mem_tries_iff : next ∈ node.tries ↔ ∃ e ∈ node.entries, next ∈ triesEntry e := by
  have hentries : ∀ es, next ∈ triesEntries es ↔ ∃ e ∈ es, next ∈ triesEntry e := by
    intro es
    induction es with
    | nil => simp [triesEntries]
    | cons e es ih => simp [triesEntries, ih]
  cases node
  exact hentries _

theorem Bnode.mem_tries :
    next ∈ node.tries ↔ ∃ b, node.Contains b ∧ ∃ e ∈ b.entries, e.trieNode = some next := by
  constructor
  · intro hnext
    induction node using induction with
    | h node ih =>
      obtain ⟨e, he, hnext⟩ := mem_tries_iff.mp hnext
      rcases mem_triesEntry.mp hnext with ⟨child, hslot, hbelow⟩ | ⟨trie, htrie, rfl | hbelow⟩
      · obtain ⟨b, hb, hentry⟩ := ih e he child (bnodeBelow_childBnode hslot) hbelow
        exact ⟨b, .inner he hslot hb, hentry⟩
      · exact ⟨node, .self, e, he, htrie⟩
      · obtain ⟨b, hb, hentry⟩ := ih e he trie.btree (bnodeBelow_trieNode htrie) hbelow
        exact ⟨b, .under he htrie hb, hentry⟩
  · rintro ⟨b, hb, e, he, hnext⟩
    induction hb with
    | self =>
      exact mem_tries_iff.mpr ⟨e, he, mem_triesEntry.mpr (.inr ⟨next, hnext, .inl rfl⟩)⟩
    | inner hx hslot _ ih =>
      exact mem_tries_iff.mpr ⟨_, hx, mem_triesEntry.mpr (.inl ⟨_, hslot, ih he⟩)⟩
    | under hx htrie _ ih =>
      exact mem_tries_iff.mpr ⟨_, hx, mem_triesEntry.mpr (.inr ⟨_, htrie, .inr (ih he)⟩)⟩

/-! ### Positions -/

def Bnode.bnodeAt : List Nat → Bnode → Option Bnode
  | [], node => some node
  | i :: pos, node => ((node.entries[i]?).bind bnodeBelow).bind (bnodeAt pos)

def Bnode.trieAt : List Nat → Bnode → Option HbtrieNode
  | [], _ => none
  | [i], node => (node.entries[i]?).bind trieNode
  | i :: j :: pos, node =>
    ((node.entries[i]?).bind bnodeBelow).bind (trieAt (j :: pos))

def HbtrieNode.nodeAt (root : HbtrieNode) : List Nat → Option HbtrieNode
  | [] => some root
  | i :: pos => root.btree.trieAt (i :: pos)

def Bnode.modifyBelow (node : Bnode) (i : Nat) (f : Bnode → Bnode) (g : HbtrieNode → HbtrieNode) :
    Bnode :=
  { node with entries := node.entries.modify i (mapBelow f g) }

def Bnode.modifyAt (f : Bnode → Bnode) : List Nat → Bnode → Bnode
  | [], node => f node
  | i :: pos, node => node.modifyBelow i (modifyAt f pos) (mapBtree (modifyAt f pos))

def Bnode.modifyTrieAt (g : HbtrieNode → HbtrieNode) : List Nat → Bnode → Bnode
  | [], node => node
  | [i], node => node.modifyBelow i id g
  | i :: j :: pos, node =>
    node.modifyBelow i (modifyTrieAt g (j :: pos)) (mapBtree (modifyTrieAt g (j :: pos)))

def HbtrieNode.modifyAt (f : Bnode → Bnode) (pos : List Nat) (root : HbtrieNode) : HbtrieNode :=
  root.mapBtree (Bnode.modifyAt f pos)

def HbtrieNode.modifyNodeAt (g : HbtrieNode → HbtrieNode) : List Nat → HbtrieNode → HbtrieNode
  | [], root => g root
  | i :: pos, root => root.mapBtree (Bnode.modifyTrieAt g (i :: pos))

def parentOf (pos : List Nat) : Option (List Nat × Nat) :=
  pos.getLast?.map fun i => (pos.dropLast, i)

/-! ### Nodes by themselves -/

def BnodeEntry.alone (e : BnodeEntry) : BnodeEntry :=
  e.mapBelow (fun _ => bnodeCreateWithLevel 0) (fun _ => hbtrieNodeCreate)

def Bnode.alone (node : Bnode) : Bnode := { node with entries := node.entries.map BnodeEntry.alone }

def Bnode.aloneAt (node : Bnode) (pos : List Nat) : Option Bnode :=
  (node.bnodeAt pos).map Bnode.alone

/-- The fields of a trie node besides its B+tree. -/
structure NodeFlags where
  diskOffset : Option Nat
  isDirty : Bool
deriving DecidableEq

def HbtrieNode.flags (node : HbtrieNode) : NodeFlags := ⟨node.diskOffset, node.isDirty⟩

def HbtrieNode.nodeFlagsAt (root : HbtrieNode) (pos : List Nat) : Option NodeFlags :=
  (root.nodeAt pos).map flags

/-- A change of a bnode that leaves everything below it as it is and does not look there. -/
structure Local (f : Bnode → Bnode) : Prop where
  alone : ∀ node, (f node).alone = f node.alone
  bnodeBelow : ∀ (node : Bnode) (i : Nat), ((f node).entries[i]?).bind bnodeBelow =
    (node.entries[i]?).bind bnodeBelow
  trieNode : ∀ (node : Bnode) (i : Nat), ((f node).entries[i]?).bind trieNode =
    (node.entries[i]?).bind trieNode

theorem Local.markDirty {f : Bnode → Bnode} (h : Local f) : Local fun bn => (f bn).markDirty where
  alone node := congrArg Bnode.markDirty (h.alone node)
  bnodeBelow node i := h.bnodeBelow node i
  trieNode node i := h.trieNode node i

section View

variable {f : Bnode → Bnode} {g : HbtrieNode → HbtrieNode}

theorem BnodeEntry.mapBelow_bnodeBelow (e : BnodeEntry) :
    (e.mapBelow f (mapBtree f)).bnodeBelow = e.bnodeBelow.map f := by
  cases e with
  | child node | value content pathMeta node => cases node <;> rfl
  | childBnode node => rfl

theorem BnodeEntry.mapBelow_id_bnodeBelow (hg : ∀ node, (g node).btree = node.btree)
    (e : BnodeEntry) : (e.mapBelow id g).bnodeBelow = e.bnodeBelow := by
  cases e with
  | child node | value content pathMeta node => cases node with
      | none => rfl
      | some node => exact congrArg some (hg node)
  | childBnode node => cases node <;> rfl

@[simp] theorem BnodeEntry.mapBelow_alone (e : BnodeEntry) : (e.mapBelow f g).alone = e.alone := by
  cases e <;> simp [alone, mapBelow, Function.comp_def]

variable (node : Bnode)

@[simp] theorem Bnode.modifyBelow_alone (i : Nat) :
    (node.modifyBelow i f g).alone = node.alone := by
  have hentries : (node.entries.modify i (BnodeEntry.mapBelow f g)).map BnodeEntry.alone =
      node.entries.map BnodeEntry.alone := by
    apply ext_getElem?
    intro j
    rw [getElem?_map, getElem?_modify, getElem?_map]
    cases node.entries[j]? with
    | none => rfl
    | some e =>
      simp only [Option.map_eq_map, map_some]
      split
      · rw [mapBelow_alone]
      · rfl
  simp only [alone, modifyBelow, hentries]

theorem Bnode.modifyBelow_entry {α : Type} (i j : Nat) (k : BnodeEntry → Option α)
    (k' : Option α → Option α) (hk : ∀ e, k (mapBelow f g e) = k' (k e)) (hnone : k' none = none) :
    ((node.modifyBelow i f g).entries[j]?).bind k =
      if i = j then k' ((node.entries[j]?).bind k) else (node.entries[j]?).bind k := by
  simp only [modifyBelow, getElem?_modify]
  cases node.entries[j]? with
  | none =>
    split
    · exact hnone.symm
    · rfl
  | some e =>
    by_cases h : i = j
    · simp [h, hk]
    · simp [h]

theorem Bnode.modifyBelow_bnodeBelow (i j : Nat) :
    ((node.modifyBelow i f (mapBtree f)).entries[j]?).bind bnodeBelow =
      if i = j then ((node.entries[j]?).bind bnodeBelow).map f
      else (node.entries[j]?).bind bnodeBelow :=
  node.modifyBelow_entry i j _ _ mapBelow_bnodeBelow rfl

theorem Bnode.modifyBelow_trieNode (i j : Nat) :
    ((node.modifyBelow i f g).entries[j]?).bind trieNode =
      if i = j then ((node.entries[j]?).bind trieNode).map g
      else (node.entries[j]?).bind trieNode :=
  node.modifyBelow_entry i j _ _ (fun e => e.mapBelow_trieNode f g) rfl

/-- A write to a bnode changes the bnode at its position and no other. -/
theorem Bnode.aloneAt_modifyAt (hf : Local f) (pos pos' : List Nat) (node : Bnode) :
    (node.modifyAt f pos).aloneAt pos' =
      if pos' = pos then (node.aloneAt pos').map f else node.aloneAt pos' := by
  induction pos generalizing node pos' with
  | nil =>
    cases pos' with
    | nil => exact congrArg some (hf.alone node)
    | cons i pos' =>
      simp only [aloneAt, modifyAt, bnodeAt, hf.bnodeBelow, if_neg (cons_ne_nil i pos')]
  | cons i pos ih =>
    cases pos' with
    | nil =>
      simp only [aloneAt, modifyAt, bnodeAt, map_some,
        modifyBelow_alone, if_neg (cons_ne_nil i pos).symm]
    | cons j pos' =>
      simp only [aloneAt, modifyAt, bnodeAt, modifyBelow_bnodeBelow, cons.injEq]
      by_cases hij : i = j
      · subst hij
        cases (node.entries[i]?).bind bnodeBelow with
        | none => simp
        | some child =>
          have hchild := ih pos' child
          simp only [aloneAt] at hchild
          simpa using hchild
      · rw [if_neg hij, if_neg fun h => hij h.1.symm]

theorem Bnode.trieAt_modifyAt (hf : Local f) (pos pos' : List Nat) (node : Bnode) :
    ((node.modifyAt f pos).trieAt pos').map flags = (node.trieAt pos').map flags := by
  induction pos' generalizing node pos with
  | nil => rfl
  | cons j pos' ih =>
    cases pos with
    | nil =>
      cases pos' with
      | nil => simp only [modifyAt, trieAt, hf.trieNode]
      | cons k pos' => simp only [modifyAt, trieAt, hf.bnodeBelow]
    | cons i pos =>
      cases pos' with
      | nil =>
        simp only [modifyAt, trieAt, modifyBelow_trieNode]
        split
        · rw [Option.map_map]
          rfl
        · rfl
      | cons k pos' =>
        simp only [modifyAt, trieAt, modifyBelow_bnodeBelow]
        split
        · cases (node.entries[j]?).bind bnodeBelow with
          | none => rfl
          | some child => exact ih pos child
        · rfl

/-- A write to a trie node changes the one at its position and no other. -/
theorem Bnode.trieAt_modifyTrieAt {k : NodeFlags → NodeFlags}
    (hg : ∀ node, (g node).btree = node.btree) (hk : ∀ node, (g node).flags = k node.flags)
    (pos pos' : List Nat) (node : Bnode) : ((node.modifyTrieAt g pos).trieAt pos').map flags =
      if pos' = pos then ((node.trieAt pos').map flags).map k
      else (node.trieAt pos').map flags := by
  induction pos' generalizing node pos with
  | nil => split <;> rfl
  | cons l pos' ih =>
    match pos, pos' with
    | [], pos' => simp only [modifyTrieAt, if_neg (cons_ne_nil l pos')]
    | [i], [] =>
      simp only [modifyTrieAt, trieAt, modifyBelow_trieNode, cons.injEq, and_true]
      by_cases hil : i = l
      · have hcomp : flags ∘ g = k ∘ flags := funext hk
        rw [if_pos hil, if_pos hil.symm, Option.map_map, Option.map_map, hcomp]
      · rw [if_neg hil, if_neg (Ne.symm hil)]
    | [i], m :: pos' =>
      have hbelow : ((node.modifyBelow i id g).entries[l]?).bind bnodeBelow =
          (node.entries[l]?).bind bnodeBelow := by
        rw [node.modifyBelow_entry i l _ id (mapBelow_id_bnodeBelow hg) rfl]
        split <;> rfl
      have hne : ¬ (l :: m :: pos' = [i]) := by simp
      simp only [modifyTrieAt, trieAt, hbelow, if_neg hne]
    | i :: j :: pos, [] =>
      have hne : ¬ ([l] = i :: j :: pos) := by simp
      simp only [modifyTrieAt, trieAt, modifyBelow_trieNode]
      split
      · rw [Option.map_map]
        rfl
      · rfl
    | i :: j :: pos, m :: pos' =>
      simp only [modifyTrieAt, trieAt, modifyBelow_bnodeBelow]
      by_cases hil : i = l
      · subst hil
        cases (node.entries[i]?).bind bnodeBelow with
        | none => simp
        | some child => simpa using ih (j :: pos) child
      · have hne : ¬ (l :: m :: pos' = i :: j :: pos) := by
          rintro ⟨⟩
          exact hil rfl
        rw [if_neg hil, if_neg hne]

end View

section Trie

variable {f : Bnode → Bnode} {g : HbtrieNode → HbtrieNode} (root : HbtrieNode)

theorem HbtrieNode.nodeFlagsAt_modifyAt (hf : Local f) (pos pos' : List Nat) :
    (root.modifyAt f pos).nodeFlagsAt pos' = root.nodeFlagsAt pos' := by
  cases pos' with
  | nil => rfl
  | cons i pos' => exact Bnode.trieAt_modifyAt hf pos (i :: pos') root.btree

theorem HbtrieNode.nodeFlagsAt_modifyNodeAt {k : NodeFlags → NodeFlags}
    (hg : ∀ node, (g node).btree = node.btree) (hk : ∀ node, (g node).flags = k node.flags)
    (pos pos' : List Nat) : (root.modifyNodeAt g pos).nodeFlagsAt pos' =
      if pos' = pos then (root.nodeFlagsAt pos').map k else root.nodeFlagsAt pos' := by
  cases pos with
  | nil =>
    cases pos' with
    | nil => exact congrArg some (hk root)
    | cons j pos' =>
      change ((g root).btree.trieAt (j :: pos')).map _ = _
      rw [hg]
      rfl
  | cons i pos =>
    cases pos' with
    | nil => rw [if_neg (cons_ne_nil i pos).symm]; rfl
    | cons j pos' => exact Bnode.trieAt_modifyTrieAt hg hk (i :: pos) (j :: pos') root.btree

end Trie

/-! ### All trie nodes below the root -/

/-- The property holds of the trie nodes below the entries of one bnode. -/
def Bnode.TriesBelow (Q : HbtrieNode → Prop) (node : Bnode) : Prop :=
  ∀ e ∈ node.entries, ∀ next, e.trieNode = some next → Q next

section TriesBelow

variable {Q : HbtrieNode → Prop}

/-- Entries that were there, or are all right themselves. -/
theorem Bnode.TriesBelow.of_entries {node' : Bnode} (h : node.TriesBelow Q)
    (hentries : ∀ e ∈ node'.entries, e ∈ node.entries ∨ ∀ next, e.trieNode = some next → Q next) :
    node'.TriesBelow Q := by
  intro e he
  rcases hentries e he with hold | hnew
  · exact h e hold
  · exact hnew

theorem Bnode.contains_of_bnodeAt {pos : List Nat} (h : node.bnodeAt pos = some b) :
    node.Contains b := by
  induction pos generalizing node with
  | nil =>
    cases h
    exact .self
  | cons i pos ih =>
    obtain ⟨child, hchild, hbelow⟩ := bind_eq_some_iff.mp h
    obtain ⟨e, he, hslot⟩ := bind_eq_some_iff.mp hchild
    rcases bnodeBelow_eq_some hslot with hslot | ⟨next, hnext, rfl⟩
    · exact .inner (mem_of_getElem? he) hslot (ih hbelow)
    · exact .under (mem_of_getElem? he) hnext (ih hbelow)

theorem Bnode.trieAt_eq_some {pos : List Nat} (h : node.trieAt pos = some next) :
    ∃ b, node.Contains b ∧ ∃ e ∈ b.entries, e.trieNode = some next := by
  induction pos generalizing node with
  | nil => cases h
  | cons i pos ih =>
    cases pos with
    | nil =>
      obtain ⟨e, he, hnext⟩ := bind_eq_some_iff.mp h
      exact ⟨node, .self, e, mem_of_getElem? he, hnext⟩
    | cons j pos =>
      obtain ⟨child, hchild, hbelow⟩ := bind_eq_some_iff.mp h
      obtain ⟨e, he, hslot⟩ := bind_eq_some_iff.mp hchild
      obtain ⟨b, hb, hentry⟩ := ih hbelow
      rcases bnodeBelow_eq_some hslot with hslot | ⟨next, hnext, rfl⟩
      · exact ⟨b, .inner (mem_of_getElem? he) hslot hb, hentry⟩
      · exact ⟨b, .under (mem_of_getElem? he) hnext hb, hentry⟩

theorem Bnode.Contains.exists_trieAt {e : BnodeEntry} (h : node.Contains b) (he : e ∈ b.entries)
    (hnext : e.trieNode = some next) : ∃ i pos, node.trieAt (i :: pos) = some next := by
  have hdown : ∀ {node child : Bnode} {x : BnodeEntry}, x ∈ node.entries →
      x.bnodeBelow = some child → (∃ i pos, child.trieAt (i :: pos) = some next) →
      ∃ i pos, node.trieAt (i :: pos) = some next := by
    rintro node child x hx hbelow ⟨j, pos, hat⟩
    obtain ⟨i, hi⟩ := mem_iff_getElem?.mp hx
    refine ⟨i, j :: pos, ?_⟩
    rw [trieAt, hi, bind_some, hbelow, bind_some, hat]
  induction h with
  | self =>
    obtain ⟨i, hi⟩ := mem_iff_getElem?.mp he
    refine ⟨i, [], ?_⟩
    rw [trieAt, hi, bind_some, hnext]
  | inner hx hslot _ ih => exact hdown hx (bnodeBelow_childBnode hslot) (ih he)
  | under hx htrie _ ih => exact hdown hx (bnodeBelow_trieNode htrie) (ih he)

theorem HbtrieNode.forall_nodeAt {root : HbtrieNode} :
    (∀ i pos node, root.nodeAt (i :: pos) = some node → Q node) ↔
      root.btree.Everywhere (Bnode.TriesBelow Q) := by
  constructor
  · intro h b hb e he next hnext
    obtain ⟨i, pos, hat⟩ := hb.exists_trieAt he hnext
    exact h i pos next hat
  · intro h i pos node hat
    obtain ⟨b, hb, e, he, hnext⟩ := Bnode.trieAt_eq_some hat
    exact h b hb e he node hnext

theorem Bnode.forall_mem_tries :
    (∀ next ∈ node.tries, Q next) ↔ node.Everywhere (TriesBelow Q) := by
  constructor
  · exact fun h b hb e he next hnext => h next (mem_tries.mpr ⟨b, hb, e, he, hnext⟩)
  · intro h next hnext
    obtain ⟨b, hb, e, he, htrie⟩ := mem_tries.mp hnext
    exact h b hb e he next htrie

/-- A change of one bnode keeps a property of all bnodes that does not look below. -/
theorem Bnode.modifyAt_everywhere {P : Bnode → Prop} {f : Bnode → Bnode}
    (hstable : ∀ (b : Bnode) (i : Nat) (f : Bnode → Bnode), P b → P (b.modifyBelow i f
      (mapBtree f))) (hf : ∀ b : Bnode, b.Everywhere P → (f b).Everywhere P)
    (pos : List Nat) (h : node.Everywhere P) : (node.modifyAt f pos).Everywhere P := by
  induction pos generalizing node with
  | nil => exact hf node h
  | cons i pos ih =>
    obtain ⟨hself, hbelow⟩ := everywhere_iff.mp h
    refine everywhere_iff.mpr ⟨hstable _ _ _ hself, ?_⟩
    intro e he
    rcases mem_modify_cases he with he | ⟨old, hold, rfl⟩
    · exact hbelow e he
    · have hold := hbelow old (mem_of_getElem? hold)
      constructor
      · intro child hslot
        obtain ⟨child', hslot', hchild⟩ := mapBelow_slot_eq hslot
        obtain ⟨child', rfl, rfl⟩ := map_eq_some_iff.mp hchild.symm
        exact ih (hold.inner child' hslot')
      · intro next hnext
        rw [mapBelow_trieNode] at hnext
        obtain ⟨next', hnext', rfl⟩ := map_eq_some_iff.mp hnext
        exact ih (hold.under next' hnext')

end TriesBelow

end WaveDB.HBTrie
