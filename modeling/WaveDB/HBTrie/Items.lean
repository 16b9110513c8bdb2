import WaveDB.HBTrie.Stored
import WaveDB.HBTrie.TrieMap

/-!
The values stored in a trie, in the order of a depth-first walk.

`items` goes through the entries of a B+tree node: an entry gives its own value and then what
is below it, a child bnode or a child trie; separators add nothing to a key. The recursion is
on a bound for the depth, which a trie in memory always has (`within_noLoader`).

In a trie whose B+trees are search trees the items are sorted by their chunks
(`items_ascending`), and they are what lookups find (`mem_items`).
-/

namespace WaveDB.HBTrie

open WaveDB.Basis List Option BnodeEntry

/-- A stored value with the chunks that lead to it. -/
structure StoredItem where
  chunks : List Chunk
  content : Content
  pathMeta : List PathSubscriptMeta
deriving DecidableEq

variable (load : Loader)

def BnodeEntry.loadedBelow (e : BnodeEntry) : Option Bnode :=
  match e.slot with
  | .childBnode _ => e.loadedBnode load
  | _ => (e.loadedTrieNode load).map HbtrieNode.btree

def BnodeEntry.keyChunks (e : BnodeEntry) : List Chunk := if e.isBnodeChild then [] else [e.key]

def BnodeEntry.own (above : List Chunk) (e : BnodeEntry) : List StoredItem :=
  match e.slot with
  | .value content pathMeta _ => [⟨above ++ [e.key], content, pathMeta⟩]
  | _ => []

def items (load : Loader) : Nat → List Chunk → Bnode → List StoredItem
  | 0, _, _ => []
  | depth + 1, above, node =>
    node.entries.flatMap fun e =>
      e.own above ++ ((e.loadedBelow load).map (items load depth (above ++ e.keyChunks))).getD []

def entryItems (depth : Nat) (above : List Chunk) (e : BnodeEntry) : List StoredItem :=
  e.own above ++ ((e.loadedBelow load).map (items load depth (above ++ e.keyChunks))).getD []

def Within (load : Loader) : Nat → Bnode → Prop
  | 0, _ => False
  | depth + 1, node => ∀ e ∈ node.entries, ∀ child, e.loadedBelow load = some child →
      Within load depth child

/-! ### Depth -/

theorem Within.mono {load : Loader} {depth depth' : Nat} {node : Bnode}
    (h : Within load depth node) (hle : depth ≤ depth') : Within load depth' node := by
  induction depth generalizing depth' node with
  | zero => exact h.elim
  | succ depth ih =>
    obtain ⟨depth', rfl⟩ := Nat.exists_eq_add_of_le' (Nat.le_trans (Nat.le_add_left 1 _) hle)
    exact fun e he child hchild => ih (h e he child hchild) (by omega)

theorem BnodeEntry.loadedBelow_noLoader (e : BnodeEntry) :
    e.loadedBelow noLoader = e.bnodeBelow := by
  cases e with
  | childBnode node => cases node <;> simp [loadedBelow, bnodeBelow,
      loadedBnode, noLoader]
  | child node | value content pathMeta node =>
    cases node <;> simp [loadedBelow, bnodeBelow, loadedTrieNode,
      trieNode, hbtrieLoadChildNode, noLoader]

theorem within_noLoader (node : Bnode) : ∃ depth, Within noLoader depth node := by
  induction node using Bnode.induction with
  | h node ih =>
    have hentries : ∀ es ⊆ node.entries, ∃ depth, ∀ e ∈ es, ∀ child,
        e.loadedBelow noLoader = some child →
        Within noLoader depth child := by
      intro es
      induction es with
      | nil => exact fun _ => ⟨0, fun e he => absurd he not_mem_nil⟩
      | cons x es ihes =>
        intro hsub
        obtain ⟨depth, hdepth⟩ := ihes (subset_of_cons_subset hsub)
        have hx : ∃ depth, ∀ child, x.loadedBelow noLoader = some child →
            Within noLoader depth child := by
          cases hbelow : x.loadedBelow noLoader with
          | none => exact ⟨0, nofun⟩
          | some child =>
            rw [loadedBelow_noLoader] at hbelow
            obtain ⟨depth, hchild⟩ := ih x (hsub mem_cons_self) child hbelow
            exact ⟨depth, fun child' h => some.inj h ▸ hchild⟩
        obtain ⟨depthx, hdepthx⟩ := hx
        refine ⟨max depth depthx, fun e he child hchild => ?_⟩
        rcases mem_cons.mp he with rfl | he
        · exact (hdepthx child hchild).mono (le_max_right _ _)
        · exact (hdepth e he child hchild).mono (le_max_left _ _)
    obtain ⟨depth, hdepth⟩ := hentries node.entries (List.Subset.refl _)
    exact ⟨depth + 1, hdepth⟩

/-! ### Through the B+trees -/

section Trees

variable {load : Loader} {n : Nat} {node child : Bnode} {lo : WithBot Chunk} {hi : WithTop Chunk}
  {e : BnodeEntry}

theorem BnodeEntry.of_loadedBnode (h : e.loadedBnode load = some child) :
    e.isBnodeChild ∧ e.loadedBelow load = some child ∧ ∀ above, e.own above = [] := by
  cases e with
  | child node => cases h
  | childBnode node => exact ⟨rfl, h, fun _ => rfl⟩
  | value content pathMeta node => cases h

theorem entryItems_separator (h : e.loadedBnode load = some child) (depth : Nat)
    (above : List Chunk) : entryItems load depth above e = items load depth above child := by
  obtain ⟨hseparator, hbelow, hown⟩ := of_loadedBnode h
  simp [entryItems, keyChunks, hseparator, hbelow, hown]

theorem SearchTree.items_eq (h : SearchTree load n node lo hi) (depth : Nat) (above : List Chunk) :
    items load (depth + (n + 1)) above node =
      (leafEntries load n node).flatMap (entryItems load depth above) := by
  induction n generalizing node lo hi with
  | zero => rfl
  | succ n ih =>
    change node.entries.flatMap (entryItems load (depth + (n + 1)) above) = _
    rw [leafEntries, flatMap_assoc]
    refine flatMap_congr fun e he => ?_
    obtain ⟨l, u, ⟨child, hload, htree, -⟩, -⟩ := h.2.of_mem he
    rw [entryItems_separator hload, ih htree, hload]
    rfl

/-- The items of separators are those of the leaf entries below them. -/
theorem SearchTree.entryItems_eq (h : SearchTree load (n + 1) node lo hi) {es : List BnodeEntry}
    (hes : es ⊆ node.entries) (depth : Nat) (above : List Chunk) :
    es.flatMap (entryItems load (depth + (n + 1)) above) =
      (es.flatMap (entryLeaves load n)).flatMap (entryItems load depth above) := by
  rw [flatMap_assoc]
  refine flatMap_congr fun e he => ?_
  obtain ⟨l, u, ⟨child, hload, htree, -⟩, -⟩ := h.2.of_mem (hes he)
  rw [entryItems_separator hload, htree.items_eq, entryLeaves, hload]
  rfl

theorem SearchTree.within (h : SearchTree load n node lo hi) {depth : Nat}
    (hwithin : Within load depth node) :
    ∃ below, depth = below + (n + 1) ∧ ∀ e ∈ leafEntries load n node, ∀ child,
      e.loadedBelow load = some child → Within load below child := by
  induction n generalizing node lo hi depth with
  | zero =>
    cases depth with
    | zero => exact hwithin.elim
    | succ depth => exact ⟨depth, rfl, hwithin⟩
  | succ n ih =>
    cases depth with
    | zero => exact hwithin.elim
    | succ depth =>
      have hchild : ∀ e ∈ node.entries, ∃ below, depth = below + (n + 1) ∧
          ∀ x ∈ entryLeaves load n e, ∀ child, x.loadedBelow load = some child →
            Within load below child := by
        intro e he
        obtain ⟨l, u, ⟨child, hload, htree, -⟩, -⟩ := h.2.of_mem he
        obtain ⟨-, hbelow, -⟩ := of_loadedBnode hload
        obtain ⟨below, hdepth, hleaves⟩ := ih htree (hwithin e he child hbelow)
        refine ⟨below, hdepth, ?_⟩
        rwa [entryLeaves, hload]
      obtain ⟨first, hfirst⟩ := exists_mem_of_ne_nil _ h.2.ne_nil
      obtain ⟨below, hdepth, -⟩ := hchild first hfirst
      refine ⟨below, by omega, fun e he => ?_⟩
      obtain ⟨x, hx, he⟩ := mem_flatMap.mp he
      obtain ⟨below', hdepth', hleaves⟩ := hchild x hx
      obtain rfl : below = below' := by omega
      exact hleaves e he

end Trees

/-! ### Through the trie -/

def entryAt (load : Loader) : HbtrieNode → List Chunk → Option BnodeEntry
  | _, [] => none
  | node, [c] => bnodeFindLeafLazy load node.btree c
  | node, c :: d :: rest =>
    ((bnodeFindLeafLazy load node.btree c).bind fun e => e.loadedTrieNode load).bind
      fun next => entryAt load next (d :: rest)

def BnodeEntry.storedValue (e : BnodeEntry) : Option (Content × List PathSubscriptMeta) :=
  match e.slot with
  | .value content pathMeta _ => some (content, pathMeta)
  | _ => none

def itemAt (node : HbtrieNode) (chunks : List Chunk) : Option (Content × List PathSubscriptMeta) :=
  (entryAt load node chunks).bind storedValue

/-- No entry that a sequence of chunks leads to is a separator. -/
def EntriesPlain (root : HbtrieNode) : Prop :=
  ∀ chunks e, entryAt load root chunks = some e → e.isBnodeChild = false

/-- A trie that can be walked: its B+trees are search trees and its depth is bounded. -/
structure Walkable (load : Loader) (depth : Nat) (node : HbtrieNode) : Prop where
  trie : TrieOk load node
  plain : EntriesPlain load node
  within : Within load depth node.btree

section Trie

variable {load : Loader} {depth : Nat} {node : HbtrieNode} {e : BnodeEntry} {above : List Chunk}
  {i : StoredItem}

/-- An entry that is no separator and leads to a walkable trie. -/
abbrev BnodeEntry.Walkable (load : Loader) (depth : Nat) (e : BnodeEntry) : Prop :=
  e.isBnodeChild = false ∧
    ∀ next, e.loadedTrieNode load = some next → HBTrie.Walkable load depth next

theorem EntriesPlain.child (h : EntriesPlain load node) {c : Chunk} {next : HbtrieNode}
    (hfind : bnodeFindLeafLazy load node.btree c = some e)
    (hnext : e.loadedTrieNode load = some next) : EntriesPlain load next := by
  intro chunks e' he'
  cases chunks with
  | nil => cases he'
  | cons d rest => exact h (c :: d :: rest) e' (by simp [entryAt, hfind, hnext, he'])

theorem loadedBelow_plain (h : e.isBnodeChild = false) :
    e.loadedBelow load = (e.loadedTrieNode load).map HbtrieNode.btree := by
  cases e with
  | child node => rfl
  | childBnode node => cases h
  | value content pathMeta node => rfl

theorem entryItems_plain (h : e.isBnodeChild = false) :
    entryItems load depth above e = e.own above ++ ((e.loadedTrieNode load).map fun next =>
      items load depth (above ++ [e.key]) next.btree).getD [] := by
  rw [entryItems, loadedBelow_plain h, Option.map_map, keyChunks, h]
  rfl

/-- One level of a walkable trie: a search tree whose leaf entries are no separators and lead
to walkable tries. -/
theorem Walkable.level (h : Walkable load depth node) :
    ∃ n below, depth = below + (n + 1) ∧ SearchTree load n node.btree ⊥ ⊤ ∧
      ∀ e ∈ leafEntries load n node.btree, e.Walkable load below := by
  obtain ⟨n, htree⟩ := h.trie.btree
  obtain ⟨below, hdepth, hbelow⟩ := htree.within h.within
  refine ⟨n, below, hdepth, htree, fun e he => ?_⟩
  have hfind := (htree.find_iff e.key e).mpr ⟨he, rfl⟩
  have hplain := h.plain [e.key] e hfind
  refine ⟨hplain, fun next hnext => ⟨h.trie.child hfind hnext, h.plain.child hfind hnext, ?_⟩⟩
  apply hbelow e he
  rw [loadedBelow_plain hplain, hnext]
  rfl

theorem Walkable.leaves (h : Walkable load depth node) :
    ∃ below es, below < depth ∧ Ascending key es ∧
      (∀ above, items load depth above node.btree = es.flatMap (entryItems load below above)) ∧
      (∀ k e, bnodeFindLeafLazy load node.btree k = some e ↔ e ∈ es ∧ e.key = k) ∧
      ∀ e ∈ es, e.Walkable load below := by
  obtain ⟨n, below, rfl, htree, hes⟩ := h.level
  exact ⟨below, leafEntries load n node.btree, by omega, htree.leafEntries_ascending.1,
    htree.items_eq below, htree.find_iff, hes⟩

theorem mem_own : i ∈ e.own above ↔ i.chunks = above ++ [e.key] ∧
      e.storedValue = some (i.content, i.pathMeta) := by
  obtain ⟨chunks, content, pathMeta⟩ := i
  unfold own storedValue
  split
  · simp [StoredItem.mk.injEq, eq_comm]
  · simp

theorem mem_items (h : Walkable load depth node) : i ∈ items load depth above node.btree ↔
      ∃ rest, i.chunks = above ++ rest ∧ itemAt load node rest = some (i.content, i.pathMeta) := by
  induction depth using Nat.strong_induction_on generalizing node above with
  | _ depth ih =>
    obtain ⟨below, es, hlt, -, hitems, hfind, hes⟩ := h.leaves
    rw [hitems, mem_flatMap]
    constructor
    · rintro ⟨e, he, hi⟩
      obtain ⟨hplain, hbelow⟩ := hes e he
      have hsome := (hfind e.key e).mpr ⟨he, rfl⟩
      rw [entryItems_plain hplain, mem_append] at hi
      rcases hi with hi | hi
      · obtain ⟨hchunks, hvalue⟩ := mem_own.mp hi
        exact ⟨[e.key], hchunks, by rw [itemAt, entryAt, hsome, bind_some, hvalue]⟩
      · cases hnext : e.loadedTrieNode load with
        | none =>
          rw [hnext] at hi
          exact absurd hi not_mem_nil
        | some next =>
          rw [hnext] at hi
          obtain ⟨rest, hchunks, hitem⟩ := (ih below hlt (hbelow next hnext)).mp hi
          cases rest with
          | nil => cases hitem
          | cons d rest =>
            refine ⟨e.key :: d :: rest, by rw [hchunks, append_assoc]; rfl, ?_⟩
            simpa [itemAt, entryAt, hsome, hnext] using hitem
    · rintro ⟨rest, hchunks, hitem⟩
      cases rest with
      | nil => cases hitem
      | cons c rest =>
        cases rest with
        | nil =>
          obtain ⟨e, hsome, hvalue⟩ := bind_eq_some_iff.mp hitem
          obtain ⟨he, rfl⟩ := (hfind c e).mp hsome
          refine ⟨e, he, ?_⟩
          rw [entryItems, mem_append]
          exact .inl (mem_own.mpr ⟨hchunks, hvalue⟩)
        | cons d rest =>
          obtain ⟨e', hentry, hvalue⟩ := bind_eq_some_iff.mp hitem
          obtain ⟨next, hbind, hrest⟩ := bind_eq_some_iff.mp hentry
          obtain ⟨e, hsome, hnext⟩ := bind_eq_some_iff.mp hbind
          obtain ⟨he, rfl⟩ := (hfind c e).mp hsome
          obtain ⟨hplain, hbelow⟩ := hes e he
          refine ⟨e, he, ?_⟩
          rw [entryItems_plain hplain, mem_append, hnext]
          refine .inr ((ih below hlt (hbelow next hnext)).mpr ⟨d :: rest, ?_, ?_⟩)
          · rw [hchunks, append_assoc]
            rfl
          · rw [itemAt, hrest, bind_some, hvalue]

theorem chunks_of_mem_entryItems (he : e.Walkable load depth)
    (hi : i ∈ entryItems load depth above e) : ∃ rest, i.chunks = above ++ e.key :: rest := by
  rw [entryItems_plain he.1, mem_append] at hi
  rcases hi with hi | hi
  · exact ⟨[], (mem_own.mp hi).1⟩
  · cases hnext : e.loadedTrieNode load with
    | none =>
      rw [hnext] at hi
      exact absurd hi not_mem_nil
    | some next =>
      rw [hnext] at hi
      obtain ⟨rest, hchunks, -⟩ := (mem_items (he.2 next hnext)).mp hi
      exact ⟨rest, by rw [hchunks, append_assoc]; rfl⟩

/-- Keys go up in the order of the walk, a key before its extensions. -/
theorem items_ascending (h : Walkable load depth node) (above : List Chunk) :
    (items load depth above node.btree).Pairwise fun a b => a.chunks < b.chunks := by
  induction depth using Nat.strong_induction_on generalizing node above with
  | _ depth ih =>
    obtain ⟨below, es, hlt, hsorted, hitems, -, hes⟩ := h.leaves
    rw [hitems, pairwise_flatMap]
    constructor
    · intro e he
      obtain ⟨hplain, hbelow⟩ := hes e he
      rw [entryItems_plain hplain, pairwise_append]
      refine ⟨?_, ?_, ?_⟩
      · rw [own]
        split
        · exact pairwise_singleton _ _
        · exact List.Pairwise.nil
      · cases hnext : e.loadedTrieNode load with
        | none => exact List.Pairwise.nil
        | some next => exact ih below hlt (hbelow next hnext) _
      · intro a ha b hb
        cases hnext : e.loadedTrieNode load with
        | none =>
          rw [hnext] at hb
          exact absurd hb not_mem_nil
        | some next =>
          rw [hnext] at hb
          obtain ⟨rest, hb, hitem⟩ := (mem_items (hbelow next hnext)).mp hb
          rw [(mem_own.mp ha).1, hb]
          cases rest with
          | nil => cases hitem
          | cons d rest =>
            have hlonger : above ++ [e.key] ++ [] < above ++ [e.key] ++ d :: rest :=
              append_left_lt (nil_lt_cons d rest)
            rwa [append_nil] at hlonger
    · refine hsorted.imp_of_mem ?_
      intro e e' he he' hkey a ha b hb
      obtain ⟨rest, ha⟩ := chunks_of_mem_entryItems (hes e he) ha
      obtain ⟨rest', hb⟩ := chunks_of_mem_entryItems (hes e' he') hb
      rw [ha, hb]
      exact append_left_lt (cons_lt_cons_iff.mpr (.inl hkey))

end Trie

end WaveDB.HBTrie
