import WaveDB.HBTrie.Hbtrie

/-!
What a page holds of a bnode.

The page file keeps a bnode by itself: its level, keys, contents and the disk offsets of
its children, without the children in memory. `stored` is that part as far as lookups read
it; the transaction id of a single value and the subscript metadata are never compared.
-/

namespace WaveDB.HBTrie

def Content.hasVersions : Content → Bool
  | .legacy _ _ => false
  | .versions _ => true

def Content.stored : Content → Content
  | .legacy value _ => .legacy value ⟨0, 0, 0⟩
  | .versions chain => .versions chain

def Slot.stored : Slot → Slot
  | .child _ => .child none
  | .childBnode _ => .childBnode none
  | .value content _ _ => .value content.stored [] none

def BnodeEntry.stored (e : BnodeEntry) : BnodeEntry := { e with slot := e.slot.stored }

def Bnode.stored (node : Bnode) : Bnode :=
  { level := node.level, entries := node.entries.map BnodeEntry.stored, diskOffset := none
    isDirty := false }

/-- The bnode below an entry that is in memory: the child bnode, or the root of the child
trie. -/
def BnodeEntry.bnodeBelow (e : BnodeEntry) : Option Bnode :=
  match e.slot with
  | .child node => node.map HbtrieNode.btree
  | .childBnode node => node
  | .value _ _ node => node.map HbtrieNode.btree

def BnodeEntry.isBnodeChild (e : BnodeEntry) : Bool :=
  match e.slot with
  | .childBnode _ => true
  | _ => false

theorem Bnode.stored_eq_iff {node node' : Bnode} : node.stored = node'.stored ↔
      node.level = node'.level ∧
        node.entries.map BnodeEntry.stored = node'.entries.map BnodeEntry.stored := by
  simp [stored]

theorem Bnode.keys_of_stored_eq {node node' : Bnode} (h : node.stored = node'.stored) :
    node.entries.map BnodeEntry.key = node'.entries.map BnodeEntry.key := by
  have hkeys : ∀ node : Bnode, node.entries.map BnodeEntry.key =
      (node.entries.map BnodeEntry.stored).map BnodeEntry.key := by
    intro node
    rw [List.map_map]
    rfl
  rw [hkeys node, hkeys node', (stored_eq_iff.mp h).2]

theorem BnodeEntry.bnodeBelow_childBnode {e : BnodeEntry} {child : Bnode}
    (h : e.slot = .childBnode (some child)) : e.bnodeBelow = some child := by
  rw [bnodeBelow, h]

theorem BnodeEntry.bnodeBelow_trieNode {e : BnodeEntry} {next : HbtrieNode}
    (h : e.trieNode = some next) : e.bnodeBelow = some next.btree := by
  unfold trieNode at h
  unfold bnodeBelow
  split at h
  · next hslot => rw [hslot, h]; rfl
  · next hslot => rw [hslot, h]; rfl
  · cases h

theorem BnodeEntry.bnodeBelow_eq_some {e : BnodeEntry} {child : Bnode}
    (h : e.bnodeBelow = some child) :
    e.slot = .childBnode (some child) ∨ ∃ next, e.trieNode = some next ∧ next.btree = child := by
  cases e with
  | child node | value content pathMeta node => exact .inr (Option.map_eq_some_iff.mp h)
  | childBnode node => exact .inl (congrArg Slot.childBnode h)

/-! ### Induction -/

theorem Bnode.sizeOf_below {node child : Bnode} {e : BnodeEntry} (he : e ∈ node.entries)
    (hchild : e.bnodeBelow = some child) : sizeOf child < sizeOf node := by
  have hentries := List.sizeOf_lt_of_mem he
  obtain ⟨level, entries, diskOffset, isDirty⟩ := node
  obtain ⟨key, slot, offset⟩ := e
  rcases BnodeEntry.bnodeBelow_eq_some hchild with hslot | ⟨⟨btree, _, _⟩, hnext, rfl⟩
  · cases hslot
    simp at hentries ⊢
    omega
  · cases slot with
    | child node | value content pathMeta node =>
      cases hnext
      simp at hentries ⊢
      omega
    | childBnode node => cases hnext

/-- Induction over a trie in memory: a bnode after all bnodes below it. -/
theorem Bnode.induction {P : Bnode → Prop}
    (h : ∀ node : Bnode, (∀ e ∈ node.entries, ∀ child, e.bnodeBelow = some child → P child) →
      P node) (node : Bnode) : P node :=
  h node fun _ he child hchild =>
    have := sizeOf_below he hchild
    induction h child
termination_by sizeOf node

end WaveDB.HBTrie
