import WaveDB.Database.Flush
import WaveDB.HBTrie.DirtyFlags

/-!
What one pass of a flush does.

* `exists_collected` and `collected_dirty`: the list of a pass has an entry for each dirty
  trie node with a dirty bnode, and for no other trie node.
* `flushAll_nodeFlagsAt`: writing the bnodes leaves the flags of the trie nodes as they are;
  `clearNodes_nodeFlagsAt`: then those of the list are cleared.
-/

namespace WaveDB.Database

open HBTrie Storage List Option BnodeEntry Database HbtrieNode Bnode

/-! ### Marks -/

def marksBnode (node : Bnode) : Bnode := node.bottomUp markBnode markNode

theorem collectMarks_eq (node : HbtrieNode) :
    collectMarks node = markNode (node.mapBtree marksBnode) := by
  cases node
  rfl

variable (node : Bnode)

theorem marksBnode_entries :
    (marksBnode node).entries = node.entries.map (mapBelow marksBnode collectMarks) := by
  rw [marksBnode, bottomUp_eq]
  rfl

theorem marksBnode_isDirty : (marksBnode node).isDirty =
    (node.isDirty || (marksBnode node).entries.any dirtyBelow) := by
  rw [marksBnode, bottomUp_eq]
  rfl

theorem propagateEntries_eq (es : List BnodeEntry) :
    propagateEntries es = es.map (mapBelow propagateDirtyUpward id) := by
  have hentry : ∀ e, propagateEntry e = e.mapBelow propagateDirtyUpward id := by
    rintro ⟨key, slot, offset⟩
    cases slot with
    | child node | childBnode node | value content pathMeta node => cases node <;> rfl
  induction es with
  | nil => rfl
  | cons e es ih => rw [propagateEntries, ih, hentry, map_cons]

theorem propagateDirtyUpward_entries : (propagateDirtyUpward node).entries =
    node.entries.map (mapBelow propagateDirtyUpward id) := by
  cases node
  exact propagateEntries_eq _

theorem propagateDirtyUpward_isDirty : (propagateDirtyUpward node).isDirty =
    (node.isDirty || (propagateDirtyUpward node).entries.any childDirty) := by
  cases node
  rfl

variable {node : Bnode} {root : HbtrieNode}

/-- A rewriting of a B+tree that clears no flag keeps its dirty bnodes. -/
theorem hasDirty_of_mapBelow {f : Bnode → Bnode} {g : HbtrieNode → HbtrieNode}
    (hflag : ∀ node : Bnode, node.isDirty → (f node).isDirty)
    (hentries : ∀ node : Bnode, (f node).entries = node.entries.map (mapBelow f g))
    (h : node.HasDirty) : (f node).HasDirty := by
  obtain ⟨b, hb, hdirty⟩ := h
  induction hb with
  | self => exact hasDirty_iff.mpr (.inl (hflag _ hdirty))
  | @child node child b e he hslot _ ih =>
    refine hasDirty_iff.mpr (.inr ⟨e.mapBelow f g, ?_, f child, ?_, ih hdirty⟩)
    · rw [hentries]
      exact mem_map_of_mem he
    · rw [mapBelow, hslot]
      rfl

section MapBelow

variable {f : Bnode → Bnode} {g : HbtrieNode → HbtrieNode} {node' : Bnode} {e' : BnodeEntry}

variable (h : node'.entries = node.entries.map (mapBelow f g))

include h

theorem inner_of_mapBelow (he' : e' ∈ node'.entries) {child' : Bnode}
    (hslot' : e'.slot = .childBnode (some child')) :
    ∃ e ∈ node.entries, ∃ child, e.slot = .childBnode (some child) ∧ child' = f child := by
  rw [h] at he'
  obtain ⟨e, he, rfl⟩ := mem_map.mp he'
  obtain ⟨old, hslot, hchild⟩ := mapBelow_slot_eq hslot'
  obtain ⟨child, rfl, rfl⟩ := map_eq_some_iff.mp hchild.symm
  exact ⟨e, he, child, hslot, rfl⟩

theorem under_of_mapBelow (he' : e' ∈ node'.entries) {next' : HbtrieNode}
    (hnext' : e'.trieNode = some next') :
    ∃ e ∈ node.entries, ∃ next, e.trieNode = some next ∧ next' = g next := by
  rw [h] at he'
  obtain ⟨e, he, rfl⟩ := mem_map.mp he'
  rw [mapBelow_trieNode] at hnext'
  obtain ⟨next, hnext, rfl⟩ := map_eq_some_iff.mp hnext'
  exact ⟨e, he, next, hnext, rfl⟩

end MapBelow

theorem marksBnode_inTree {b : Bnode} (h : (marksBnode node).InTree b)
    (hbelow : b.entries.any dirtyBelow) : b.isDirty = true := by
  generalize hmarked : marksBnode node = marked at h
  induction h generalizing node with
  | self =>
    subst hmarked
    rw [marksBnode_isDirty, hbelow, Bool.or_true]
  | child he hslot _ ih =>
    subst hmarked
    obtain ⟨e, -, child, -, rfl⟩ := inner_of_mapBelow (marksBnode_entries node) he hslot
    exact ih hbelow rfl

theorem markNode_btree (node : HbtrieNode) : (markNode node).btree = node.btree ∨
    (markNode node).btree = propagateDirtyUpward node.btree := by
  unfold markNode
  split
  · exact .inr rfl
  · exact .inl rfl

/-- The marks leave no trie node dirty without a dirty bnode. -/
theorem collectMarks_backed {node : HbtrieNode} (h : node.Backed) : (collectMarks node).Backed := by
  rw [collectMarks_eq, markNode]
  split
  · rename_i hmark
    intro _
    refine hasDirty_of_mapBelow (fun node hdirty => ?_) propagateDirtyUpward_entries ?_
    · rw [propagateDirtyUpward_isDirty, hdirty, Bool.true_or]
    rcases Bool.or_eq_true_iff.mp hmark with hdirty | hany
    · refine hasDirty_of_mapBelow (fun node hdirty => ?_) marksBnode_entries (h hdirty)
      exact (marksBnode_isDirty node).trans (by rw [hdirty, Bool.true_or])
    · obtain ⟨b, hb, hbelow⟩ := any_eq_true.mp hany
      have hb := mem_treeNodes.mp hb
      exact ⟨b, hb, marksBnode_inTree hb hbelow⟩
  · rename_i hmark
    intro hdirty
    have hnot : node.isDirty = false :=
      (Bool.or_eq_false_iff.mp (Bool.eq_false_of_not_eq_true hmark)).1
    exact absurd hdirty (by rw [mapBtree, hnot]; decide)

def MarkedFrom (node node' : Bnode) : Prop :=
  node' = marksBnode node ∨ node' = propagateDirtyUpward (marksBnode node)

theorem collectMarks_markedFrom (node : HbtrieNode) :
    MarkedFrom node.btree (collectMarks node).btree := by
  rw [collectMarks_eq]
  exact markNode_btree _

theorem markedFrom_rewriting : Rewriting HbtrieNode.Backed MarkedFrom where
  inner := by
    rintro node node' e' child' (rfl | rfl) he' hslot'
    · obtain ⟨e, he, child, hslot, rfl⟩ := inner_of_mapBelow (marksBnode_entries node) he' hslot'
      exact ⟨e, he, child, hslot, .inl rfl⟩
    · obtain ⟨x, hx, mid, hmid, rfl⟩ := inner_of_mapBelow (propagateDirtyUpward_entries _)
        he' hslot'
      obtain ⟨e, he, child, hslot, rfl⟩ := inner_of_mapBelow (marksBnode_entries node) hx hmid
      exact ⟨e, he, child, hslot, .inr rfl⟩
  under := by
    rintro node node' e' next' (rfl | rfl) he' hnext'
    · obtain ⟨e, he, next, hnext, rfl⟩ := under_of_mapBelow (marksBnode_entries node) he' hnext'
      exact ⟨e, he, next, hnext, collectMarks_markedFrom next, collectMarks_backed⟩
    · obtain ⟨x, hx, mid, hmid, rfl⟩ := under_of_mapBelow (propagateDirtyUpward_entries _)
        he' hnext'
      obtain ⟨e, he, next, hnext, rfl⟩ := under_of_mapBelow (marksBnode_entries node) hx hmid
      exact ⟨e, he, next, hnext, collectMarks_markedFrom next, collectMarks_backed⟩

theorem collectMarks_triesBacked (h : root.btree.TriesBacked) :
    (collectMarks root).btree.TriesBacked :=
  markedFrom_rewriting.everywhere (collectMarks_markedFrom root) h

def TriesClean (node : Bnode) : Prop :=
  node.Everywhere (Bnode.TriesBelow fun next => next.isDirty = false)

theorem TriesClean.backed (h : TriesClean node) : node.TriesBacked := by
  intro b hb e he next hnext hdirty
  rw [h b hb e he next hnext] at hdirty
  cases hdirty

theorem TriesClean.dirtyBelow {b : Bnode} (h : TriesClean node) (hb : node.Contains b) :
    b.entries.any dirtyBelow = false := by
  refine any_eq_false.mpr fun e he => ?_
  unfold Database.dirtyBelow
  cases hnext : e.trieNode with
  | none => simp
  | some next =>
    have hclean := h b hb e he next hnext
    simp [hclean]

theorem TriesClean.markNode {node : HbtrieNode} (h : TriesClean node.btree)
    (hclean : node.isDirty = false) : markNode node = node := by
  have hany : (node.btree.treeNodes.any fun b => b.entries.any Database.dirtyBelow) = false := by
    refine any_eq_false.mpr fun b hb => ?_
    rw [h.dirtyBelow (mem_treeNodes.mp hb).contains]
    decide
  rw [Database.markNode, hclean, hany]
  rfl

theorem TriesClean.marksBnode (h : TriesClean node) : marksBnode node = node := by
  induction node using induction with
  | h node ih =>
    obtain ⟨hself, hbelow⟩ := everywhere_iff.mp h
    have hentry : ∀ e ∈ node.entries, e.mapBelow Database.marksBnode collectMarks = e := by
      intro e he
      apply mapBelow_eq_self
      · intro child hslot
        exact ih e he child (bnodeBelow_childBnode hslot) ((hbelow e he).inner child hslot)
      · intro next hnext
        have hunder := (hbelow e he).under next hnext
        have hmarks := ih e he next.btree (bnodeBelow_trieNode hnext) hunder
        have hsame : next.mapBtree Database.marksBnode = next := by
          cases next
          exact congrArg (HbtrieNode.mk · _ _) hmarks
        rw [collectMarks_eq, hsame, markNode hunder (hself e he next hnext)]
    have hentries : (Database.marksBnode node).entries = node.entries := by
      rw [marksBnode_entries]
      exact (map_congr_left hentry).trans (map_id _)
    have hflag : (Database.marksBnode node).isDirty = node.isDirty := by
      rw [marksBnode_isDirty, hentries, h.dirtyBelow .self, Bool.or_false]
    have hrest : (Database.marksBnode node).level = node.level ∧
        (Database.marksBnode node).diskOffset = node.diskOffset := by
      rw [Database.marksBnode, Bnode.bottomUp_eq]
      exact ⟨rfl, rfl⟩
    generalize Database.marksBnode node = marked at hentries hflag hrest
    cases marked
    cases node
    exact Bnode.mk.injEq .. ▸ ⟨hrest.1, hentries, hrest.2, hflag⟩

theorem propagateDirtyUpward_rewriting (Q : HbtrieNode → Prop) : Rewriting Q fun node node' =>
    node' = node ∨ node' = propagateDirtyUpward node where
  inner := by
    rintro node node' e' child' (rfl | rfl) he' hslot'
    · exact ⟨e', he', child', hslot', .inl rfl⟩
    · obtain ⟨e, he, child, hslot, rfl⟩ := inner_of_mapBelow (propagateDirtyUpward_entries _)
        he' hslot'
      exact ⟨e, he, child, hslot, .inr rfl⟩
  under := by
    rintro node node' e' next' (rfl | rfl) he' hnext'
    · exact ⟨e', he', next', hnext', .inl rfl, id⟩
    · obtain ⟨e, he, next, hnext, rfl⟩ := under_of_mapBelow (propagateDirtyUpward_entries _)
        he' hnext'
      exact ⟨e, he, _, hnext, .inl rfl, id⟩

/-- The root of a trie without dirty trie nodes below passes the marks up its B+tree, and
that is all. -/
theorem TriesClean.collectMarks (h : TriesClean root.btree) :
    collectMarks root = Database.markNode root ∧ TriesClean (Database.collectMarks root).btree := by
  have hsame : Database.collectMarks root = Database.markNode root := by
    have hmarks := h.marksBnode
    cases root
    exact congrArg (fun btree => Database.markNode (HbtrieNode.mk btree _ _)) hmarks
  refine ⟨hsame, ?_⟩
  rw [hsame]
  exact (propagateDirtyUpward_rewriting _).everywhere (markNode_btree root) h

/-! ### The list of a pass -/

section Collect

variable {owner : Owner} {pos : List Nat} {info : DirtyBnodeInfo} {e : BnodeEntry} {i : Nat}

theorem mem_collectFromEntries {k : Nat} {es : List BnodeEntry} :
    info ∈ collectFromEntries owner pos k es ↔
      ∃ i e, es[i]? = some e ∧ info ∈ collectFromEntry owner (pos ++ [k + i]) e := by
  induction es generalizing k with
  | nil => simp [collectFromEntries]
  | cons x es ih =>
    rw [collectFromEntries, mem_append, ih]
    constructor
    · rintro (hx | ⟨i, e, he, hinfo⟩)
      · exact ⟨0, x, rfl, hx⟩
      · refine ⟨i + 1, e, he, ?_⟩
        rwa [Nat.add_comm i 1, ← Nat.add_assoc]
    · rintro ⟨i, e, he, hinfo⟩
      cases i with
      | zero =>
        cases he
        exact .inl hinfo
      | succ i =>
        refine .inr ⟨i, e, he, ?_⟩
        rwa [Nat.add_assoc, Nat.add_comm 1 i]

theorem mem_collectFromEntry : info ∈ collectFromEntry owner pos e ↔
    (∃ child, e.slot = .childBnode (some child) ∧ info ∈ collectFromBnode owner pos child) ∨
      ∃ next, e.trieNode = some next ∧
        info ∈ collectFromBnode ⟨pos, owner.hbtrieDepth + 1, next.isDirty⟩ pos next.btree := by
  have hchild : ∀ node : Option HbtrieNode,
      info ∈ collectFromChild (owner.hbtrieDepth + 1) pos node ↔
      ∃ next, node = some next ∧
        info ∈ collectFromBnode ⟨pos, owner.hbtrieDepth + 1, next.isDirty⟩ pos next.btree := by
    intro node
    cases node with
    | none => simp [collectFromChild]
    | some next =>
      cases next
      simp [collectFromChild, collectFromNode]
  cases e with
  | child node | value content pathMeta node => simp [collectFromEntry, hchild, trieNode]
  | childBnode node => cases node <;>
    simp [collectFromEntry, collectFromChildBnode, trieNode]

theorem mem_collectFromBnode : info ∈ collectFromBnode owner pos node ↔
    (owner.isDirty ∧ node.isDirty ∧ info = ⟨pos, owner.hbPos, node.level, owner.hbtrieDepth⟩) ∨
    ∃ i e, node.entries[i]? = some e ∧ info ∈ collectFromEntry owner (pos ++ [i]) e := by
  obtain ⟨level, entries, diskOffset, isDirty⟩ := node
  rw [collectFromBnode, mem_append, mem_collectFromEntries]
  simp only [Nat.zero_add]
  refine or_congr ?_ Iff.rfl
  cases owner.isDirty <;> cases isDirty <;> simp

variable (owner : Owner) (pos : List Nat)

theorem exists_collected_own (h : node.HasDirty) (howner : owner.isDirty) :
    ∃ info ∈ collectFromBnode owner pos node, info.hbPos = owner.hbPos := by
  obtain ⟨b, hb, hdirty⟩ := h
  induction hb generalizing pos with
  | self => exact ⟨_, mem_collectFromBnode.mpr (.inl ⟨howner, hdirty, rfl⟩), rfl⟩
  | child he hslot _ ih =>
    obtain ⟨i, hi⟩ := mem_iff_getElem?.mp he
    obtain ⟨info, hinfo, hpos⟩ := ih (pos ++ [i]) hdirty
    refine ⟨info, mem_collectFromBnode.mpr (.inr ⟨i, _, hi, ?_⟩), hpos⟩
    exact mem_collectFromEntry.mpr (.inl ⟨_, hslot, hinfo⟩)

theorem collected_below_entry {child : Bnode} (he : node.entries[i]? = some e)
    (hbelow : e.bnodeBelow = some child) :
    ∃ owner', ∀ info ∈ collectFromBnode owner' (pos ++ [i]) child,
      info ∈ collectFromBnode owner pos node := by
  have hentry : ∀ info ∈ collectFromEntry owner (pos ++ [i]) e,
      info ∈ collectFromBnode owner pos node :=
    fun info hinfo => mem_collectFromBnode.mpr (.inr ⟨i, e, he, hinfo⟩)
  rcases bnodeBelow_eq_some hbelow with hslot | ⟨trie, htrie, rfl⟩
  · exact ⟨owner, fun info hinfo =>
      hentry info (mem_collectFromEntry.mpr (.inl ⟨child, hslot, hinfo⟩))⟩
  · exact ⟨_, fun info hinfo =>
      hentry info (mem_collectFromEntry.mpr (.inr ⟨trie, htrie, hinfo⟩))⟩

theorem collected_below {rest : List Nat} {next : HbtrieNode}
    (h : node.trieAt (i :: rest) = some next) :
    ∃ hbtrieDepth, ∀ info ∈ collectFromBnode ⟨pos ++ i :: rest, hbtrieDepth, next.isDirty⟩
      (pos ++ i :: rest) next.btree, info ∈ collectFromBnode owner pos node := by
  induction rest generalizing i node owner pos with
  | nil =>
    obtain ⟨e, he, hnext⟩ := bind_eq_some_iff.mp h
    refine ⟨owner.hbtrieDepth + 1, fun info hinfo => ?_⟩
    refine mem_collectFromBnode.mpr (.inr ⟨i, e, he, ?_⟩)
    exact mem_collectFromEntry.mpr (.inr ⟨next, hnext, hinfo⟩)
  | cons j rest ih =>
    obtain ⟨child, hchild, hat⟩ := bind_eq_some_iff.mp h
    obtain ⟨e, he, hbelow⟩ := bind_eq_some_iff.mp hchild
    obtain ⟨owner', hup⟩ := collected_below_entry owner pos he hbelow
    obtain ⟨depth, hin⟩ := ih owner' (pos ++ [i]) hat
    rw [append_assoc] at hin
    exact ⟨depth, fun info hinfo => hup info (hin info hinfo)⟩

theorem exists_collected {node : HbtrieNode} {hbPos : List Nat}
    (h : root.nodeAt hbPos = some node) (hdirty : node.isDirty) (hbacked : node.Backed) :
    ∃ info ∈ collectDirtyBnodes root, info.hbPos = hbPos := by
  obtain ⟨btree, diskOffset, isDirty⟩ := root
  cases hbPos with
  | nil =>
    cases h
    exact exists_collected_own _ [] (hbacked hdirty) hdirty
  | cons i rest =>
    obtain ⟨depth, hin⟩ := collected_below ⟨[], 0, isDirty⟩ [] h
    obtain ⟨info, hinfo, hpos⟩ := exists_collected_own ⟨i :: rest, depth, node.isDirty⟩ (i :: rest)
      (hbacked hdirty) hdirty
    exact ⟨info, hin info hinfo, hpos⟩

/-- Where an element of the list comes from: a dirty bnode of the owner's B+tree, or one of a
dirty trie node below. -/
theorem collected_from (h : info ∈ collectFromBnode owner pos node) :
    (∃ rest b, info.pos = pos ++ rest ∧ node.bnodeAt rest = some b ∧ b.isDirty ∧
      b.level = info.level) ∧ (info.hbPos = owner.hbPos ∧ owner.isDirty ∨
      ∃ i rest next, info.hbPos = pos ++ i :: rest ∧ node.trieAt (i :: rest) = some next ∧
        next.isDirty) := by
  induction node using induction generalizing owner pos with
  | h node ih =>
    rcases mem_collectFromBnode.mp h with ⟨howner, hdirty, rfl⟩ | ⟨i, e, he, hentry⟩
    · exact ⟨⟨[], node, (append_nil pos).symm, rfl, hdirty, rfl⟩, .inl ⟨rfl, howner⟩⟩
    · have hmem := mem_of_getElem? he
      -- one index further down, for either kind of child
      have hdown : ∀ {child : Bnode} {rest : List Nat}, e.bnodeBelow = some child →
          node.bnodeAt (i :: rest) = child.bnodeAt rest := by
        intro child rest hbelow
        rw [bnodeAt, he, bind_some, hbelow, bind_some]
      have htrie : ∀ {child : Bnode} {j : Nat} {rest : List Nat}, e.bnodeBelow = some child →
          node.trieAt (i :: j :: rest) = child.trieAt (j :: rest) := by
        intro child j rest hbelow
        rw [trieAt, he, bind_some, hbelow, bind_some]
      rcases mem_collectFromEntry.mp hentry with ⟨child, hslot, hinfo⟩ | ⟨next, hnext, hinfo⟩
      · have hbelow := bnodeBelow_childBnode hslot
        obtain ⟨⟨rest, b, hpos, hat, hb⟩, hfrom⟩ := ih e hmem child hbelow _ _ hinfo
        refine ⟨⟨i :: rest, b, by simp [hpos], (hdown hbelow).trans hat, hb⟩, ?_⟩
        rcases hfrom with hown | ⟨j, rest, next, hhb, hat, hdirty⟩
        · exact .inl hown
        · exact .inr ⟨i, j :: rest, next, by simp [hhb], (htrie hbelow).trans hat, hdirty⟩
      · have hbelow := bnodeBelow_trieNode hnext
        obtain ⟨⟨rest, b, hpos, hat, hb⟩, hfrom⟩ := ih e hmem next.btree hbelow _ _ hinfo
        refine ⟨⟨i :: rest, b, by simp [hpos], (hdown hbelow).trans hat, hb⟩, .inr ?_⟩
        rcases hfrom with ⟨hhb, hdirty⟩ | ⟨j, rest, next, hhb, hat, hdirty⟩
        · refine ⟨i, [], next, hhb, ?_, hdirty⟩
          rw [trieAt, he, bind_some, hnext]
        · exact ⟨i, j :: rest, next, by simp [hhb], (htrie hbelow).trans hat, hdirty⟩

/-- What an element of the list says about the trie. -/
structure Collected (root : HbtrieNode) (info : DirtyBnodeInfo) : Prop where
  bnode : ∃ b, root.btree.bnodeAt info.pos = some b ∧ b.isDirty = true ∧ b.level = info.level
  trie : ∃ node, root.nodeAt info.hbPos = some node ∧ node.isDirty = true

theorem collected_dirty (h : info ∈ collectDirtyBnodes root) : Collected root info := by
  obtain ⟨btree, diskOffset, isDirty⟩ := root
  obtain ⟨⟨rest, b, hpos, hb⟩, hfrom⟩ := collected_from _ [] h
  refine ⟨⟨b, ?_⟩, ?_⟩
  · rwa [hpos]
  · rcases hfrom with ⟨hhb, hdirty⟩ | ⟨i, rest, next, hhb, hat, hdirty⟩
    · exact ⟨_, by rw [hhb]; rfl, hdirty⟩
    · exact ⟨next, by rw [hhb]; exact hat, hdirty⟩

end Collect

/-! ### Writing -/

theorem local_placeBnode (newOffset : Nat) : Local (placeBnode newOffset) :=
  ⟨fun _ => rfl, fun _ _ => rfl, fun _ _ => rfl⟩

/-- A change of one entry that leaves its slot alone. -/
theorem getElem?_repointEntry {α : Type} (index newOffset : Nat) (bn : Bnode)
    (k : BnodeEntry → Option α) (hk : ∀ e, k { e with childDiskOffset := newOffset } = k e)
    (i : Nat) : ((repointEntry index newOffset bn).entries[i]?).bind k =
      (bn.entries[i]?).bind k := by
  rw [repointEntry, getElem?_modify]
  cases bn.entries[i]? with
  | none => rfl
  | some e =>
    split
    · exact hk e
    · rfl

theorem local_repointEntry (index newOffset : Nat) : Local (repointEntry index newOffset) where
  alone node := by
    have hentries : ((node.entries.modify index fun e =>
        { e with childDiskOffset := newOffset }).map
        BnodeEntry.alone) = (node.entries.map BnodeEntry.alone).modify index
          fun e => { e with childDiskOffset := newOffset } := by
      apply ext_getElem?
      intro i
      rw [getElem?_map, getElem?_modify, getElem?_modify, getElem?_map]
      cases node.entries[i]? with
      | none => rfl
      | some e =>
        split
        · cases e <;> rfl
        · rfl
    rw [Bnode.alone, repointEntry, repointEntry, hentries]
    rfl
  bnodeBelow node i := getElem?_repointEntry index newOffset node bnodeBelow
    (fun _ => rfl) i
  trieNode node i := getElem?_repointEntry index newOffset node trieNode (fun _ => rfl) i

section Write

variable {σ : Type} {io : PageIo σ} {cs : ChunkSize} {s : FlushState σ}

theorem modifyParent_nodeFlagsAt {f : Nat → Bnode → Bnode} (hf : ∀ index, Local (f index))
    (pos : List Nat) (root : HbtrieNode) (hbPos : List Nat) :
    (modifyParent f pos root).nodeFlagsAt hbPos = root.nodeFlagsAt hbPos := by
  unfold modifyParent
  split
  · rfl
  · exact root.nodeFlagsAt_modifyAt (hf _) _ hbPos

theorem flushAll_nodeFlagsAt (s : FlushState σ) (infos : List DirtyBnodeInfo) (hbPos : List Nat) :
    (flushAll io cs s infos).1.root.nodeFlagsAt hbPos = s.root.nodeFlagsAt hbPos := by
  induction infos generalizing s with
  | nil => rfl
  | cons info infos ih =>
    rw [flushAll]
    split
    · rfl
    · next s' hs' =>
      obtain ⟨bn, -, hwrite⟩ := bind_eq_some_iff.mp hs'
      obtain ⟨written, -, rfl⟩ := map_eq_some_iff.mp hwrite
      refine (ih _).trans ((modifyParent_nodeFlagsAt
        (fun _ => (local_repointEntry _ _).markDirty) _ _ hbPos).trans ?_)
      exact s.root.nodeFlagsAt_modifyAt (local_placeBnode _) _ hbPos

/-- Changing a bnode, or the one above it, moves none away. -/
theorem modifyAt_isSome_bnodeAt {f : Bnode → Bnode} (hf : Local f) (pos pos' : List Nat)
    (root : HbtrieNode) :
    ((root.modifyAt f pos).btree.bnodeAt pos').isSome = (root.btree.bnodeAt pos').isSome := by
  have halone : ∀ node : Bnode, (node.aloneAt pos').isSome = (node.bnodeAt pos').isSome :=
    fun node => isSome_map
  rw [← halone, ← halone, HbtrieNode.modifyAt, HbtrieNode.mapBtree, Bnode.aloneAt_modifyAt hf]
  split
  · exact isSome_map
  · rfl

theorem flushBnode_isSome_bnodeAt {s' : FlushState σ} {info : DirtyBnodeInfo}
    (h : flushBnode io cs s info = some s') (pos : List Nat) :
    (s'.root.btree.bnodeAt pos).isSome = (s.root.btree.bnodeAt pos).isSome := by
  obtain ⟨bn, -, hwrite⟩ := bind_eq_some_iff.mp h
  obtain ⟨written, -, rfl⟩ := map_eq_some_iff.mp hwrite
  have hplaced := modifyAt_isSome_bnodeAt (local_placeBnode written.1) info.pos pos s.root
  dsimp only [repointParent, modifyParent]
  split
  · exact hplaced
  · rw [modifyAt_isSome_bnodeAt (local_repointEntry _ _).markDirty, hplaced]

theorem clearNodes_nodeFlagsAt (root : HbtrieNode) (infos : List DirtyBnodeInfo)
    (hbPos : List Nat) : (clearNodes root infos).nodeFlagsAt hbPos =
      if ∃ info ∈ infos, info.hbPos = hbPos then
        (root.nodeFlagsAt hbPos).map fun flags => { flags with isDirty := false }
      else root.nodeFlagsAt hbPos := by
  unfold clearNodes
  induction infos generalizing root with
  | nil => simp
  | cons info infos ih =>
    rw [foldl_cons, ih]
    have hnode := root.nodeFlagsAt_modifyNodeAt
      (k := fun flags => { flags with isDirty := false }) (g := clearNode) (fun _ => rfl)
      (fun _ => rfl) info.hbPos hbPos
    rw [hnode]
    by_cases hinfo : hbPos = info.hbPos
    · rw [if_pos hinfo, Option.map_map]
      have hthis : ∃ x ∈ info :: infos, x.hbPos = hbPos := ⟨info, mem_cons_self, hinfo.symm⟩
      split <;> rfl
    · rw [if_neg hinfo]
      have hiff : (∃ x ∈ info :: infos, x.hbPos = hbPos) ↔ ∃ x ∈ infos, x.hbPos = hbPos := by
        simp [Ne.symm hinfo]
      simp only [hiff]

end Write

/-! ### Passes -/

theorem triesClean_of_nodeFlagsAt
    (h : ∀ i pos flags, root.nodeFlagsAt (i :: pos) = some flags → flags.isDirty = false) :
    TriesClean root.btree := by
  refine forall_nodeAt.mp fun i pos node hat => ?_
  exact h i pos node.flags (congrArg (Option.map flags) hat)

theorem TriesClean.nodeFlagsAt (h : TriesClean root.btree) {i : Nat} {pos : List Nat}
    {flags : NodeFlags} (hat : root.nodeFlagsAt (i :: pos) = some flags) :
    flags.isDirty = false := by
  obtain ⟨node, hnode, rfl⟩ := map_eq_some_iff.mp hat
  exact forall_nodeAt.mpr h i pos node hnode

section Passes

variable {σ : Type} (io : PageIo σ) (cs : ChunkSize) (qsort : DirtySort)
  {s : FlushState σ}

def markedState (s : FlushState σ) : FlushState σ := { s with root := collectMarks s.root }

theorem pass_triesClean {infos : List DirtyBnodeInfo} (h : s.root.btree.TriesBacked)
    (hperm : infos.Perm (collectDirtyBnodes (collectMarks s.root))) :
    TriesClean (clearNodes (flushAll io cs (markedState s) infos).1.root infos).btree := by
  have hmarked := forall_nodeAt.mpr (collectMarks_triesBacked h)
  refine triesClean_of_nodeFlagsAt fun i pos flags hflags => ?_
  rw [clearNodes_nodeFlagsAt, flushAll_nodeFlagsAt] at hflags
  split at hflags
  · obtain ⟨old, -, rfl⟩ := map_eq_some_iff.mp hflags
    rfl
  · rename_i hnot
    obtain ⟨node, hnode, rfl⟩ := map_eq_some_iff.mp hflags
    -- a dirty trie node would be in the list
    cases hdirty : node.isDirty with
    | false => exact hdirty
    | true =>
      obtain ⟨info, hinfo, hpos⟩ := exists_collected hnode hdirty (hmarked i pos node hnode)
      exact absurd ⟨info, hperm.mem_iff.mpr hinfo, hpos⟩ hnot

/-- Without dirty trie nodes below the root, what is listed belongs to the root. -/
theorem TriesClean.collected (h : TriesClean root.btree) {info : DirtyBnodeInfo}
    (hinfo : info ∈ collectDirtyBnodes root) : info.hbPos = [] ∧ root.isDirty = true := by
  obtain ⟨node, hat, hdirty⟩ := (collected_dirty hinfo).trie
  cases hpos : info.hbPos with
  | nil =>
    rw [hpos] at hat
    cases hat
    exact ⟨rfl, hdirty⟩
  | cons i pos =>
    rw [hpos] at hat
    rw [forall_nodeAt.mpr h i pos node hat] at hdirty
    cases hdirty

theorem finishFlush_returned (s : FlushState σ) :
    (finishFlush io s).state.root.btree = s.root.btree ∧
      ∃ ok s', finishFlush io s = .returned ok s' := by
  unfold finishFlush
  dsimp only
  split
  · exact ⟨rfl, false, _, rfl⟩
  · exact ⟨rfl, true, _, rfl⟩

/-- A flush of a trie without dirty trie nodes returns after one pass. -/
theorem flush_of_noneDirty (passes : Nat) (h : TriesClean s.root.btree)
    (hroot : s.root.isDirty = false) :
    databaseFlushDirtyBnodes io cs qsort (passes + 1) s = finishFlush io s := by
  have hmarked : collectMarks s.root = s.root := by
    rw [h.collectMarks.1, h.markNode hroot]
  have hsort : qsort.sort (collectDirtyBnodes s.root) = [] := by
    have hnone : collectDirtyBnodes s.root = [] := by
      refine eq_nil_iff_forall_not_mem.mpr fun info hinfo => ?_
      rw [(h.collected hinfo).2] at hroot
      cases hroot
    rw [hnone]
    exact (qsort.perm []).eq_nil
  rw [databaseFlushDirtyBnodes]
  rw [hmarked, hsort]

def passEnd (s : FlushState σ) (infos : List DirtyBnodeInfo) : FlushState σ :=
  { s with root := clearNodes s.root infos }

theorem flush_pass (passes : Nat) (s : FlushState σ) :
    (qsort.sort (collectDirtyBnodes (collectMarks s.root)) = [] ∧
      databaseFlushDirtyBnodes io cs qsort (passes + 1) s = finishFlush io (markedState s)) ∨
    ∃ infos, infos = qsort.sort (collectDirtyBnodes (collectMarks s.root)) ∧ infos ≠ [] ∧
      ((flushAll io cs (markedState s) infos).2 = false ∧
        databaseFlushDirtyBnodes io cs qsort (passes + 1) s =
          .returned false (flushAll io cs (markedState s) infos).1 ∨
      (flushAll io cs (markedState s) infos).2 ∧
        databaseFlushDirtyBnodes io cs qsort (passes + 1) s =
          databaseFlushDirtyBnodes io cs qsort passes
            (passEnd (flushAll io cs (markedState s) infos).1 infos)) := by
  rw [databaseFlushDirtyBnodes]
  cases hsort : qsort.sort (collectDirtyBnodes (collectMarks s.root)) with
  | nil => exact .inl ⟨rfl, rfl⟩
  | cons info infos =>
    refine .inr ⟨info :: infos, rfl, cons_ne_nil _ _, ?_⟩
    dsimp only
    have hmarked : ({ root := collectMarks s.root, file := s.file } : FlushState σ) =
        markedState s := rfl
    rw [hmarked]
    rcases flushAll io cs (markedState s) (info :: infos) with ⟨s', ok⟩
    cases ok with
    | false => exact .inl ⟨rfl, rfl⟩
    | true => exact .inr ⟨rfl, rfl⟩

/-- A flush of a trie whose trie nodes below the root are clean leaves them clean, whatever
the file does, and returns after two passes. -/
theorem flush_of_triesClean (h : TriesClean s.root.btree) (passes : Nat) :
    TriesClean (databaseFlushDirtyBnodes io cs qsort passes s).state.root.btree ∧
      (2 ≤ passes → ∃ ok s', databaseFlushDirtyBnodes io cs qsort passes s = .returned ok s') := by
  have hmarked : TriesClean (markedState s).root.btree := h.collectMarks.2
  cases passes with
  | zero => exact ⟨h, fun hle => absurd hle (by decide)⟩
  | succ passes =>
    rcases flush_pass io cs qsort passes s with
      ⟨-, heq⟩ | ⟨infos, hinfos, hne, ⟨-, heq⟩ | ⟨-, heq⟩⟩
    · obtain ⟨hbtree, hreturned⟩ := finishFlush_returned io (markedState s)
      rw [heq, hbtree]
      exact ⟨hmarked, fun _ => hreturned⟩
    · rw [heq]
      refine ⟨triesClean_of_nodeFlagsAt fun i pos flags hflags => ?_, fun _ => ⟨_, _, rfl⟩⟩
      change (flushAll io cs (markedState s) infos).1.root.nodeFlagsAt _ = _ at hflags
      rw [flushAll_nodeFlagsAt] at hflags
      exact hmarked.nodeFlagsAt hflags
    · -- the writes are those of the root's B+tree, so that the root is cleared too
      have hperm : infos.Perm (collectDirtyBnodes (collectMarks s.root)) := by
        rw [hinfos]
        exact qsort.perm _
      have hend := pass_triesClean io cs h.backed hperm
      obtain ⟨info, hinfo⟩ := exists_mem_of_ne_nil infos hne
      have hpos := (hmarked.collected (hperm.mem_iff.mp hinfo)).1
      have hroot : (clearNodes (flushAll io cs (markedState s) infos).1.root infos).isDirty =
          false := by
        have hflags := clearNodes_nodeFlagsAt (flushAll io cs (markedState s) infos).1.root infos []
        rw [if_pos ⟨info, hinfo, hpos⟩] at hflags
        exact congrArg NodeFlags.isDirty (some.inj hflags)
      rw [heq]
      cases passes with
      | zero => exact ⟨hend, fun hle => absurd hle (by decide)⟩
      | succ passes =>
        obtain ⟨hbtree, hreturned⟩ := finishFlush_returned io
          (passEnd (flushAll io cs (markedState s) infos).1 infos)
        rw [flush_of_noneDirty io cs qsort passes hend hroot, hbtree]
        exact ⟨hend, fun _ => hreturned⟩

/-- The loop of `database_flush_dirty_bnodes` ends if every dirty trie node below the root is
backed. -/
theorem flush_returns (h : s.root.btree.TriesBacked) (passes : Nat) :
    ∃ ok s', databaseFlushDirtyBnodes io cs qsort (passes + 3) s = .returned ok s' := by
  rcases flush_pass io cs qsort (passes + 2) s with
    ⟨-, heq⟩ | ⟨infos, hinfos, -, ⟨-, heq⟩ | ⟨-, heq⟩⟩
  · rw [heq]
    exact (finishFlush_returned io _).2
  · exact ⟨_, _, heq⟩
  · have hend := pass_triesClean io cs h (hinfos ▸ qsort.perm _)
    obtain ⟨ok, s', hret⟩ := (flush_of_triesClean io cs qsort
      (s := passEnd _ infos) hend (passes + 2)).2 (Nat.le_add_left 2 passes)
    exact ⟨ok, s', heq.trans hret⟩

/-- A flush keeps the trie nodes below the root backed, unless a write of its first pass
fails after another one succeeded. -/
theorem flush_backed (h : s.root.btree.TriesBacked) (hfirst : ∀ s', flushAll io cs (markedState s)
      (qsort.sort (collectDirtyBnodes (collectMarks s.root))) = (s', false) → s' = markedState s)
    (passes : Nat) :
    (databaseFlushDirtyBnodes io cs qsort passes s).state.root.btree.TriesBacked := by
  have hmarked := collectMarks_triesBacked h
  cases passes with
  | zero => exact h
  | succ passes =>
    rcases flush_pass io cs qsort passes s with
      ⟨-, heq⟩ | ⟨infos, hinfos, -, ⟨hfail, heq⟩ | ⟨-, heq⟩⟩
    · rw [heq, (finishFlush_returned io _).1]
      exact hmarked
    · have hsame := hfirst (flushAll io cs (markedState s) infos).1 (by rw [← hinfos, ← hfail])
      rw [heq, hsame]
      exact hmarked
    · have hend := pass_triesClean io cs h (hinfos ▸ qsort.perm _)
      rw [heq]
      exact (flush_of_triesClean io cs qsort (s := passEnd _ infos) hend passes).1.backed

end Passes

end WaveDB.Database
