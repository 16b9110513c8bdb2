import WaveDB.HBTrie.SnapshotRead

/-!
Which paths share a trie entry.

The trie key of a path is the concatenation of its zero-padded components.
`hbtrieInsert_preserves_iff`: inserting at `p` leaves the reads of `q` alone in every
trie exactly when the padded concatenations differ, or `p` is refused.
`hbtrieInsert_aliases` shows the two ways to alias: a moved component boundary and a
trailing zero byte.
-/

namespace WaveDB.HBTrie

open Workers

/-- An insert at `p` changes no read of `q`, in any well-formed trie whose leaves it
does not split below their separators. -/
def InsertPreserves (cfg : Config) (p q : List Bytes) : Prop :=
  ∀ (load : Loader) (root : HbtrieNode) (value : Bytes) (txnId readTxnId : TransactionId),
    TrieOk load root →
    insertSplitsSafely cfg load root (pathSteps (pathOf cfg.chunkSize p)) = true →
    hbtrieFind load (hbtrieInsert cfg load root (pathOf cfg.chunkSize p) value txnId).1
        (pathOf cfg.chunkSize q) readTxnId =
      hbtrieFind load root (pathOf cfg.chunkSize q) readTxnId

/-- Two keys that differ, or a refused insert: nothing changes. -/
theorem InsertPreserves.of_ne {cfg : Config} {p q : List Bytes}
    (h : paddedBytes cfg.chunkSize p ≠ paddedBytes cfg.chunkSize q ∨
      pathAccepted cfg (pathOf cfg.chunkSize p) = false) : InsertPreserves cfg p q := by
  intro load root value txnId readTxnId hok hsafe
  by_cases hp : p = []
  · rw [hp]
    rfl
  by_cases hq : q = []
  · rw [hq]
    rfl
  obtain ⟨-, hacc, hcontent⟩ := hbtrieInsert_effect hok (pathOf_valid cfg.chunkSize hp) hsafe
  rw [hbtrieFind_eq load _ (pathOf_valid _ hq), hbtrieFind_eq load _ (pathOf_valid _ hq),
    hcontent, stepChunks_pathSteps, hacc, stepsAccepted_pathSteps, if_neg]
  rintro ⟨haccepted, hkey⟩
  rcases h with hne | hrefused
  · exact hne ((pathChunks_eq_iff ..).mp hkey.symm)
  · rw [hrefused] at haccepted
    cases haccepted

theorem paddedBytes_ne_nil (cs : ChunkSize) {components : List Bytes} (h : components ≠ []) :
    paddedBytes cs components ≠ [] := by
  intro hnil
  have hsame : pathChunks (pathOf cs components) = pathChunks (pathOf cs []) :=
    (pathChunks_eq_iff cs components []).mpr hnil
  have hne := (pathOf_valid cs h).endsInChunk.stepChunks_ne_nil
  rw [stepChunks_pathSteps, hsame] at hne
  exact hne rfl

/-- For different component lists, inserting at `p` leaves the reads of `q` alone
exactly when the zero-padded components concatenate to different bytes or `p` is
refused. -/
theorem hbtrieInsert_preserves_iff (cfg : Config) (p q : List Bytes) (hpq : p ≠ q) :
    InsertPreserves cfg p q ↔
      paddedBytes cfg.chunkSize p ≠ paddedBytes cfg.chunkSize q ∨
        pathAccepted cfg (pathOf cfg.chunkSize p) = false := by
  constructor
  · intro h
    by_cases hp : p = []
    · rw [hp] at hpq ⊢
      exact .inl (Ne.symm (paddedBytes_ne_nil cfg.chunkSize (Ne.symm hpq)))
    by_cases hq : q = []
    · rw [hq]
      exact .inl (paddedBytes_ne_nil cfg.chunkSize hp)
    by_contra hsame
    rw [not_or, not_not, Bool.not_eq_false] at hsame
    obtain ⟨hbytes, haccepted⟩ := hsame
    -- on an empty trie the insert is read back through the other path
    have hfresh := h noLoader hbtrieNodeCreate [1] ⟨0, 0, 0⟩ ⟨0, 0, 0⟩ (TrieOk.create noLoader)
      (insertSplitsSafely_create ..)
    obtain ⟨-, hacc, hcontent⟩ := hbtrieInsert_effect (TrieOk.create noLoader)
      (pathOf_valid cfg.chunkSize hp) (insertSplitsSafely_create cfg noLoader _)
    rw [hbtrieFind_eq noLoader _ (pathOf_valid _ hq), hbtrieFind_eq noLoader _ (pathOf_valid _ hq),
      hcontent, stepChunks_pathSteps, hacc, stepsAccepted_pathSteps,
      if_pos ⟨haccepted, ((pathChunks_eq_iff ..).mpr hbytes).symm⟩, contentAt_create] at hfresh
    cases hfresh
  · exact InsertPreserves.of_ne

/-- `abcd` keeps its value when `abcd/efgh` is inserted. -/
theorem hbtrieInsert_preserves_sample :
    InsertPreserves defaultConfig [[97, 98, 99, 100], [101, 102, 103, 104]] [[97, 98, 99, 100]] :=
  (hbtrieInsert_preserves_iff defaultConfig _ _ (by decide)).mpr (.inl (by decide))

/-- With four-byte chunks `abcd/efgh` and `abcdefgh` are one key, and so are `a` and
`a\0`. -/
theorem hbtrieInsert_aliases :
    ¬ InsertPreserves defaultConfig [[97, 98, 99, 100], [101, 102, 103, 104]]
        [[97, 98, 99, 100, 101, 102, 103, 104]] ∧
      ¬ InsertPreserves defaultConfig [[97]] [[97, 0]] := by
  refine ⟨fun h => ?_, fun h => ?_⟩
  · exact absurd (h noLoader hbtrieNodeCreate [1] ⟨0, 0, 1⟩ ⟨0, 0, 1⟩ (TrieOk.create noLoader)
      (insertSplitsSafely_create ..)) (by decide)
  · exact absurd (h noLoader hbtrieNodeCreate [1] ⟨0, 0, 1⟩ ⟨0, 0, 1⟩ (TrieOk.create noLoader)
      (insertSplitsSafely_create ..)) (by decide)

end WaveDB.HBTrie
