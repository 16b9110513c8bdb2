import WaveDB.Basis.LexOrder
import WaveDB.HBTrie.Identifier

/-!
The order of paths (`identifier_compare` in `HBTrie/identifier.c`, `path_compare` in
`HBTrie/path.c`).

Both compare element by element and put the shorter list first. `pathCompare_lt` and
`pathCompare_eq` say that `path_compare` is the lexicographic order on the lists of chunks of
the components, while the trie walks the concatenation of these lists. On components without a
zero byte it is the order of `strcmp` (`componentChunks_lt_iff`).
-/

namespace WaveDB.HBTrie

open WaveDB.Basis List

def compareLists {α : Type} (cmp : α → α → Int) : List α → List α → Int
  | [], [] => 0
  | [], _ :: _ => -1
  | _ :: _, [] => 1
  | a :: as, b :: bs => if cmp a b ≠ 0 then cmp a b else compareLists cmp as bs

def identifierCompare (a b : Identifier) : Int := compareLists chunkCompare a.chunks b.chunks

def pathCompare (a b : Path) : Int := compareLists identifierCompare a b

/-! ### The order behind the comparisons -/

/-- If the elements compare like their images, so do the lists. -/
theorem compareLists_sign {α β : Type} [LinearOrder β] {cmp : α → α → Int} {f : α → β}
    (hcmp : ∀ a b, (cmp a b < 0 ↔ f a < f b) ∧ (cmp a b = 0 ↔ f a = f b)) (as bs : List α) :
    (compareLists cmp as bs < 0 ↔ as.map f < bs.map f) ∧
      (compareLists cmp as bs = 0 ↔ as.map f = bs.map f) := by
  induction as generalizing bs with
  | nil =>
    cases bs with
    | nil | cons b bs => simp [compareLists]
  | cons a as ih =>
    cases bs with
    | nil => simp [compareLists]
    | cons b bs =>
      obtain ⟨hlt, heq⟩ := hcmp a b
      obtain ⟨ihlt, iheq⟩ := ih bs
      simp only [compareLists, map_cons, cons_lt_cons_iff]
      by_cases hab : cmp a b = 0
      · simp [heq.mp hab, hab, ihlt, iheq]
      · have hne : f a ≠ f b := fun h => hab (heq.mpr h)
        simp [hab, hne, hlt]

theorem identifierCompare_sign (a b : Identifier) :
    (identifierCompare a b < 0 ↔ a.chunks < b.chunks) ∧
      (identifierCompare a b = 0 ↔ a.chunks = b.chunks) := by
  have hchunk : ∀ c d : Chunk, (chunkCompare c d < 0 ↔ c < d) ∧ (chunkCompare c d = 0 ↔ c = d) := by
    intro c d
    rw [← bnodeEntryCompare_eq]
    exact ⟨bnodeEntryCompare_lt_zero c d, bnodeEntryCompare_eq_zero c d⟩
  have hlists := compareLists_sign (f := id) hchunk a.chunks b.chunks
  rwa [map_id, map_id] at hlists

def componentChunks (path : Path) : List (List Chunk) := path.map Identifier.chunks

theorem pathCompare_lt (a b : Path) : pathCompare a b < 0 ↔ componentChunks a < componentChunks b :=
  (compareLists_sign identifierCompare_sign a b).1

theorem pathCompare_nonneg (a b : Path) :
    0 ≤ pathCompare a b ↔ componentChunks b ≤ componentChunks a := by
  rw [← not_lt, pathCompare_lt, not_lt]

theorem pathCompare_eq_compareLists (a b : Path) : pathCompare a b =
      compareLists (compareLists chunkCompare) (componentChunks a) (componentChunks b) := by
  rw [pathCompare, componentChunks, componentChunks]
  induction a generalizing b with
  | nil =>
    cases b with
    | nil => rfl
    | cons y b => rfl
  | cons x a ih =>
    cases b with
    | nil => rfl
    | cons y b =>
      simp only [map_cons, compareLists, ← ih b]
      rfl

theorem pathChunks_eq_flatten (path : Path) : pathChunks path = (componentChunks path).flatten := by
  rw [pathChunks, componentChunks, flatMap_def]

/-! ### Components without NUL bytes -/

/-- The bytes as numbers; their lexicographic order is that of `strcmp`. -/
def byteOrder (data : Bytes) : List ℕ := data.map UInt8.toNat

/-- No byte is zero: the bytes of a C string. -/
def NulFree (data : Bytes) : Prop := 0 ∉ data

instance (data : Bytes) : Decidable (NulFree data) := inferInstanceAs (Decidable (0 ∉ data))

theorem byteOrder_injective : Function.Injective byteOrder :=
  map_injective_iff.mpr fun _ _ => UInt8.toNat_inj.mp

theorem byteOrder_append (a b : Bytes) : byteOrder (a ++ b) = byteOrder a ++ byteOrder b :=
  map_append

theorem chunks_lt_iff (cs : ChunkSize) {xs ys : List Chunk} (hx : ∀ c ∈ xs, c.size = cs.size)
    (hy : ∀ c ∈ ys, c.size = cs.size) :
    xs < ys ↔ byteOrder (xs.flatMap Chunk.data) < byteOrder (ys.flatMap Chunk.data) := by
  induction xs generalizing ys with
  | nil =>
    cases ys with
    | nil => simp
    | cons y ys =>
      obtain ⟨b, bs, hb⟩ := exists_cons_of_length_pos y.size_pos
      simp [byteOrder, hb]
  | cons x xs ih =>
    cases ys with
    | nil => simp [byteOrder]
    | cons y ys =>
      have hlength : (byteOrder x.data).length = (byteOrder y.data).length := by
        rw [byteOrder, byteOrder, length_map, length_map]
        exact (hx x mem_cons_self).trans (hy y mem_cons_self).symm
      have hrest := ih (fun c hc => hx c (mem_cons_of_mem _ hc))
        (fun c hc => hy c (mem_cons_of_mem _ hc))
      have hsame : byteOrder x.data = byteOrder y.data ↔ x = y :=
        ⟨fun h => Chunk.ext_data (byteOrder_injective h), fun h => h ▸ rfl⟩
      rw [cons_lt_cons_iff, hrest, flatMap_cons, flatMap_cons,
        byteOrder_append, byteOrder_append, append_lt_append_iff hlength, hsame]
      rfl

/-- Zeroes behind the bytes do not change the order. -/
theorem padded_lt {a b : Bytes} (ha : NulFree a) (hb : NulFree b)
    (h : byteOrder a < byteOrder b) (m n : ℕ) :
    byteOrder (a ++ replicate m 0) < byteOrder (b ++ replicate n 0) := by
  induction a generalizing b with
  | nil =>
    cases b with
    | nil => exact absurd h (lt_irrefl _)
    | cons y b =>
      have hy : y ≠ 0 := fun h0 => hb (h0 ▸ mem_cons_self)
      have hpos : 0 < y.toNat := by
        rw [Nat.pos_iff_ne_zero]
        exact fun h0 => hy (UInt8.toNat_inj.mp h0)
      cases m with
      | zero => exact nil_lt_cons _ _
      | succ m => exact cons_lt_cons_iff.mpr (.inl hpos)
  | cons x a ih =>
    cases b with
    | nil => exact absurd h (not_lt_nil _)
    | cons y b =>
      rcases cons_lt_cons_iff.mp h with hlt | ⟨heq, hrest⟩
      · exact cons_lt_cons_iff.mpr (.inl hlt)
      · refine cons_lt_cons_iff.mpr (.inr ⟨heq, ?_⟩)
        exact ih (fun h0 => ha (mem_cons_of_mem _ h0)) (fun h0 => hb (mem_cons_of_mem _ h0)) hrest

section Components

variable {cs : ChunkSize} {a b : Bytes} {p q : List Bytes}

theorem identifierCreate_lt (ha : NulFree a) (hb : NulFree b) (h : byteOrder a < byteOrder b) :
    (identifierCreate a cs).chunks < (identifierCreate b cs).chunks := by
  rw [chunks_lt_iff cs (identifierCreate_chunk_size cs a) (identifierCreate_chunk_size cs b),
    identifierCreate_bytes, identifierCreate_bytes]
  exact padded_lt ha hb h _ _

/-- A byte that is not zero makes a component greater. -/
theorem identifierCreate_lt_concat (a : Bytes) {x : UInt8} (hx : x ≠ 0) :
    (identifierCreate a cs).chunks < (identifierCreate (a ++ [x]) cs).chunks := by
  rw [chunks_lt_iff cs (identifierCreate_chunk_size cs a) (identifierCreate_chunk_size cs _),
    identifierCreate_bytes, identifierCreate_bytes, zeroPadded, zeroPadded, append_assoc,
    byteOrder_append a, byteOrder_append a, append_lt_append_left]
  have hpos : byteOrder [] < byteOrder [x] := nil_lt_cons _ _
  exact padded_lt not_mem_nil (fun h0 => hx (mem_singleton.mp h0).symm) hpos _ _

theorem identifierCreate_lt_iff (ha : NulFree a) (hb : NulFree b) :
    (identifierCreate a cs).chunks < (identifierCreate b cs).chunks ↔
      byteOrder a < byteOrder b := by
  refine ⟨fun h => ?_, identifierCreate_lt ha hb⟩
  rcases lt_trichotomy (byteOrder a) (byteOrder b) with hlt | heq | hgt
  · exact hlt
  · rw [byteOrder_injective heq] at h
    exact absurd h (lt_irrefl _)
  · exact absurd (identifierCreate_lt hb ha hgt) (lt_asymm h)

theorem identifierCreate_chunks_inj (ha : NulFree a) (hb : NulFree b) :
    (identifierCreate a cs).chunks = (identifierCreate b cs).chunks ↔ a = b := by
  refine ⟨fun h => ?_, fun h => h ▸ rfl⟩
  rcases lt_trichotomy (byteOrder a) (byteOrder b) with hlt | heq | hgt
  · exact absurd h (identifierCreate_lt ha hb hlt).ne
  · exact byteOrder_injective heq
  · exact absurd h (identifierCreate_lt hb ha hgt).ne'

theorem componentChunks_lt_iff (hp : ∀ a ∈ p, NulFree a) (hq : ∀ b ∈ q, NulFree b) :
    componentChunks (pathOf cs p) < componentChunks (pathOf cs q) ↔
      p.map byteOrder < q.map byteOrder := by
  induction p generalizing q with
  | nil =>
    cases q with
    | nil => exact iff_of_false (lt_irrefl _) (lt_irrefl _)
    | cons b q => exact iff_of_true (nil_lt_cons _ _) (nil_lt_cons _ _)
  | cons a p ih =>
    cases q with
    | nil => exact iff_of_false (not_lt_nil _) (not_lt_nil _)
    | cons b q =>
      have ha := hp a mem_cons_self
      have hb := hq b mem_cons_self
      have hrest := ih (fun x hx => hp x (mem_cons_of_mem _ hx))
        (fun x hx => hq x (mem_cons_of_mem _ hx))
      simp only [componentChunks, pathOf, map_cons, cons_lt_cons_iff] at hrest ⊢
      rw [hrest, identifierCreate_lt_iff ha hb, identifierCreate_chunks_inj ha hb,
        byteOrder_injective.eq_iff]

/-! ### The order of the walk -/

theorem pathChunks_append (a b : List Bytes) :
    pathChunks (pathOf cs (a ++ b)) = pathChunks (pathOf cs a) ++ pathChunks (pathOf cs b) := by
  rw [pathOf, map_append, pathChunks, flatMap_append]
  rfl

theorem pathChunks_chunk_size (p : List Bytes) :
    ∀ c ∈ pathChunks (pathOf cs p), c.size = cs.size := by
  intro c hc
  obtain ⟨identifier, hidentifier, hc⟩ := mem_flatMap.mp hc
  obtain ⟨data, -, rfl⟩ := mem_map.mp hidentifier
  exact identifierCreate_chunk_size cs data c hc

theorem length_lt_of_lt_zeroes {u : List ℕ} {m : ℕ} (h : u < replicate m 0) : u.length < m := by
  induction u generalizing m with
  | nil =>
    cases m with
    | zero => exact absurd h (lt_irrefl _)
    | succ m => exact Nat.succ_pos m
  | cons x u ih =>
    cases m with
    | zero => exact absurd h (not_lt_nil _)
    | succ m =>
      rcases cons_lt_cons_iff.mp h with hx | ⟨-, hrest⟩
      · exact absurd hx (Nat.not_lt_zero x)
      · exact Nat.succ_lt_succ (ih hrest)

theorem identifierCalcNchunk_mono {m n : ℕ} (h : m ≤ n) :
    identifierCalcNchunk m cs ≤ identifierCalcNchunk n cs := by
  unfold identifierCalcNchunk
  split
  · split
    · exact le_rfl
    · exact Nat.le_add_left 1 _
  · rw [if_neg (by omega)]
    exact Nat.succ_le_succ (Nat.div_le_div_right (by omega))

/-- The chunks of a component are not behind those of a longer one, whatever follows. -/
theorem identifierCreate_append_le (a r : Bytes) (rest : List Bytes) :
    (identifierCreate a cs).chunks ≤
      (identifierCreate (a ++ r) cs).chunks ++ pathChunks (pathOf cs rest) := by
  have hsizes : ∀ c ∈ (identifierCreate (a ++ r) cs).chunks ++ pathChunks (pathOf cs rest),
      c.size = cs.size := by
    exact forall_mem_append.mpr ⟨identifierCreate_chunk_size cs _, pathChunks_chunk_size rest⟩
  rw [← not_lt, chunks_lt_iff cs hsizes (identifierCreate_chunk_size cs a), flatMap_append,
    identifierCreate_bytes, identifierCreate_bytes, zeroPadded, zeroPadded, append_assoc,
    append_assoc, byteOrder_append a, byteOrder_append a, append_lt_append_left]
  intro hlt
  have hzeroes : ∀ m, byteOrder (replicate m 0) = replicate m 0 := fun m => map_replicate
  rw [hzeroes] at hlt
  -- the padding of `a` is not longer than what follows it in the other bytes
  have hlength := length_lt_of_lt_zeroes hlt
  have hmono := Nat.mul_le_mul_right cs.size
    (@identifierCalcNchunk_mono cs a.length (a ++ r).length (by simp))
  have hfits := length_le_nchunk cs (a ++ r).length
  simp only [byteOrder, length_map, length_append, length_replicate] at hlength hmono hfits
  omega

/-- A path is not behind one whose component at its end continues it. -/
theorem pathChunks_continues_le (front : List Bytes) (a r : Bytes) (rest : List Bytes) :
    pathChunks (pathOf cs (front ++ [a])) ≤ pathChunks (pathOf cs (front ++ (a ++ r) :: rest)) := by
  rw [pathChunks_append, pathChunks_append, append_le_append_left]
  have hone : pathChunks (pathOf cs [a]) = (identifierCreate a cs).chunks := append_nil _
  rw [hone]
  exact identifierCreate_append_le a r rest

end Components

end WaveDB.HBTrie
