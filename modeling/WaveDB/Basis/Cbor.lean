import WaveDB.Basis.Codec

/-!
CBOR items of three kinds: unsigned integers, byte strings and arrays of definite length.

`Libcbor` is all that is assumed of a codec: what it writes, it reads back. `headCbor` is one that
does. An item starts there with a head, the kind in the upper three bits of a byte and then a
number in the shortest of five widths.
-/

namespace WaveDB.Basis

/-! ### Items -/

inductive CborItem where
  | uint (n : Nat)
  | bytes (data : List UInt8)
  | array (items : List CborItem)

/-- All numbers and lengths fit into eight bytes. -/
inductive CborItem.Fits : CborItem → Prop
  | uint {n : Nat} : n < 256 ^ 8 → Fits (.uint n)
  | bytes {data : List UInt8} : data.length < 256 ^ 8 → Fits (.bytes data)
  | array {items : List CborItem} :
      items.length < 256 ^ 8 → (∀ item ∈ items, Fits item) → Fits (.array items)

/-- `cbor_serialize_alloc` and `cbor_load` of a library that is exact on these items. -/
class Libcbor where
  serialize : CborItem → List UInt8
  load : List UInt8 → Option CborItem
  load_serialize : ∀ {item : CborItem}, item.Fits → load (serialize item) = some item

/-! ### Heads -/

/-- The kind (`major`) and a number, in as few bytes as it needs. -/
def writeHead (major n : Nat) : List UInt8 :=
  if n < 24 then writeUint 1 (major * 32 + n)
  else if n < 256 then writeUint 1 (major * 32 + 24) ++ writeUint 1 n
  else if n < 256 ^ 2 then writeUint 1 (major * 32 + 25) ++ writeUint 2 n
  else if n < 256 ^ 4 then writeUint 1 (major * 32 + 26) ++ writeUint 4 n
  else writeUint 1 (major * 32 + 27) ++ writeUint 8 n

def readArgument (info : Nat) : Reader Nat :=
  if info < 24 then pure info
  else if info = 24 then readUint 1
  else if info = 25 then readUint 2
  else if info = 26 then readUint 4
  else if info = 27 then readUint 8
  else failure

def readHead : Reader (Nat × Nat) := do
  let initial ← readUint 1
  (initial / 32, ·) <$> readArgument (initial % 32)

theorem reads_head_wide {major info width n : Nat} (hmajor : major < 8) (hinfo : info < 32)
    (hn : n < 256 ^ width) (hread : readArgument info = readUint width) :
    Reads readHead (writeUint 1 (major * 32 + info) ++ writeUint width n) (major, n) := by
  have hinitial : Reads (readUint 1) (writeUint 1 (major * 32 + info)) (major * 32 + info) :=
    .uint (by omega)
  refine hinitial.bind ?_
  rw [show (major * 32 + info) / 32 = major by omega,
    show (major * 32 + info) % 32 = info by omega, hread]
  exact (Reads.uint hn).map _

theorem reads_head {major n : Nat} (hmajor : major < 8) (hn : n < 256 ^ 8) :
    Reads readHead (writeHead major n) (major, n) := by
  unfold writeHead
  split_ifs with h24 h1 h2 h4
  · have hinitial : Reads (readUint 1) (writeUint 1 (major * 32 + n)) (major * 32 + n) :=
      .uint (by omega)
    refine hinitial.last ?_
    rw [show (major * 32 + n) / 32 = major by omega, show (major * 32 + n) % 32 = n by omega,
      readArgument, if_pos h24]
    exact (Reads.pure n).map _
  · exact reads_head_wide hmajor (by decide) h1 rfl
  · exact reads_head_wide hmajor (by decide) h2 rfl
  · exact reads_head_wide hmajor (by decide) h4 rfl
  · exact reads_head_wide hmajor (by decide) hn rfl

/-! ### A codec -/

mutual

def CborItem.encode : CborItem → List UInt8
  | .uint n => writeHead 0 n
  | .bytes data => writeHead 2 data.length ++ data
  | .array items => writeHead 4 items.length ++ CborItem.encodeAll items

def CborItem.encodeAll : List CborItem → List UInt8
  | [] => []
  | item :: items => item.encode ++ CborItem.encodeAll items

end

def readCborItem : Nat → Reader CborItem
  | 0 => failure
  | fuel + 1 => do
      let head ← readHead
      if head.1 = 0 then pure (.uint head.2)
      else if head.1 = 2 then .bytes <$> readBytes head.2
      else if head.1 = 4 then .array <$> readMany (readCborItem fuel) head.2
      else failure

theorem CborItem.encodeAll_eq (items : List CborItem) : encodeAll items = items.flatMap encode := by
  induction items with
  | nil => rfl
  | cons item items ih => rw [encodeAll, List.flatMap_cons, ih]

theorem length_le_flatMap_of_mem {α : Type} {f : α → List UInt8} {a : α} {as : List α}
    (h : a ∈ as) : (f a).length ≤ (as.flatMap f).length := by
  obtain ⟨pre, post, rfl⟩ := List.append_of_mem h
  simp only [List.flatMap_append, List.flatMap_cons, List.length_append]
  omega

theorem reads_cborItem {item : CborItem} (h : item.Fits) {fuel : Nat}
    (hfuel : item.encode.length ≤ fuel) : Reads (readCborItem fuel) item.encode item := by
  have hhead : ∀ major n, 0 < (writeHead major n).length := by
    intro major n
    unfold writeHead
    split_ifs <;> simp
  induction h generalizing fuel with
  | @uint n hn =>
    have hpos : 0 < fuel := (hhead 0 n).trans_le hfuel
    obtain ⟨fuel, rfl⟩ : ∃ k, fuel = k + 1 := Nat.exists_eq_add_one.mpr hpos
    exact (reads_head (by decide) hn).last (.pure _)
  | @bytes data hn =>
    rw [CborItem.encode, List.length_append] at hfuel
    have hpos := hhead 2 data.length
    obtain ⟨fuel, rfl⟩ : ∃ k, fuel = k + 1 := Nat.exists_eq_add_one.mpr (by omega)
    exact (reads_head (by decide) hn).bind ((Reads.bytes rfl).map _)
  | @array items hn hitems ih =>
    rw [CborItem.encode, CborItem.encodeAll_eq] at hfuel ⊢
    rw [List.length_append] at hfuel
    have hpos := hhead 4 items.length
    obtain ⟨fuel, rfl⟩ : ∃ k, fuel = k + 1 := Nat.exists_eq_add_one.mpr (by omega)
    -- the head has taken a byte, so each item is within the fuel that is left
    have hmany : Reads (readMany (readCborItem fuel) items.length)
        (items.flatMap CborItem.encode) (items.map id) := by
      refine Reads.many fun item hitem => ih item hitem ?_
      have hle := length_le_flatMap_of_mem (f := CborItem.encode) hitem
      omega
    rw [List.map_id] at hmany
    exact (reads_head (by decide) hn).bind (hmany.map CborItem.array)

/-- Reading takes the item at the front. A level takes at least a byte, so there is fuel for all
of them. -/
@[reducible] def headCbor : Libcbor where
  serialize := CborItem.encode
  load data := ((readCborItem data.length).run data).map Prod.fst
  load_serialize := fun h => by
    rw [(reads_cborItem h le_rfl).run_eq]
    rfl

end WaveDB.Basis
