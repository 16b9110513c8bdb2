import Mathlib.Algebra.Order.BigOperators.Group.Finset
import Mathlib.Data.Finset.Union
import Mathlib.Order.Interval.Finset.Nat
import WaveDB.Basis.Codec
import WaveDB.Basis.LowerBound
import WaveDB.Storage.PageFile

/-!
The stale regions of a file as a set of bytes (`Storage/stale_region.c`).

The manager keeps its regions apart: each ends before the next one starts. Adding a region
replaces the ones it touches by one region that covers exactly the same bytes and the new ones
(`Split.place_spec`), so the regions and the running total always describe the union of
what was added, and reading back their bytes gives the same manager.
-/

namespace WaveDB.Storage

open WaveDB.Basis HBTrie List StaleRegion

def StaleRegionMgr.addAll (mgr : StaleRegionMgr) (calls : List StaleRegion) : StaleRegionMgr :=
  calls.foldl (fun mgr call => mgr.add call.offset call.length) mgr

/-! ### Their bytes -/

def staleRegionSerialize (mgr : StaleRegionMgr) : Bytes :=
  writeUintLe 8 mgr.regions.length ++ (writeUintLe 8 mgr.totalStaleBytes.toNat ++
    mgr.regions.flatMap fun r => writeUintLe 8 r.offset ++ writeUintLe 8 r.length)

def readStaleRegion : Reader StaleRegion := do
  let offset ← readUintLe 8
  mk offset <$> readUintLe 8

def readStaleRegions (limit : Nat) : Reader (List StaleRegion) := do
  let count ← readUintLe 8
  let _total ← readUintLe 8
  if limit < count then failure else readMany readStaleRegion count

/-- `stale_region_deserialize`; `none` is NULL. -/
def staleRegionDeserialize (data : Bytes) : Option StaleRegionMgr :=
  ((readStaleRegions ((data.length - 16) / 16)).run data).map fun (regions, _) =>
    ⟨regions, regions.foldl (fun total r => total + UInt64.ofNat r.length) 0⟩

/-! ### The set of bytes -/

def StaleRegion.bytes (r : StaleRegion) : Finset Nat := Finset.Ico r.offset r.stop

variable (regions : List StaleRegion)

def staleBytes : Finset Nat :=
  regions.toFinset.biUnion bytes

def Separated : Prop :=
  regions.Pairwise fun a b => a.stop < b.offset

def lengthSum : Nat := (regions.map StaleRegion.length).sum

section

variable {regions left merging right : List StaleRegion} {mgr : StaleRegionMgr}
  {bytes : Finset Nat} {offset length : Nat} {r first last : StaleRegion}

@[simp] theorem mem_staleBytes {b : Nat} :
    b ∈ staleBytes regions ↔ ∃ r ∈ regions, r.offset ≤ b ∧ b < r.stop := by
  simp [staleBytes, bytes]

theorem staleBytes_append : staleBytes (left ++ right) = staleBytes left ∪ staleBytes right := by
  rw [staleBytes, toFinset_append, Finset.union_biUnion, staleBytes, staleBytes]

theorem staleBytes_cons : staleBytes (r :: regions) = r.bytes ∪ staleBytes regions := by
  rw [staleBytes, toFinset_cons, Finset.biUnion_insert, staleBytes]

theorem Separated.card_staleBytes (h : Separated regions) :
    (staleBytes regions).card = lengthSum regions := by
  induction regions with
  | nil => rfl
  | cons r rs ih =>
    obtain ⟨hr, hrs⟩ := pairwise_cons.mp h
    have hdisjoint : Disjoint r.bytes (staleBytes rs) := by
      rw [Finset.disjoint_left]
      intro b hb hin
      obtain ⟨r', hr', hle, -⟩ := mem_staleBytes.mp hin
      have hbefore := hr r' hr'
      have hlt := (Finset.mem_Ico.mp hb).2
      omega
    rw [staleBytes_cons, Finset.card_union_of_disjoint hdisjoint, ih hrs]
    simp [bytes, stop, lengthSum]

theorem lengthSum_cons : lengthSum (r :: regions) = r.length + lengthSum regions := rfl

theorem lengthSum_append : lengthSum (left ++ right) = lengthSum left + lengthSum right := by
  simp [lengthSum]

theorem foldl_sub_lengths (total : UInt64) :
    regions.foldl (fun total r => total - UInt64.ofNat r.length) total =
      total - UInt64.ofNat (lengthSum regions) := by
  induction regions generalizing total with
  | nil => simp [lengthSum]
  | cons r rs ih =>
    rw [foldl_cons, ih, lengthSum_cons, UInt64.ofNat_add]
    grind

theorem foldl_add_lengths (total : UInt64) :
    regions.foldl (fun total r => total + UInt64.ofNat r.length) total =
      total + UInt64.ofNat (lengthSum regions) := by
  induction regions generalizing total with
  | nil => simp [lengthSum]
  | cons r rs ih => rw [foldl_cons, ih, lengthSum_cons, UInt64.ofNat_add, UInt64.add_assoc]

/-! ### Adding a region -/

theorem Separated.offsets (h : Separated regions) : Nondescending StaleRegion.offset regions :=
  h.imp fun hlt => Nat.le_of_lt (Nat.lt_of_le_of_lt (Nat.le_add_right _ _) hlt)

theorem Separated.stops (h : Separated regions) : Nondescending stop regions :=
  h.imp fun hlt => Nat.le_trans (Nat.le_of_lt hlt) (Nat.le_add_right _ _)

theorem Separated.ends (h : Separated regions) (hfirst : regions.head? = some first)
    (hlast : regions.getLast? = some last) :
    ∀ r ∈ regions, first.offset ≤ r.offset ∧ r.stop ≤ last.stop := by
  intro r hr
  constructor
  · obtain ⟨rs, rfl⟩ := head?_eq_some_iff.mp hfirst
    rcases mem_cons.mp hr with rfl | hr
    · exact Nat.le_refl _
    · exact (pairwise_cons.mp h.offsets).1 r hr
  · obtain ⟨rs, rfl⟩ := getLast?_eq_some_iff.mp hlast
    rcases mem_append.mp hr with hr | hr
    · exact (pairwise_append.mp h.stops).2.2 r hr last (mem_singleton_self last)
    · rw [mem_singleton.mp hr]

/-- The regions before the new one, those it touches and those after it. -/
structure Split (left merging right : List StaleRegion) (offset length : Nat) : Prop where
  separated : Separated (left ++ (merging ++ right))
  before : ∀ r ∈ left, r.stop < offset
  touching : ∀ r ∈ merging, offset ≤ r.stop ∧ r.offset ≤ offset + length
  after : ∀ r ∈ right, offset + length < r.offset

theorem startsBy_eq (stop : Nat) : startsBy stop = fun r => decide (r.offset < stop + 1) := by
  funext r
  exact decide_eq_decide.mpr Nat.lt_succ_iff.symm

theorem Separated.split (h : Separated regions) (offset length : Nat) :
    Split (regions.takeWhile (endsBefore offset))
      ((regions.dropWhile (endsBefore offset)).takeWhile (startsBy (offset + length)))
      ((regions.dropWhile (endsBefore offset)).dropWhile (startsBy (offset + length)))
      offset length := by
  have hrest : Separated (regions.dropWhile (endsBefore offset)) :=
    h.sublist (dropWhile_sublist _)
  rw [startsBy_eq]
  constructor
  · rwa [takeWhile_append_dropWhile, takeWhile_append_dropWhile]
  · exact fun r hr => lt_of_mem_below hr
  · intro r hr
    exact ⟨h.stops.le_of_mem_notBelow ((takeWhile_sublist _).subset hr),
      Nat.le_of_lt_succ (lt_of_mem_below hr)⟩
  · exact fun r hr => hrest.offsets.le_of_mem_notBelow hr

theorem mergedRegion_stop :
    (mergedRegion offset length first last).stop = max (offset + length) last.stop := by
  simp only [mergedRegion, stop]
  omega

theorem mergedRegion_bytes (hfirst : first ∈ merging) (hlast : last ∈ merging)
    (hends : ∀ r ∈ merging, first.offset ≤ r.offset ∧ r.stop ≤ last.stop)
    (htouch : ∀ r ∈ merging, offset ≤ r.stop ∧ r.offset ≤ offset + length) :
    (mergedRegion offset length first last).bytes =
      (mk offset length).bytes ∪ staleBytes merging := by
  have := htouch first hfirst
  have := htouch last hlast
  ext b
  simp only [bytes, Finset.mem_Ico, Finset.mem_union, mem_staleBytes]
  simp only [mergedRegion, stop] at *
  constructor
  · intro hin
    by_cases hbefore : b < offset
    · exact .inr ⟨first, hfirst, by omega⟩
    by_cases hafter : offset + length ≤ b
    · exact .inr ⟨last, hlast, by omega⟩
    · exact .inl (by omega)
  · rintro (hin | ⟨r, hr, hin⟩)
    · omega
    · have := hends r hr
      omega

/-- What replaces the regions that are merged has their bytes and the new ones, and stays clear of
the others. -/
theorem Split.place_spec (h : Split left merging right offset length) (total : UInt64) : ∃ merged,
      StaleRegionMgr.place total left merging right offset length = ⟨left ++ merged :: right,
          total - UInt64.ofNat (lengthSum merging) + UInt64.ofNat merged.length⟩ ∧
      merged.bytes = (StaleRegion.mk offset length).bytes ∪ staleBytes merging ∧
      (∀ r ∈ left, r.stop < merged.offset) ∧ ∀ r ∈ right, merged.stop < r.offset := by
  obtain ⟨-, hrest, hleft⟩ := pairwise_append.mp h.separated
  obtain ⟨hmerging, -, hright⟩ := pairwise_append.mp hrest
  cases hlast : merging.getLast? with
  | none =>
    obtain rfl := getLast?_eq_none_iff.mp hlast
    refine ⟨⟨offset, length⟩, ?_, ?_, h.before, h.after⟩
    · simp [StaleRegionMgr.place, lengthSum]
    · simp [staleBytes]
  | some last =>
    cases merging with
    | nil => cases hlast
    | cons first more =>
      have hin : last ∈ first :: more := mem_of_getLast? hlast
      refine ⟨mergedRegion offset length first last, ?_, ?_, fun r hr => ?_, fun r hr => ?_⟩
      · simp only [StaleRegionMgr.place, hlast, foldl_sub_lengths]
      · exact mergedRegion_bytes mem_cons_self hin (Separated.ends hmerging rfl hlast) h.touching
      · exact lt_min (h.before r hr) (hleft r hr first (by simp))
      · rw [mergedRegion_stop]
        exact max_lt (h.after r hr) (hright last hin r hr)

/-! ### Every sequence of calls -/

/-- The regions and the total describe these bytes. -/
structure Describes (mgr : StaleRegionMgr) (bytes : Finset Nat) : Prop where
  separated : Separated mgr.regions
  nonempty : ∀ r ∈ mgr.regions, r.length ≠ 0
  bytes : staleBytes mgr.regions = bytes
  total : mgr.totalStaleBytes = UInt64.ofNat (lengthSum mgr.regions)

theorem Split.describes (hsplit : Split left merging right offset length)
    (hregions : left ++ (merging ++ right) = mgr.regions) (h : Describes mgr bytes)
    (hlength : length ≠ 0) : Describes (.place mgr.totalStaleBytes left merging right offset length)
      (bytes ∪ (StaleRegion.mk offset length).bytes) := by
  obtain ⟨hleft, hrest, hcross⟩ := pairwise_append.mp hsplit.separated
  obtain ⟨-, hright, -⟩ := pairwise_append.mp hrest
  obtain ⟨merged, hplace, hbytes, hbefore, hafter⟩ := hsplit.place_spec mgr.totalStaleBytes
  rw [hplace]
  have hnonempty := hregions ▸ h.nonempty
  constructor
  · refine pairwise_append.mpr ⟨hleft, pairwise_cons.mpr ⟨hafter, hright⟩, fun r hr r' hr' => ?_⟩
    rcases mem_cons.mp hr' with rfl | hr'
    · exact hbefore r hr
    · exact hcross r hr r' (mem_append_right _ hr')
  · simp only [mem_append, mem_cons] at hnonempty ⊢
    rintro r (hr | rfl | hr)
    · exact hnonempty r (.inl hr)
    · -- the new bytes are among those of the merged region
      have hin : offset ∈ r.bytes := by
        rw [hbytes]
        exact Finset.mem_union_left _ (Finset.mem_Ico.mpr ⟨Nat.le_refl _, by
          simp only [StaleRegion.stop]
          omega⟩)
      intro hzero
      simp only [StaleRegion.bytes, StaleRegion.stop, Finset.mem_Ico] at hin
      omega
    · exact hnonempty r (.inr (.inr hr))
  · rw [staleBytes_append, staleBytes_cons, hbytes, ← h.bytes, ← hregions, staleBytes_append,
      staleBytes_append]
    ext b
    simp only [Finset.mem_union]
    tauto
  · rw [h.total, ← hregions]
    simp only [lengthSum_append, lengthSum_cons, UInt64.ofNat_add]
    grind

theorem Describes.add (h : Describes mgr bytes) (hlength : length ≠ 0)
    (hfits : offset + length < 2 ^ 64) :
    Describes (mgr.add offset length) (bytes ∪ (StaleRegion.mk offset length).bytes) := by
  unfold StaleRegionMgr.add
  rw [if_neg (by omega)]
  exact (h.separated.split offset length).describes
    (by rw [takeWhile_append_dropWhile, takeWhile_append_dropWhile]) h hlength

theorem Describes.addAll (h : Describes mgr bytes) {calls : List StaleRegion}
    (hcalls : ∀ call ∈ calls, call.length ≠ 0 ∧ call.stop < 2 ^ 64) :
    Describes (mgr.addAll calls) (bytes ∪ staleBytes calls) := by
  induction calls generalizing mgr bytes with
  | nil => rwa [show staleBytes [] = ∅ from rfl, Finset.union_empty]
  | cons call calls ih =>
    obtain ⟨hlength, hfits⟩ := hcalls call mem_cons_self
    have hrest := ih (h.add hlength hfits) fun c hc => hcalls c (mem_cons_of_mem _ hc)
    rwa [Finset.union_assoc, ← staleBytes_cons] at hrest

theorem Describes.create : Describes .create ∅ :=
  ⟨.nil, fun _ h => (not_mem_nil h).elim, rfl, rfl⟩

/-! ### Reading back -/

theorem staleRegionSerialize_length : (staleRegionSerialize mgr).length = staleBlobLength mgr := by
  simp only [staleBlobLength, staleRegionSerialize, length_append, writeUintLe_length,
    length_flatMap, map_const',
    sum_replicate_nat]
  omega

theorem staleRegionDeserialize_serialize (hcount : mgr.regions.length < 2 ^ 64)
    (hfields : ∀ r ∈ mgr.regions, r.offset < 2 ^ 64 ∧ r.length < 2 ^ 64) :
    staleRegionDeserialize (staleRegionSerialize mgr) =
      some ⟨mgr.regions, UInt64.ofNat (lengthSum mgr.regions)⟩ := by
  have hregions : Reads (readMany readStaleRegion mgr.regions.length) (mgr.regions.flatMap fun r =>
      writeUintLe 8 r.offset ++ writeUintLe 8 r.length) (mgr.regions.map id) :=
    Reads.many fun r hr =>
      (Reads.uintLe (hfields r hr).1).bind ((Reads.uintLe (hfields r hr).2).map _)
  rw [map_id] at hregions
  have hblob : Reads (readStaleRegions (((staleRegionSerialize mgr).length - 16) / 16))
      (staleRegionSerialize mgr) mgr.regions := by
    refine (Reads.uintLe hcount).bind ((Reads.uintLe mgr.totalStaleBytes.toNat_lt).bind ?_)
    rw [if_neg (by rw [staleRegionSerialize_length, staleBlobLength]; omega)]
    exact hregions
  rw [staleRegionDeserialize, hblob.run_eq, Option.map_some]
  simp only [foldl_add_lengths, UInt64.zero_add]

/-- Regions of bytes below the largest 64-bit number are counted without overflow. -/
theorem Describes.lengthSum_lt (h : Describes mgr bytes)
    (hbelow : ∀ b ∈ bytes, b < 2 ^ 64 - 1) : lengthSum mgr.regions < 2 ^ 64 := by
  have hsub : bytes ⊆ Finset.range (2 ^ 64 - 1) := fun b hb => Finset.mem_range.mpr (hbelow b hb)
  have hcard := Finset.card_le_card hsub
  rw [Finset.card_range, ← h.bytes, h.separated.card_staleBytes] at hcard
  omega

theorem length_le_lengthSum (h : ∀ r ∈ regions, r.length ≠ 0) :
    regions.length ≤ lengthSum regions := by
  induction regions with
  | nil => exact Nat.le_refl _
  | cons r rs ih =>
    have hrest := ih fun r' hr' => h r' (mem_cons_of_mem _ hr')
    have hr := h r mem_cons_self
    rw [length_cons, lengthSum_cons]
    omega

theorem Describes.reads_back (h : Describes mgr bytes) (hbelow : ∀ b ∈ bytes, b < 2 ^ 64 - 1) :
    staleRegionDeserialize (staleRegionSerialize mgr) = some mgr := by
  have hsum := h.lengthSum_lt hbelow
  have hcount := Nat.lt_of_le_of_lt (length_le_lengthSum h.nonempty) hsum
  rw [staleRegionDeserialize_serialize hcount fun r hr => ⟨?_, ?_⟩, ← h.total]
  · have hin : r.offset ∈ bytes := by
      rw [← h.bytes, mem_staleBytes]
      exact ⟨r, hr, Nat.le_refl _, Nat.lt_add_of_pos_right (Nat.pos_of_ne_zero (h.nonempty r hr))⟩
    exact Nat.lt_of_lt_of_le (hbelow _ hin) (by decide)
  · exact Nat.lt_of_le_of_lt (le_sum_of_mem (mem_map_of_mem hr)) hsum

end

/-- The regions are sorted, disjoint and apart, they cover what was added and nothing else, the
total is the number of bytes, and all of it is read back. -/
theorem stale_regions_describe_union (calls : List StaleRegion)
    (h : ∀ call ∈ calls, call.length ≠ 0 ∧ call.offset + call.length < 2 ^ 64) :
    let mgr := StaleRegionMgr.create.addAll calls
    (mgr.regions.Pairwise fun a b => a.offset + a.length < b.offset) ∧
      (∀ r ∈ mgr.regions, r.length ≠ 0) ∧
      staleBytes mgr.regions = staleBytes calls ∧
      mgr.totalStaleBytes.toNat = (staleBytes calls).card ∧
      staleRegionDeserialize (staleRegionSerialize mgr) = some mgr := by
  intro mgr
  have hmgr : Describes mgr (staleBytes calls) := by
    simpa using Describes.create.addAll h
  have hbelow : ∀ b ∈ staleBytes calls, b < 2 ^ 64 - 1 := by
    intro b hb
    obtain ⟨call, hcall, -, hlt⟩ := mem_staleBytes.mp hb
    have := (h call hcall).2
    simp only [stop] at hlt
    omega
  refine ⟨hmgr.separated, hmgr.nonempty, hmgr.bytes, ?_, hmgr.reads_back hbelow⟩
  rw [hmgr.total, UInt64.toNat_ofNat_of_lt' (hmgr.lengthSum_lt hbelow),
    ← hmgr.separated.card_staleBytes, hmgr.bytes]

/-- The last region closes a gap. -/
theorem stale_regions_describe_union_merging :
    let calls := [⟨10, 5⟩, ⟨20, 5⟩, ⟨40, 1⟩, ⟨15, 5⟩]
    (StaleRegionMgr.create.addAll calls).regions = [⟨10, 15⟩, ⟨40, 1⟩] ∧
      (StaleRegionMgr.create.addAll calls).totalStaleBytes.toNat = (staleBytes calls).card :=
  ⟨by decide, (stale_regions_describe_union _ (by decide)).2.2.2.1⟩

end WaveDB.Storage
