import Mathlib.Order.MinMax
import WaveDB.HBTrie.TxManager

/-!
The garbage collection cutoff under concurrent begins, commits and aborts.

The argument rests on `Settled`: a value that the manager stores is an id issued
before, and not above any begin that has yet to register.
-/

namespace WaveDB.HBTrie

open WaveDB.Basis Workers List TxManager TxShard MvccState

/-! ### Shards -/

theorem shardMin_fold (rest : List TransactionId) (first : TransactionId) :
    rest.foldl (fun newMin id => if transactionIdCompare id newMin < 0 then id else newMin) first =
      rest.foldl min first := by
  congr 1
  funext newMin id
  simp only [transactionIdCompare_lt]
  split
  · next h => exact (min_eq_right h.le).symm
  · next h => exact (min_eq_left (not_lt.mp h)).symm

/-- The shard minimum is an element at or below all elements. -/
theorem shardMin_spec {txns : List TransactionId} (h : txns ≠ []) :
    shardMin txns ∈ txns ∧ ∀ id ∈ txns, shardMin txns ≤ id := by
  obtain ⟨first, rest, rfl⟩ := exists_cons_of_ne_nil h
  rw [shardMin, shardMin_fold]
  clear h
  induction rest generalizing first with
  | nil => simp
  | cons next rest ih =>
    obtain ⟨hmem, hle⟩ := ih (min first next)
    rw [foldl_cons]
    constructor
    · rcases mem_cons.mp hmem with heq | hrest
      · rw [heq]
        rcases min_choice first next with hm | hm <;> simp [hm]
      · simp [hrest]
    · intro id hid
      have hmin := hle (min first next) (by simp)
      rcases mem_cons.mp hid with rfl | hid
      · exact hmin.trans (min_le_left _ _)
      · rcases mem_cons.mp hid with rfl | hid
        · exact hmin.trans (min_le_right _ _)
        · exact hle id (by simp [hid])

/-- Swap-and-pop removes one occurrence and keeps the rest. -/
theorem swapRemove_perm {txns : List TransactionId} {txn : TransactionId} (h : txn ∈ txns) :
    (swapRemove txns txn).Perm (txns.erase txn) := by
  obtain ⟨pre, post, hpre, rfl, herase⟩ := exists_erase_eq h
  have hfound : (pre ++ txn :: post).idxOf? txn = some pre.length := by
    rw [idxOf?_eq_some_iff]
    refine ⟨by simp, by simp, fun j hj => ?_⟩
    rw [getElem_append_left hj]
    rintro rfl
    exact hpre (getElem_mem hj)
  rw [herase, swapRemove, hfound]
  rcases eq_nil_or_concat post with rfl | ⟨mid, last, rfl⟩
  · simp
  · rw [concat_eq_append]
    have hset : (pre ++ txn :: (mid ++ [last])).set pre.length last =
        (pre ++ last :: mid) ++ [last] := by simp
    have hlast : (pre ++ txn :: (mid ++ [last])).getLast? = some last := by
      simp [getLast?_append, getLast?_cons]
    simp only [hlast, hset, dropLast_concat]
    exact List.Perm.append_left pre (perm_append_singleton last mid).symm

/-! ### What the manager keeps -/

/-- An id that was issued (or the initial zero) and is not above any begin that has
yet to register. -/
def Settled (issued pending : List TransactionId) (v : TransactionId) : Prop :=
  (v = ⟨0, 0, 0⟩ ∨ v ∈ issued) ∧ ∀ p ∈ pending, v ≤ p

def TxManager.Covered (manager : TxManager) (v : TransactionId) : Prop :=
  ∀ i, ∀ id ∈ (manager.shards i).txns, v ≤ id

variable (settled : TransactionId → Prop)

/-- A shard whose minimum is right and whose values are settled. -/
structure ShardOk (shard : TxShard) : Prop where
  sentinel : shard.minTxnId = txnIdSentinel ↔ shard.txns = []
  le : ∀ id ∈ shard.txns, shard.minTxnId ≤ id
  min_settled : shard.minTxnId ≠ txnIdSentinel → settled shard.minTxnId
  settled : ∀ id ∈ shard.txns, settled id ∧ id ≠ txnIdSentinel

/-- A manager whose shards are right and whose global minimum covers them. -/
structure ManagerOk (manager : TxManager) : Prop where
  shards : ∀ i, ShardOk settled (manager.shards i)
  committed : settled manager.lastCommittedTxnId
  global : manager.minActiveTxnId ≠ txnIdSentinel →
    settled manager.minActiveTxnId ∧ manager.Covered manager.minActiveTxnId

/-- A scan whose result so far is at or below the ids of the shards it has read. -/
def ScanOk (manager : TxManager) : MinScan → Prop
  | .scanning next newGlobalMin =>
    (newGlobalMin ≠ txnIdSentinel → settled newGlobalMin) ∧
      ∀ i : Fin txManagerShards, i < next → ∀ id ∈ (manager.shards i).txns, newGlobalMin ≤ id
  | .writing value => settled value ∧ manager.Covered value

def MinScan.hasPassed (id : TransactionId) : MinScan → Bool
  | .scanning next newGlobalMin => isTxnIdSentinel newGlobalMin && decide (txnShardIndex id < next)
  | .writing _ => false

section Manager

variable {settled settled' : TransactionId → Prop} {manager : TxManager} {id : TransactionId}
  {shard : TxShard} {scan : MinScan} {x v : TransactionId} {i : Fin txManagerShards}

theorem ShardOk.mono (h : ShardOk settled shard) (hset : ∀ v, settled v → settled' v) :
    ShardOk settled' shard :=
  ⟨h.sentinel, h.le, fun hne => hset _ (h.min_settled hne),
    fun id hid => ⟨hset _ (h.settled id hid).1, (h.settled id hid).2⟩⟩

theorem ManagerOk.mono (h : ManagerOk settled manager) (hset : ∀ v, settled v → settled' v) :
    ManagerOk settled' manager :=
  ⟨fun i => (h.shards i).mono hset, hset _ h.committed,
    fun hne => ⟨hset _ (h.global hne).1, (h.global hne).2⟩⟩

theorem ScanOk.mono (h : ScanOk settled manager scan) (hset : ∀ v, settled v → settled' v) :
    ScanOk settled' manager scan := by
  cases scan with
  | scanning next newGlobalMin => exact ⟨fun hne => hset _ (h.1 hne), h.2⟩
  | writing value => exact ⟨hset _ h.1, h.2⟩

theorem ManagerOk.create (hzero : settled ⟨0, 0, 0⟩) : ManagerOk settled txManagerCreate where
  shards i := ⟨⟨fun _ => rfl, fun _ => rfl⟩, by simp [txManagerCreate],
    fun hne => absurd rfl hne, by simp [txManagerCreate]⟩
  committed := hzero
  global hne := absurd rfl hne

/-! ### Registering -/

theorem TxShard.mem_register : x ∈ (shard.register id).txns ↔ x ∈ shard.txns ∨ x = id := by
  simp [register]

/-- The minimum after a begin that is not below any settled value. -/
theorem ShardOk.register_min (h : ShardOk settled shard)
    (hset : ∀ v, settled v → settled' v ∧ v ≤ id) (hid : settled' id) (hne : id ≠ txnIdSentinel) :
    (shard.register id).minTxnId ≠ txnIdSentinel ∧ settled' (shard.register id).minTxnId ∧
      ∀ x ∈ (shard.register id).txns, (shard.register id).minTxnId ≤ x := by
  have hmin : (shard.register id).minTxnId =
      if shard.minTxnId = txnIdSentinel then id else shard.minTxnId := by
    simp only [register, isTxnIdSentinel_iff]
  simp only [mem_register]
  by_cases hempty : shard.minTxnId = txnIdSentinel
  · rw [hmin, if_pos hempty]
    refine ⟨hne, hid, ?_⟩
    rintro x (hx | rfl)
    · simp [h.sentinel.mp hempty] at hx
    · exact le_rfl
  · rw [hmin, if_neg hempty]
    obtain ⟨hold, hle⟩ := hset _ (h.min_settled hempty)
    refine ⟨hempty, hold, ?_⟩
    rintro x (hx | rfl)
    · exact h.le x hx
    · exact hle

theorem ShardOk.register (h : ShardOk settled shard) (hset : ∀ v, settled v → settled' v ∧ v ≤ id)
    (hid : settled' id) (hne : id ≠ txnIdSentinel) : ShardOk settled' (shard.register id) := by
  obtain ⟨hmin, hsettled, hle⟩ := h.register_min hset hid hne
  refine ⟨⟨fun heq => absurd heq hmin, fun hnil => ?_⟩, hle, fun _ => hsettled, fun x hx => ?_⟩
  · simp [TxShard.register] at hnil
  · rcases mem_register.mp hx with hx | rfl
    · exact ⟨(hset _ (h.settled x hx).1).1, (h.settled x hx).2⟩
    · exact ⟨hid, hne⟩

theorem mem_txManagerBegin : x ∈ ((txManagerBegin manager id).shards i).txns ↔
      x ∈ (manager.shards i).txns ∨ i = txnShard id ∧ x = id := by
  by_cases hi : i = txnShard id
  · subst hi
    simp [txManagerBegin, onShard, mem_register]
  · simp [txManagerBegin, onShard, hi]

/-- A value below the new id that covered the manager covers it afterwards. -/
theorem TxManager.Covered.begin (h : manager.Covered v) (hle : v ≤ id) :
    (txManagerBegin manager id).Covered v := by
  intro i x hx
  rcases mem_txManagerBegin.mp hx with hx | ⟨-, rfl⟩
  · exact h i x hx
  · exact hle

theorem ManagerOk.begin (h : ManagerOk settled manager)
    (hset : ∀ v, settled v → settled' v ∧ v ≤ id) (hid : settled' id)
    (hne : id ≠ txnIdSentinel) : ManagerOk settled' (txManagerBegin manager id) where
  shards := by
    apply (Function.forall_update_iff manager.shards fun _ => ShardOk settled').mpr
    exact ⟨(h.shards _).register hset hid hne,
      fun i _ => (h.shards i).mono fun v hv => (hset v hv).1⟩
  committed := (hset _ h.committed).1
  global hg := by
    obtain ⟨hsettled, hcovered⟩ := h.global hg
    exact ⟨(hset _ hsettled).1, hcovered.begin (hset _ hsettled).2⟩

/-- A scan survives a begin unless it has passed that shard empty handed. -/
theorem ScanOk.begin (h : ScanOk settled manager scan) (hset : ∀ v, settled v → settled' v ∧ v ≤ id)
    (hpassed : scan.hasPassed id = false) : ScanOk settled' (txManagerBegin manager id) scan := by
  cases scan with
  | writing value => exact ⟨(hset _ h.1).1, h.2.begin (hset _ h.1).2⟩
  | scanning next newGlobalMin =>
    refine ⟨fun hne => (hset _ (h.1 hne)).1, fun i hi x hx => ?_⟩
    rcases mem_txManagerBegin.mp hx with hx | ⟨rfl, rfl⟩
    · exact h.2 i hi x hx
    · by_cases hs : newGlobalMin = txnIdSentinel
      · simp [MinScan.hasPassed, (isTxnIdSentinel_iff _).mpr hs] at hpassed
        exact absurd hi (not_lt.mpr hpassed)
      · exact (hset _ (h.1 hs)).2

/-! ### Leaving -/

theorem TxShard.mem_of_mem_remove (hid : id ∈ shard.txns) (hx : x ∈ (shard.remove id).txns) :
    x ∈ shard.txns :=
  mem_of_mem_erase ((swapRemove_perm hid).mem_iff.mp hx)

theorem ShardOk.remove (h : ShardOk settled shard) (hid : id ∈ shard.txns) :
    ShardOk settled (shard.remove id) := by
  have hsub := fun x => mem_of_mem_remove (x := x) hid
  have hsettled := fun x hx => h.settled x (hsub x hx)
  by_cases hnil : (shard.remove id).txns = []
  · have hmin : (shard.remove id).minTxnId = txnIdSentinel := by
      change swapRemove shard.txns id = [] at hnil
      simp [TxShard.remove, hnil, shardMin]
    exact ⟨by simp [hmin, hnil], by simp [hnil], fun hne => absurd hmin hne, hsettled⟩
  · obtain ⟨hmem, hle⟩ := shardMin_spec hnil
    -- the minimum is recomputed, or the old one still bounds what is left
    have hmin : (shard.remove id).minTxnId = shardMin (shard.remove id).txns ∨
        (shard.remove id).minTxnId = shard.minTxnId := by
      simp only [TxShard.remove]
      split
      · exact .inl rfl
      · exact .inr rfl
    rcases hmin with hmin | hmin
    · refine ⟨?_, fun x hx => hmin ▸ hle x hx, fun _ => hmin ▸ (hsettled _ hmem).1, hsettled⟩
      exact ⟨fun heq => absurd (hmin ▸ heq) (hsettled _ hmem).2, fun h' => absurd h' hnil⟩
    · refine ⟨?_, fun x hx => hmin ▸ h.le x (hsub x hx), fun hne => ?_, hsettled⟩
      · rw [hmin, h.sentinel]
        exact ⟨fun h' => absurd hid (by simp [h']), fun h' => absurd h' hnil⟩
      · rw [hmin] at hne ⊢
        exact h.min_settled hne

theorem mem_of_mem_txManagerAbort (hid : id ∈ (manager.shards (txnShard id)).txns)
    (hx : x ∈ ((txManagerAbort manager id).shards i).txns) : x ∈ (manager.shards i).txns := by
  by_cases hi : i = txnShard id
  · subst hi
    simp only [txManagerAbort, onShard, Function.update_self] at hx
    exact mem_of_mem_remove hid hx
  · simpa [txManagerAbort, onShard, hi] using hx

theorem ManagerOk.abort (h : ManagerOk settled manager)
    (hid : id ∈ (manager.shards (txnShard id)).txns) :
    ManagerOk settled (txManagerAbort manager id) where
  shards := by
    apply (Function.forall_update_iff manager.shards fun _ => ShardOk settled).mpr
    exact ⟨(h.shards _).remove hid, fun i _ => h.shards i⟩
  committed := h.committed
  global hg :=
    ⟨(h.global hg).1, fun i x hx => (h.global hg).2 i x (mem_of_mem_txManagerAbort hid hx)⟩

theorem ScanOk.abort (h : ScanOk settled manager scan)
    (hid : id ∈ (manager.shards (txnShard id)).txns) :
    ScanOk settled (txManagerAbort manager id) scan := by
  cases scan with
  | scanning next newGlobalMin =>
    exact ⟨h.1, fun i hi x hx => h.2 i hi x (mem_of_mem_txManagerAbort hid hx)⟩
  | writing value => exact ⟨h.1, fun i x hx => h.2 i x (mem_of_mem_txManagerAbort hid hx)⟩

@[simp]
theorem raiseLastCommitted_shards : (manager.raiseLastCommitted id).shards = manager.shards := by
  unfold raiseLastCommitted
  split <;> rfl

theorem ManagerOk.raiseLastCommitted (h : ManagerOk settled manager) (hid : settled id) :
    ManagerOk settled (manager.raiseLastCommitted id) := by
  unfold TxManager.raiseLastCommitted
  split
  · exact ⟨h.shards, hid, h.global⟩
  · exact h

theorem ScanOk.of_shards {manager' : TxManager} (h : ScanOk settled manager scan)
    (heq : manager'.shards = manager.shards) : ScanOk settled manager' scan := by
  cases scan with
  | scanning next newGlobalMin => exact ⟨h.1, by rw [heq]; exact h.2⟩
  | writing value => exact ⟨h.1, by rw [TxManager.Covered, heq]; exact h.2⟩

/-! ### Scanning -/

theorem mergeShardMin_eq (newGlobalMin shardMin : TransactionId) :
    mergeShardMin newGlobalMin shardMin = min newGlobalMin shardMin := by
  simp only [mergeShardMin, Bool.not_eq_true', Bool.or_eq_true, isTxnIdSentinel_iff,
    decide_eq_true_eq, transactionIdCompare_lt, ← Bool.not_eq_true]
  split_ifs with hs hg
  · rw [hs]
    exact (min_eq_left (le_txnIdSentinel _)).symm
  · rcases hg with rfl | hlt
    · exact (min_eq_right (le_txnIdSentinel _)).symm
    · exact (min_eq_right hlt.le).symm
  · exact (min_eq_left (not_lt.mp fun hlt => hg (.inr hlt))).symm

theorem mergeShardMin_settled {a b : TransactionId} (ha : a ≠ txnIdSentinel → settled a)
    (hb : b ≠ txnIdSentinel → settled b) (hne : mergeShardMin a b ≠ txnIdSentinel) :
    settled (mergeShardMin a b) := by
  rw [mergeShardMin_eq] at hne ⊢
  rcases min_choice a b with h | h <;> rw [h] at hne ⊢
  · exact ha hne
  · exact hb hne

/-- The value at the end of a scan that has read every shard. -/
theorem ManagerOk.globalMinOf (h : ManagerOk settled manager) (hv : v ≠ txnIdSentinel → settled v)
    (hcovered : manager.Covered v) :
    settled (manager.globalMinOf v) ∧ manager.Covered (manager.globalMinOf v) := by
  simp only [TxManager.globalMinOf, isTxnIdSentinel_iff]
  split
  · rename_i hs
    -- the sentinel covers no id but itself, so no shard has a transaction
    refine ⟨h.committed, fun i x hx => ?_⟩
    have hx' := le_antisymm (le_txnIdSentinel x) (hs ▸ hcovered i x hx)
    exact absurd hx' ((h.shards i).settled x hx).2
  · next hs => exact ⟨hv hs, hcovered⟩

theorem ScanOk.advance {next : Nat} {newGlobalMin : TransactionId}
    (hscan : ScanOk settled manager (.scanning next newGlobalMin)) (h : ManagerOk settled manager) :
    ScanOk settled manager (.advance manager next newGlobalMin) := by
  obtain ⟨hsettled, hread⟩ := hscan
  unfold MinScan.advance
  split
  · rename_i hlt
    refine ⟨mergeShardMin_settled hsettled (h.shards ⟨next, hlt⟩).min_settled, ?_⟩
    intro i hi x hx
    rw [mergeShardMin_eq]
    rcases Nat.lt_succ_iff_lt_or_eq.mp hi with hi | hi
    · exact (min_le_left _ _).trans (hread i hi x hx)
    · obtain rfl : i = ⟨next, hlt⟩ := Fin.ext hi
      exact (min_le_right _ _).trans ((h.shards _).le x hx)
  · rename_i hge
    exact h.globalMinOf hsettled fun i x hx => hread i (i.isLt.trans_le (not_lt.mp hge)) x hx

/-- The uninterrupted loop of `recompute_global_min`. -/
theorem ManagerOk.foldl_mergeShardMin (h : ManagerOk settled manager)
    (is : List (Fin txManagerShards)) {r : TransactionId} (hv : v ≠ txnIdSentinel → settled v)
    (hr : is.foldl (fun m i => mergeShardMin m (manager.shards i).minTxnId) v = r) :
    (r ≠ txnIdSentinel → settled r) ∧ r ≤ v ∧ ∀ i ∈ is, r ≤ (manager.shards i).minTxnId := by
  induction is generalizing v with
  | nil =>
    obtain rfl : v = r := hr
    exact ⟨hv, le_rfl, by simp⟩
  | cons i is ih =>
    obtain ⟨hs, hle, hall⟩ := ih (mergeShardMin_settled hv (h.shards i).min_settled) hr
    rw [mergeShardMin_eq] at hle
    refine ⟨hs, hle.trans (min_le_left _ _), fun j hj => ?_⟩
    rcases mem_cons.mp hj with rfl | hj
    · exact hle.trans (min_le_right _ _)
    · exact hall j hj

theorem ManagerOk.getMinActive (h : ManagerOk settled manager) :
    settled (txManagerGetMinActive manager) ∧ manager.Covered (txManagerGetMinActive manager) := by
  unfold txManagerGetMinActive
  split
  · obtain ⟨hs, -, hall⟩ := h.foldl_mergeShardMin (finRange _) (fun hne => absurd rfl hne) rfl
    exact h.globalMinOf hs fun i x hx => (hall i (mem_finRange i)).trans ((h.shards i).le x hx)
  · next hne => exact h.global fun heq => hne ((isTxnIdSentinel_iff _).mpr heq)

end Manager

/-! ### Runs -/

/-- The cutoff is not above any live transaction, and no shard minimum is above an id
of its shard. -/
def CutoffSafe (s : MvccState) : Prop :=
  (∀ id ∈ s.live, txManagerGetMinActive s.manager ≤ id) ∧
    ∀ i, (s.manager.shards i).minTxnId ≠ txnIdSentinel →
      ∀ id ∈ (s.manager.shards i).txns, (s.manager.shards i).minTxnId ≤ id

/-- Ids are issued in increasing order, begins register in the order of their ids, and
a begin finds no scan that has passed its shard empty handed. -/
def registersInOrder (s : MvccState) : MvccAction → Bool
  | .takeId clock => s.issued.all fun v => decide (v < (transactionIdGetNext s.generator clock).1)
  | .register id =>
    (s.pending.all fun p => decide (id ≤ p)) && s.scans.all fun scan => !scan.hasPassed id
  | _ => true

structure CutoffInv (s : MvccState) : Prop where
  issued_ne : ∀ id ∈ s.issued, id ≠ txnIdSentinel
  pending_issued : ∀ id ∈ s.pending, id ∈ s.issued
  live_issued : ∀ id ∈ s.live, id ∈ s.issued
  live_nodup : s.live.Nodup
  located : ∀ id ∈ s.live, id ∈ s.pending ∨ id ∈ (s.manager.shards (txnShard id)).txns
  manager : ManagerOk (Settled s.issued s.pending) s.manager
  scans : ∀ scan ∈ s.scans, ScanOk (Settled s.issued s.pending) s.manager scan

theorem CutoffInv.initial (generator : IdGenerator) : CutoffInv (.initial generator) where
  issued_ne := by simp [MvccState.initial]
  pending_issued := by simp [MvccState.initial]
  live_issued := by simp [MvccState.initial]
  live_nodup := nodup_nil
  located := by simp [MvccState.initial]
  manager := ManagerOk.create ⟨.inl rfl, by simp [MvccState.initial]⟩
  scans := by simp [MvccState.initial]

/-- A new id above all issued ones leaves settled values settled. -/
theorem Settled.takeId {issued pending : List TransactionId} {v id : TransactionId}
    (h : Settled issued pending v) (hid : ∀ a ∈ issued, a < id) :
    Settled (issued ++ [id]) (pending ++ [id]) v := by
  obtain ⟨horigin, hle⟩ := h
  constructor
  · exact horigin.imp_right fun hv => mem_append_left _ hv
  · intro p hp
    rcases mem_append.mp hp with hp | hp
    · exact hle p hp
    · obtain rfl := mem_singleton.mp hp
      rcases horigin with rfl | hv
      · exact zero_le_txnId p
      · exact (hid v hv).le

section Steps

variable {s s' : MvccState} {id : TransactionId} {manager : TxManager}

theorem CutoffInv.takeId {clock : ClockReading} (h : CutoffInv s)
    (hallowed : registersInOrder s (.takeId clock))
    (hs : mvccStep s (.takeId clock) = some s') : CutoffInv s' := by
  simp only [registersInOrder, all_eq_true, decide_eq_true_eq] at hallowed
  have hne := transactionIdGetNext_ne_sentinel s.generator clock
  simp only [mvccStep, Option.some.injEq] at hs
  subst hs
  generalize (transactionIdGetNext s.generator clock).1 = id at hallowed hne ⊢
  have hset := fun v (hv : Settled s.issued s.pending v) => hv.takeId hallowed
  constructor
  · simp only [mem_append, mem_singleton]
    rintro v (hv | rfl)
    · exact h.issued_ne v hv
    · exact hne
  · simp only [mem_append]
    exact fun v hv => hv.imp_left (h.pending_issued v)
  · simp only [mem_append]
    exact fun v hv => hv.imp_left (h.live_issued v)
  · refine nodup_append.mpr ⟨h.live_nodup, nodup_singleton _, ?_⟩
    simp only [mem_singleton]
    rintro v hv _ rfl rfl
    exact absurd (hallowed v (h.live_issued v hv)) (lt_irrefl v)
  · simp only [mem_append, mem_singleton]
    rintro v (hv | rfl)
    · exact (h.located v hv).imp_left .inl
    · exact .inl (.inr rfl)
  · exact h.manager.mono hset
  · exact fun scan hscan => (h.scans scan hscan).mono hset

theorem CutoffInv.register (h : CutoffInv s) (hallowed : registersInOrder s (.register id))
    (hs : mvccStep s (.register id) = some s') : CutoffInv s' := by
  simp only [registersInOrder, Bool.and_eq_true, all_eq_true, decide_eq_true_eq,
    Bool.not_eq_true'] at hallowed
  obtain ⟨hfirst, hscans⟩ := hallowed
  simp only [mvccStep, Option.ite_none_right_eq_some, Option.some.injEq] at hs
  obtain ⟨hid, rfl⟩ := hs
  -- what was settled is at or below `id`, which was pending
  have hset : ∀ v, Settled s.issued s.pending v →
      Settled s.issued (s.pending.erase id) v ∧ v ≤ id := fun v hv =>
    ⟨⟨hv.1, fun p hp => hv.2 p (mem_of_mem_erase hp)⟩, hv.2 id hid⟩
  have hidSettled : Settled s.issued (s.pending.erase id) id :=
    ⟨.inr (h.pending_issued id hid), fun p hp => hfirst p (mem_of_mem_erase hp)⟩
  constructor
  · exact h.issued_ne
  · exact fun v hv => h.pending_issued v (mem_of_mem_erase hv)
  · exact h.live_issued
  · exact h.live_nodup
  · intro v hv
    by_cases heq : v = id
    · subst heq
      exact .inr (mem_txManagerBegin.mpr (.inr ⟨rfl, rfl⟩))
    · exact (h.located v hv).imp (fun hp => (mem_erase_of_ne heq).mpr hp)
        fun hr => mem_txManagerBegin.mpr (.inl hr)
  · exact h.manager.begin hset hidSettled (h.issued_ne id (h.pending_issued id hid))
  · exact fun scan hscan => (h.scans scan hscan).begin hset (hscans scan hscan)

/-- The other transactions stay registered when one leaves. -/
theorem mem_txManagerAbort_of_ne {x : TransactionId}
    (hid : id ∈ (manager.shards (txnShard id)).txns) (hne : x ≠ id)
    (hx : x ∈ (manager.shards (txnShard x)).txns) :
    x ∈ ((txManagerAbort manager id).shards (txnShard x)).txns := by
  by_cases hi : txnShard x = txnShard id
  · rw [hi] at hx ⊢
    simp only [txManagerAbort, onShard, Function.update_self]
    exact (swapRemove_perm hid).mem_iff.mpr ((mem_erase_of_ne hne).mpr hx)
  · simpa [txManagerAbort, onShard, hi] using hx

variable (h : CutoffInv s)

include h

/-- A commit or an abort: the manager may first have changed outside its shards. -/
theorem CutoffInv.leave (hmanager : ManagerOk (Settled s.issued s.pending) manager)
    (hshards : manager.shards = s.manager.shards)
    (hid : id ∈ (s.manager.shards (txnShard id)).txns) :
    CutoffInv { s with
      live := s.live.erase id
      manager := txManagerAbort manager id
      ending := s.ending ++ [id] } := by
  rw [← hshards] at hid
  refine ⟨h.issued_ne, h.pending_issued, fun v hv => h.live_issued v (mem_of_mem_erase hv),
    h.live_nodup.erase id, fun v hv => ?_, hmanager.abort hid, fun scan hscan => ?_⟩
  · obtain ⟨hne, hv⟩ := (h.live_nodup.mem_erase_iff).mp hv
    exact (h.located v hv).imp_right fun hr => mem_txManagerAbort_of_ne hid hne (hshards ▸ hr)
  · exact ((h.scans scan hscan).of_shards hshards).abort hid

theorem CutoffInv.scan {index : Nat} (hs : s.stepScan index = some s') : CutoffInv s' := by
  unfold stepScan at hs
  split at hs
  · cases hs
  · rename_i next newGlobalMin hscan
    cases hs
    have hok := h.scans _ (mem_of_getElem? hscan)
    refine { h with scans := fun scan hmem => ?_ }
    rcases mem_or_eq_of_mem_set hmem with hmem | rfl
    · exact h.scans scan hmem
    · exact hok.advance h.manager
  · rename_i value hscan
    cases hs
    have hok := h.scans _ (mem_of_getElem? hscan)
    refine { h with
             manager := ⟨h.manager.shards, h.manager.committed, fun _ => hok⟩,
             scans := fun scan hmem => ?_ }
    exact (h.scans scan (mem_of_mem_eraseIdx hmem)).of_shards rfl

theorem CutoffInv.startScan {ending : List TransactionId} (start : Bool) :
    CutoffInv { s with ending, scans := if start then s.scans ++ [.start] else s.scans } := by
  refine { h with scans := fun scan hmem => ?_ }
  cases start with
  | false => exact h.scans scan hmem
  | true =>
    rcases mem_append.mp hmem with hmem | hmem
    · exact h.scans scan hmem
    · obtain rfl := mem_singleton.mp hmem
      exact ⟨fun hne => absurd rfl hne, fun i hi => absurd hi (Nat.not_lt_zero _)⟩

theorem CutoffInv.step {a : MvccAction} (hallowed : registersInOrder s a)
    (hs : mvccStep s a = some s') : CutoffInv s' := by
  cases a with
  | takeId clock => exact h.takeId hallowed hs
  | register id => exact h.register hallowed hs
  | commit id =>
    simp only [mvccStep, isActive, contains_iff_mem,
      Option.ite_none_right_eq_some, Option.some.injEq] at hs
    obtain ⟨hid, rfl⟩ := hs
    have hsettled := ((h.manager.shards _).settled id hid).1
    exact h.leave (h.manager.raiseLastCommitted hsettled) raiseLastCommitted_shards hid
  | abort id =>
    simp only [mvccStep, isActive, contains_iff_mem,
      Option.ite_none_right_eq_some, Option.some.injEq] at hs
    obtain ⟨hid, rfl⟩ := hs
    exact h.leave h.manager rfl hid
  | checkGlobalMin id =>
    simp only [mvccStep, Option.ite_none_right_eq_some, Option.some.injEq] at hs
    obtain ⟨-, rfl⟩ := hs
    exact h.startScan _
  | getMinActive =>
    simp only [mvccStep, Option.some.injEq] at hs
    obtain rfl := hs
    exact h.startScan _
  | scan index => exact h.scan hs

end Steps

/-- The cutoff is safe in every state of a run that registers in order. -/
theorem getMinActive_le_live (generator : IdGenerator) (s : MvccState)
    (h : Reaches mvccStep registersInOrder (.initial generator) s) : CutoffSafe s := by
  have hinv : CutoffInv s := h.invariant CutoffInv (.initial generator) fun _ _ _ hi => hi.step
  obtain ⟨hsettled, hcovered⟩ := hinv.manager.getMinActive
  refine ⟨fun id hid => ?_, fun i _ => (hinv.manager.shards i).le⟩
  rcases hinv.located id hid with hp | hr
  · exact hsettled.2 id hp
  · exact hcovered _ id hr

def stoppedClock : ClockReading := ⟨0, 0, by decide⟩

def firstId : IdGenerator := ⟨0, 1⟩

def overlapRun : List MvccAction :=
  [.takeId stoppedClock, .takeId stoppedClock, .register ⟨0, 0, 1⟩, .register ⟨0, 0, 2⟩,
    .commit ⟨0, 0, 1⟩, .checkGlobalMin ⟨0, 0, 1⟩] ++ List.replicate 66 (.scan 0)

/-- Two transactions overlap, and the first one commits. -/
theorem getMinActive_le_live_overlap :
    ∃ s, s.live = [⟨0, 0, 2⟩] ∧ s.manager.minActiveTxnId = ⟨0, 0, 2⟩ ∧ CutoffSafe s := by
  obtain ⟨s, hs, hlive, hmin⟩ : ∃ s, Reaches mvccStep registersInOrder (.initial firstId) s ∧
      s.live = [⟨0, 0, 2⟩] ∧ s.manager.minActiveTxnId = ⟨0, 0, 2⟩ :=
    exists_reaches overlapRun (by decide +kernel)
  exact ⟨s, hlive, hmin, getMinActive_le_live firstId s hs⟩

/-- With every interleaving admitted, the cutoff passes a begin between its two steps
(2 registers and commits while 1 is pending), and a shard minimum passes an id of its
shard (65 registers before 1). -/
theorem getMinActive_exceeds_live : (∃ s, Reaches mvccStep always (.initial firstId) s ∧
      ∃ id ∈ s.live, id < txManagerGetMinActive s.manager) ∧
    ∃ s, Reaches mvccStep always (.initial firstId) s ∧
      ∃ i, ∃ id ∈ (s.manager.shards i).txns, (s.manager.shards i).minTxnId ≠ txnIdSentinel ∧
        id < (s.manager.shards i).minTxnId := by
  constructor
  · exact exists_reaches [.takeId stoppedClock, .takeId stoppedClock, .register ⟨0, 0, 2⟩,
      .commit ⟨0, 0, 2⟩] (by decide +kernel)
  · obtain ⟨s, hs, hp⟩ : ∃ s, Reaches mvccStep always (.initial firstId) s ∧
        ∃ id ∈ (s.manager.shards (txnShard ⟨0, 0, 1⟩)).txns,
          (s.manager.shards (txnShard ⟨0, 0, 1⟩)).minTxnId ≠ txnIdSentinel ∧
            id < (s.manager.shards (txnShard ⟨0, 0, 1⟩)).minTxnId :=
      exists_reaches (replicate 65 (.takeId stoppedClock) ++
        [.register ⟨0, 0, 65⟩, .register ⟨0, 0, 1⟩]) (by decide +kernel)
    exact ⟨s, hs, txnShard ⟨0, 0, 1⟩, hp⟩

end WaveDB.HBTrie
