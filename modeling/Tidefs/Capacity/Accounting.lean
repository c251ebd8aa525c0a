/-
# Space accounting

The committed counters of a dataset, the admission check made of them and the free space
reported by `statfs`. A quota of zero is no quota; without pool counters the capacity is
unbounded. The reported bytes are those the check still admits (`admits_of_le_avail`),
although slop is subtracted twice and bytes are rounded down to blocks.

The quota hierarchy bounds a dataset by the limits of all its ancestors. It is a forest:
a dataset has one parent at most and is not its own ancestor, so the walk up ends.
-/
import Tidefs.Lib.Word

namespace Tidefs.Capacity

open Word Option

/-! ### Counters and admission -/

structure DatasetSpaceCounters where
  logicalUsedBytes : ℕ
  reservedBytes : ℕ
  orphanBytes : ℕ
  quotaBytes : ℕ
  slopBytes : ℕ

def DatasetSpaceCounters.totalConsumedBytes (c : DatasetSpaceCounters) : ℕ :=
  satAdd (satAdd c.logicalUsedBytes c.reservedBytes) c.orphanBytes

/-- The counters of the pool; free bytes have 64 bits. -/
structure PoolPhysicalCounters where
  physFreeBytes : ℕ
  physFree_le : physFreeBytes ≤ u64Max

/-- The answer to a request for space. -/
inductive AdmissionResult where
  | allowed
  | quotaExceeded (quotaBytes currentAllocBytes neededBytes : ℕ)
  | physicalCapacityExceeded (physAvailBytes neededBytes : ℕ)
deriving DecidableEq

def admissionCheck (counters : DatasetSpaceCounters) (physCapacityBytes neededBytes : ℕ) : AdmissionResult :=
  let currentConsumed := counters.totalConsumedBytes
  let projected := satAdd currentConsumed neededBytes
  if 0 < counters.quotaBytes ∧ counters.quotaBytes - counters.slopBytes < projected then
    .quotaExceeded counters.quotaBytes currentConsumed neededBytes
  else if physCapacityBytes < projected then
    .physicalCapacityExceeded (physCapacityBytes - currentConsumed) neededBytes
  else .allowed

/-- The counters of a dataset and of its pool. -/
structure SpaceAccounting where
  counters : DatasetSpaceCounters
  pool : Option PoolPhysicalCounters

namespace SpaceAccounting

def physCapacityBytes (a : SpaceAccounting) : ℕ := a.pool.elim u64Max PoolPhysicalCounters.physFreeBytes

def admissionCheck (a : SpaceAccounting) (neededBytes : ℕ) : AdmissionResult :=
  Capacity.admissionCheck a.counters a.physCapacityBytes neededBytes

/-- What the committed bytes may not exceed. -/
def ceiling (a : SpaceAccounting) : ℕ :=
  if 0 < a.counters.quotaBytes then min (a.counters.quotaBytes - a.counters.slopBytes) a.physCapacityBytes
  else a.physCapacityBytes

end SpaceAccounting

/-- The check admits what fits below the ceiling. -/
theorem admissionCheck_allowed {a : SpaceAccounting} {n : ℕ} :
    a.admissionCheck n = .allowed ↔ satAdd a.counters.totalConsumedBytes n ≤ a.ceiling := by
  rw [SpaceAccounting.admissionCheck, admissionCheck, SpaceAccounting.ceiling]
  split_ifs with h1 h2 h3 h4
  · simp only [false_iff]
    omega
  · exact absurd h1.1 h2
  · simp only [false_iff]
    omega
  · simp only [false_iff]
    omega
  · simp only [true_iff]
    omega
  · simp only [true_iff]
    omega

/-! ### Free space -/

structure StatfsResult where
  blockSize : ℕ
  blocks : ℕ
  blocksFree : ℕ
  blocksAvail : ℕ
  files : ℕ
  filesFree : ℕ
  nameMax : ℕ

def defaultBlockSize : ℕ := 4096

/-- `statfs_from_counters_with_capacity`. -/
def statfsFrom (counters : DatasetSpaceCounters) (capacity poolPhysCapacity : ℕ) : StatfsResult :=
  let consumed := counters.totalConsumedBytes
  let freeBytes := capacity - consumed
  let availBytes := min (freeBytes - counters.slopBytes) (poolPhysCapacity - consumed)
  { blockSize := defaultBlockSize
    blocks := capacity / defaultBlockSize
    blocksFree := freeBytes / defaultBlockSize
    blocksAvail := availBytes / defaultBlockSize
    files := u64Max
    filesFree := u64Max
    nameMax := 255 }

def SpaceAccounting.statfs (a : SpaceAccounting) : StatfsResult :=
  statfsFrom a.counters
    (if 0 < a.counters.quotaBytes then a.counters.quotaBytes - a.counters.slopBytes else a.physCapacityBytes)
    a.physCapacityBytes

/-- Blocks are rounded down, and slop only takes away. -/
theorem blocksAvail_le (counters : DatasetSpaceCounters) (capacity pool : ℕ) :
    (statfsFrom counters capacity pool).blocksAvail * (statfsFrom counters capacity pool).blockSize ≤
        capacity - counters.totalConsumedBytes ∧
      (statfsFrom counters capacity pool).blocksAvail * (statfsFrom counters capacity pool).blockSize ≤
        pool - counters.totalConsumedBytes := by
  have hround : (statfsFrom counters capacity pool).blocksAvail * (statfsFrom counters capacity pool).blockSize ≤
      min (capacity - counters.totalConsumedBytes - counters.slopBytes) (pool - counters.totalConsumedBytes) :=
    Nat.div_mul_le_self _ _
  omega

/-- **Bytes on offer are admitted.** -/
theorem admits_of_le_avail {a : SpaceAccounting} {n : ℕ} (hpos : 0 < n)
    (hn : n ≤ a.statfs.blocksAvail * a.statfs.blockSize) : a.admissionCheck n = .allowed := by
  have hsat : satAdd a.counters.totalConsumedBytes n ≤ a.counters.totalConsumedBytes + n := min_le_left _ _
  rw [admissionCheck_allowed, SpaceAccounting.ceiling]
  unfold SpaceAccounting.statfs at hn
  obtain ⟨h1, h2⟩ := blocksAvail_le a.counters
    (if 0 < a.counters.quotaBytes then a.counters.quotaBytes - a.counters.slopBytes else a.physCapacityBytes)
    a.physCapacityBytes
  split_ifs at h1 h2 hn ⊢ <;> omega

/-! ### The quota hierarchy -/

abbrev DatasetId := Vector UInt8 16

/-- The parents of datasets, without a cycle. -/
structure Forest where
  parentOf : DatasetId → Option DatasetId
  acyclic : WellFounded fun parent child => parentOf child = some parent

theorem acyclic_of_no_parents : WellFounded fun parent _ : DatasetId => (none : Option DatasetId) = some parent :=
  ⟨fun x => ⟨x, fun _ h => by cases h⟩⟩

/-- The walk from a dataset to its root. -/
def Forest.chain (F : Forest) (id : DatasetId) : List DatasetId :=
  match _h : F.parentOf id with
  | none => [id]
  | some parent => id :: F.chain parent
termination_by F.acyclic.wrap id
decreasing_by exact _h

structure DatasetQuotaConfig where
  hardLimitBytes : ℕ
  softLimitBytes : ℕ
  hardLimitInodes : ℕ
  softLimitInodes : ℕ
  reservationBytes : ℕ

structure DatasetQuotaEntry where
  config : DatasetQuotaConfig
  bytesUsed : ℕ
  inodesUsed : ℕ

/-- The answer of a dataset's quotas, with the limit that is exceeded. -/
inductive DatasetQuotaDecision where
  | allowed
  | hardBytesExceeded (datasetId : DatasetId) (limitBytes currentBytes requestedBytes : ℕ)
  | hardInodesExceeded (datasetId : DatasetId) (limitInodes currentInodes : ℕ)
  | reservationViolation (datasetId : DatasetId) (reservedBytes freeBytes : ℕ)
deriving DecidableEq

/-- The datasets that have quotas. -/
structure DatasetQuotaHierarchy where
  entries : List (DatasetId × DatasetQuotaEntry)

def checkedAdd (a b : ℕ) : Option ℕ := if a + b ≤ u64Max then some (a + b) else none

namespace DatasetQuotaHierarchy

variable (q : DatasetQuotaHierarchy)

def get? (id : DatasetId) : Option DatasetQuotaEntry := (q.entries.find? fun e => e.1 = id).map Prod.snd

def totalReservedBytesChecked : Option ℕ := q.entries.foldlM (fun sum e => checkedAdd sum e.2.config.reservationBytes) 0

def reservationPressureBytes (requestedBytes : ℕ) : Option ℕ :=
  q.totalReservedBytesChecked.bind fun reserved => checkedAdd reserved requestedBytes

def reservationAvailableBytes (poolFreeBytes : ℕ) : ℕ :=
  q.totalReservedBytesChecked.elim 0 fun reservedBytes => poolFreeBytes - reservedBytes

def reservationPressureViolation (datasetId : DatasetId) (requestedBytes poolFreeBytes : ℕ) :
    Option DatasetQuotaDecision :=
  match q.reservationPressureBytes requestedBytes with
  | none => some (.reservationViolation datasetId u64Max poolFreeBytes)
  | some requiredBytes =>
    if poolFreeBytes < requiredBytes then some (.reservationViolation datasetId requiredBytes poolFreeBytes) else none

/-- One turn of the walk of `check_delta`. -/
def checkEntry (deltaBytes deltaInodes : ℕ) (id : DatasetId) : Option DatasetQuotaDecision :=
  (q.get? id).bind fun entry =>
    if 0 < entry.config.hardLimitBytes ∧ entry.config.hardLimitBytes < satAdd entry.bytesUsed deltaBytes then
      some (.hardBytesExceeded id entry.config.hardLimitBytes entry.bytesUsed deltaBytes)
    else if (0 < entry.config.hardLimitInodes ∧ 0 < deltaInodes) ∧
        entry.config.hardLimitInodes < satAdd entry.inodesUsed deltaInodes then
      some (.hardInodesExceeded id entry.config.hardLimitInodes entry.inodesUsed)
    else none

def checkDelta (F : Forest) (datasetId : DatasetId) (deltaBytes deltaInodes poolFreeBytes : ℕ) :
    DatasetQuotaDecision :=
  match q.reservationPressureViolation datasetId deltaBytes poolFreeBytes with
  | some decision => decision
  | none => ((F.chain datasetId).findSome? (q.checkEntry deltaBytes deltaInodes)).getD .allowed

/-- One turn of the walk of `effective_capacity`. -/
def lowerCeiling (ceiling : ℕ) (id : DatasetId) : ℕ :=
  match q.get? id with
  | none => ceiling
  | some entry =>
    if 0 < entry.config.hardLimitBytes then min ceiling (entry.config.hardLimitBytes - entry.bytesUsed) else ceiling

def effectiveCapacity (F : Forest) (datasetId : DatasetId) (poolCapacityBytes : ℕ) : ℕ :=
  (F.chain datasetId).foldl q.lowerCeiling (q.reservationAvailableBytes poolCapacityBytes)

variable {q}

theorem lowerCeiling_le (ceiling : ℕ) (id : DatasetId) : q.lowerCeiling ceiling id ≤ ceiling := by
  unfold lowerCeiling
  split
  · exact le_rfl
  · split_ifs
    · exact min_le_left _ _
    · exact le_rfl

theorem foldl_lowerCeiling_le : ∀ (chain : List DatasetId) (ceiling : ℕ), chain.foldl q.lowerCeiling ceiling ≤ ceiling
  | [], _ => le_rfl
  | id :: chain, ceiling => (foldl_lowerCeiling_le chain _).trans (lowerCeiling_le ceiling id)

/-- What fits below the lowered ceiling passes the check of the dataset. -/
theorem checkEntry_of_le {n ceiling : ℕ} {id : DatasetId} (hpos : 0 < n) (hn : n ≤ q.lowerCeiling ceiling id) :
    q.checkEntry n 0 id = none := by
  unfold lowerCeiling at hn
  unfold checkEntry
  cases hget : q.get? id with
  | none => rfl
  | some entry =>
    rw [hget] at hn
    dsimp only at hn
    have hsat : satAdd entry.bytesUsed n ≤ entry.bytesUsed + n := min_le_left _ _
    rw [bind_some, if_neg, if_neg (by omega)]
    rintro ⟨hlimit, hover⟩
    rw [if_pos hlimit] at hn
    omega

/-- **The walk passes every ancestor.** -/
theorem walk_of_le {n : ℕ} (hpos : 0 < n) : ∀ {chain : List DatasetId} {ceiling : ℕ},
    n ≤ chain.foldl q.lowerCeiling ceiling → chain.findSome? (q.checkEntry n 0) = none
  | [], _, _ => rfl
  | id :: chain, ceiling, hn => by
    have hid : n ≤ q.lowerCeiling ceiling id := hn.trans (foldl_lowerCeiling_le chain _)
    rw [List.findSome?_cons, checkEntry_of_le hpos hid]
    exact walk_of_le hpos hn

theorem checkDelta_of_le {F : Forest} {id : DatasetId} {n poolFree : ℕ} (hpos : 0 < n) (hpool : poolFree ≤ u64Max)
    (hn : n ≤ q.effectiveCapacity F id poolFree) : q.checkDelta F id n 0 poolFree = .allowed := by
  have havail : n ≤ q.reservationAvailableBytes poolFree := hn.trans (foldl_lowerCeiling_le _ _)
  have hpressure : q.reservationPressureViolation id n poolFree = none := by
    unfold reservationAvailableBytes at havail
    unfold reservationPressureViolation reservationPressureBytes
    cases hsum : q.totalReservedBytesChecked with
    | none =>
      rw [hsum] at havail
      exact absurd havail (not_le.mpr hpos)
    | some reserved =>
      rw [hsum] at havail
      simp only [elim_some] at havail
      rw [bind_some, checkedAdd, if_pos (by omega)]
      exact if_neg (by omega)
  rw [checkDelta, hpressure, walk_of_le hpos hn]
  rfl

theorem checkEntry_ne_allowed (deltaBytes deltaInodes : ℕ) (id : DatasetId) :
    q.checkEntry deltaBytes deltaInodes id ≠ some .allowed := by
  unfold checkEntry
  cases q.get? id with
  | none => simp
  | some entry =>
    rw [bind_some]
    split_ifs <;> simp

/-- **A change is allowed** if the reservations leave room for it and every dataset above passes. -/
theorem checkDelta_allowed_iff {F : Forest} {id : DatasetId} {deltaBytes deltaInodes poolFree : ℕ} :
    q.checkDelta F id deltaBytes deltaInodes poolFree = .allowed ↔
      q.reservationPressureViolation id deltaBytes poolFree = none ∧
        ∀ x ∈ F.chain id, q.checkEntry deltaBytes deltaInodes x = none := by
  unfold checkDelta
  cases hpressure : q.reservationPressureViolation id deltaBytes poolFree with
  | some decision =>
    refine iff_of_false (fun h => ?_) (by simp)
    subst h
    unfold reservationPressureViolation at hpressure
    split at hpressure
    · cases hpressure
    · split_ifs at hpressure
      cases hpressure
  | none =>
    simp only [true_and, ← List.findSome?_eq_none_iff]
    cases hfind : (F.chain id).findSome? (q.checkEntry deltaBytes deltaInodes) with
    | none => exact iff_of_true rfl rfl
    | some decision =>
      refine iff_of_false (fun h => ?_) (by simp)
      obtain ⟨y, -, hy⟩ := List.exists_of_findSome?_eq_some hfind
      rw [getD_some] at h
      exact checkEntry_ne_allowed deltaBytes deltaInodes y (h ▸ hy)

/-- The reservations leave room for nothing more exactly if they fit themselves. -/
theorem pressure_zero_iff {id : DatasetId} {poolFree : ℕ} (hpool : poolFree ≤ u64Max) :
    q.reservationPressureViolation id 0 poolFree = none ↔
      ∃ reserved, q.totalReservedBytesChecked = some reserved ∧ reserved ≤ poolFree := by
  unfold reservationPressureViolation reservationPressureBytes
  cases q.totalReservedBytesChecked with
  | none => simp
  | some reserved =>
    rw [bind_some, checkedAdd]
    split_ifs with hfit
    · simp
    · simp
      omega

theorem checkEntry_zero_iff {id : DatasetId} : q.checkEntry 0 0 id = none ↔
    ∀ e, q.get? id = some e → 0 < e.config.hardLimitBytes → satAdd e.bytesUsed 0 ≤ e.config.hardLimitBytes := by
  unfold checkEntry
  cases q.get? id with
  | none => simp
  | some e => simp

end DatasetQuotaHierarchy

/-! ### The book of all datasets -/

structure SpaceBook where
  datasets : List (DatasetId × SpaceAccounting)
  pool : Option PoolPhysicalCounters
  quotaHierarchy : Option DatasetQuotaHierarchy

namespace SpaceBook

def statfsForDatasetWithHierarchy (b : SpaceBook) (datasetId : DatasetId) (F : Forest) : Option StatfsResult :=
  (b.datasets.find? fun e => e.1 = datasetId).bind fun acct =>
    b.pool.map fun pool =>
      statfsFrom acct.2.counters
        (match b.quotaHierarchy with
          | some hierarchy => hierarchy.effectiveCapacity F datasetId pool.physFreeBytes
          | none => pool.physFreeBytes)
        pool.physFreeBytes

def checkHierarchyEnospc (b : SpaceBook) (datasetId : DatasetId) (requestedBytes : ℕ) (F : Forest) :
    Except DatasetQuotaDecision Unit :=
  match b.quotaHierarchy with
  | none => .ok ()
  | some hierarchy =>
    match b.pool with
    | none =>
      .error (.reservationViolation datasetId ((hierarchy.reservationPressureBytes requestedBytes).getD u64Max) 0)
    | some pool =>
      match hierarchy.checkDelta F datasetId requestedBytes 0 pool.physFreeBytes with
      | .allowed => .ok ()
      | decision => .error decision

/-- **Bytes on offer to a dataset pass its ancestors.** -/
theorem check_of_le_avail {b : SpaceBook} {id : DatasetId} {F : Forest} {st : StatfsResult} {n : ℕ}
    (hst : b.statfsForDatasetWithHierarchy id F = some st) (hpos : 0 < n) (hn : n ≤ st.blocksAvail * st.blockSize) :
    b.checkHierarchyEnospc id n F = .ok () := by
  obtain ⟨acct, -, hst⟩ := bind_eq_some_iff.mp hst
  obtain ⟨pool, hpool, rfl⟩ := map_eq_some_iff.mp hst
  unfold checkHierarchyEnospc
  cases hq : b.quotaHierarchy with
  | none => rfl
  | some hierarchy =>
    rw [hq] at hn
    have hcap : n ≤ hierarchy.effectiveCapacity F id pool.physFreeBytes :=
      (hn.trans (blocksAvail_le _ _ _).1).trans (Nat.sub_le _ _)
    rw [hpool]
    dsimp only
    rw [DatasetQuotaHierarchy.checkDelta_of_le hpos pool.physFree_le hcap]

/-- Of a dataset that is known to book, pool and hierarchy, the reservations fit the pool and no dataset above it, nor
itself, is over its hard limit. -/
def WithinLimits (b : SpaceBook) (id : DatasetId) (F : Forest) : Prop :=
  ∀ hierarchy pool, b.quotaHierarchy = some hierarchy → b.pool = some pool →
    (b.datasets.find? fun e => e.1 = id).isSome = true →
    (∃ reserved, hierarchy.totalReservedBytesChecked = some reserved ∧ reserved ≤ pool.physFreeBytes) ∧
      ∀ x ∈ F.chain id, ∀ e, hierarchy.get? x = some e → 0 < e.config.hardLimitBytes →
        satAdd e.bytesUsed 0 ≤ e.config.hardLimitBytes

/-- **What is on offer to a dataset is admitted exactly if nothing is over its limit**, for then nothing is on offer, and
not even that is admitted. -/
theorem admits_avail_iff (b : SpaceBook) (id : DatasetId) (F : Forest) :
    (∀ st, b.statfsForDatasetWithHierarchy id F = some st → ∀ n ≤ st.blocksAvail * st.blockSize,
      b.checkHierarchyEnospc id n F = .ok ()) ↔ b.WithinLimits id F := by
  constructor
  · intro hadmits hierarchy pool hq hpool hfound
    obtain ⟨acct, hacct⟩ := isSome_iff_exists.mp hfound
    have hzero := hadmits _ (by rw [statfsForDatasetWithHierarchy, hacct, hpool]; rfl) 0 (Nat.zero_le _)
    have hallowed : hierarchy.checkDelta F id 0 0 pool.physFreeBytes = .allowed := by
      unfold checkHierarchyEnospc at hzero
      rw [hq, hpool] at hzero
      dsimp only at hzero
      split at hzero
      · assumption
      · cases hzero
    obtain ⟨hpressure, hwalk⟩ := DatasetQuotaHierarchy.checkDelta_allowed_iff.mp hallowed
    exact ⟨(DatasetQuotaHierarchy.pressure_zero_iff pool.physFree_le).mp hpressure,
      fun x hx => DatasetQuotaHierarchy.checkEntry_zero_iff.mp (hwalk x hx)⟩
  · intro hwithin st hst n hn
    rcases Nat.eq_zero_or_pos n with rfl | hpos
    · obtain ⟨acct, hacct, hst⟩ := bind_eq_some_iff.mp hst
      obtain ⟨pool, hpool, -⟩ := map_eq_some_iff.mp hst
      unfold checkHierarchyEnospc
      cases hq : b.quotaHierarchy with
      | none => rfl
      | some hierarchy =>
        obtain ⟨hreserved, hwalk⟩ := hwithin hierarchy pool hq hpool (by rw [hacct]; rfl)
        have hallowed : hierarchy.checkDelta F id 0 0 pool.physFreeBytes = .allowed :=
          DatasetQuotaHierarchy.checkDelta_allowed_iff.mpr
            ⟨(DatasetQuotaHierarchy.pressure_zero_iff pool.physFree_le).mpr hreserved,
              fun x hx => DatasetQuotaHierarchy.checkEntry_zero_iff.mpr (hwalk x hx)⟩
        rw [hpool]
        dsimp only
        rw [hallowed]
    · exact check_of_le_avail hst hpos hn

end SpaceBook

end Tidefs.Capacity
