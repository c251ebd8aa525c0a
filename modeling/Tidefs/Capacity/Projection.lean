/-
# The capacity of a mounted dataset

`DatasetCapacityProjection` holds the committed accounting of one dataset and the bytes
in flight: reserved, pending, and a reserve for root. A request is admitted if it fits
beside all of them. What `available_bytes` offers is admitted (`check_of_le_available`).

`derive_statfs` rounds the root reserve down to blocks after it has rounded down what is
left. So it offers up to a block too much unless the remainder of the reserve is no more
than the bytes that were rounded away (`statfs_is_admitted_iff`, `statfs_offers_reserve`).
-/
import Tidefs.Capacity.Accounting

namespace Tidefs.Capacity

open Word

/-- The space of a dataset as its mount sees it. -/
structure DatasetCapacityProjection where
  usedBytes : ℕ
  reservedBytes : ℕ
  pendingBytes : ℕ
  rootReserveBytes : ℕ
  committedAccounting : SpaceAccounting

/-- The one error number an admission returns. -/
inductive Errno where
  | enospc
deriving DecidableEq

structure CapacityStatfs where
  totalBlocks : ℕ
  freeBlocks : ℕ
  availBlocks : ℕ
  totalInodes : ℕ
  freeInodes : ℕ
  blockSize : ℕ
  nameMax : ℕ

def satMul (a b : ℕ) : ℕ := min (a * b) u64Max

namespace DatasetCapacityProjection

variable (c : DatasetCapacityProjection)

def transientHeldBytes : ℕ := satAdd c.reservedBytes c.pendingBytes

def checkEnospc (requestedBytes : ℕ) : Except Errno Unit :=
  if requestedBytes = 0 then .ok ()
  else
    let heldBytes := satAdd c.transientHeldBytes c.rootReserveBytes
    match c.committedAccounting.admissionCheck (satAdd requestedBytes heldBytes) with
    | .allowed => .ok ()
    | _ => .error .enospc

def blocksAfterTransientHold (blocks blockSize heldBytes : ℕ) : ℕ :=
  if blockSize = 0 then 0 else (satMul blocks blockSize - heldBytes) / blockSize

def deriveStatfs (inodeTotal inodeFree nameMax : ℕ) : CapacityStatfs :=
  let statfs := c.committedAccounting.statfs
  let heldBytes := c.transientHeldBytes
  let availBlocks := blocksAfterTransientHold statfs.blocksAvail statfs.blockSize heldBytes
  let reserveBlocks := if statfs.blockSize = 0 then 0 else c.rootReserveBytes / statfs.blockSize
  { totalBlocks := statfs.blocks
    freeBlocks := blocksAfterTransientHold statfs.blocksFree statfs.blockSize heldBytes
    availBlocks := availBlocks - reserveBlocks
    totalInodes := inodeTotal
    freeInodes := inodeFree
    blockSize := if statfs.blockSize < 2 ^ 32 then statfs.blockSize else 2 ^ 32 - 1
    nameMax := nameMax }

/-- The bytes the committed counters leave. -/
def committedAvailBytes : ℕ :=
  satMul c.committedAccounting.statfs.blocksAvail c.committedAccounting.statfs.blockSize

def availableBytes : ℕ :=
  c.committedAvailBytes - c.transientHeldBytes - c.rootReserveBytes

variable {c : DatasetCapacityProjection} {n : ℕ}

/-! ### Admission -/

/-- A request is admitted if it fits below the ceiling beside what is held. -/
theorem checkEnospc_iff (hn : n ≠ 0) : c.checkEnospc n = .ok () ↔
    c.committedAccounting.admissionCheck (satAdd n (satAdd c.transientHeldBytes c.rootReserveBytes)) = .allowed := by
  rw [checkEnospc, if_neg hn]
  dsimp only
  generalize c.committedAccounting.admissionCheck (satAdd n (satAdd c.transientHeldBytes c.rootReserveBytes)) = r
  cases r <;> simp

/-- A request that leaves what is held within the offer is admitted. -/
theorem check_of_held (h : n ≠ 0 → n + c.transientHeldBytes + c.rootReserveBytes ≤
    c.committedAvailBytes) : c.checkEnospc n = .ok () := by
  by_cases hn : n = 0
  · exact if_pos hn
  set held := satAdd c.transientHeldBytes c.rootReserveBytes
  have hheld : held ≤ c.transientHeldBytes + c.rootReserveBytes := min_le_left _ _
  have hneed : satAdd n held ≤ n + held := min_le_left _ _
  have hpos : 0 < satAdd n held := lt_min (by omega) (show 0 < u64Max by decide)
  have hfit : n + c.transientHeldBytes + c.rootReserveBytes ≤ _ := (h hn).trans (min_le_left _ _)
  exact (checkEnospc_iff hn).mpr (admits_of_le_avail hpos (show satAdd n held ≤ _ by omega))

/-- **Available bytes are admitted.** -/
theorem check_of_le_available (hn : n ≤ c.availableBytes) : c.checkEnospc n = .ok () := by
  unfold availableBytes at hn
  exact check_of_held fun h0 => by omega

/-- The bytes of the blocks that `derive_statfs` offers. -/
def offeredBytes : ℕ :=
  ((c.committedAvailBytes - c.transientHeldBytes) / defaultBlockSize - c.rootReserveBytes / defaultBlockSize) *
    defaultBlockSize

theorem deriveStatfs_offers (inodeTotal inodeFree nameMax : ℕ) :
    (c.deriveStatfs inodeTotal inodeFree nameMax).availBlocks * (c.deriveStatfs inodeTotal inodeFree nameMax).blockSize =
      c.offeredBytes := by
  have hsize : c.committedAccounting.statfs.blockSize = defaultBlockSize := rfl
  unfold deriveStatfs blocksAfterTransientHold
  dsimp only
  rw [hsize, if_neg (by decide), if_neg (by decide), if_pos (by decide)]
  rfl

/-- The bytes below the ceiling that the blocks of the accounting leave out. -/
def hiddenBytes : ℕ :=
  c.committedAccounting.ceiling - c.committedAccounting.counters.totalConsumedBytes - c.committedAvailBytes

/-- There is no ceiling, the root reserve leaves no block to offer, or its remainder is no more than that of the bytes
left and those that the rounding to blocks left out. -/
def ReserveFits : Prop :=
  u64Max ≤ c.committedAccounting.ceiling ∨
    (c.committedAvailBytes - c.transientHeldBytes) / defaultBlockSize ≤ c.rootReserveBytes / defaultBlockSize ∨
    c.rootReserveBytes % defaultBlockSize ≤
      (c.committedAvailBytes - c.transientHeldBytes) % defaultBlockSize + c.hiddenBytes

instance (c : DatasetCapacityProjection) : Decidable c.ReserveFits := inferInstanceAs (Decidable (_ ∨ _ ∨ _))

/-- Sums that saturate stay below a ceiling that does not. -/
theorem satAdd_le_iff {a n bound : ℕ} (hbound : bound < u64Max) : satAdd a n ≤ bound ↔ a + n ≤ bound := by
  unfold satAdd
  omega

/-- What a request needs beside what is used and held. -/
theorem checkEnospc_below (hn : n ≠ 0) (hceiling : c.committedAccounting.ceiling < u64Max) : c.checkEnospc n = .ok () ↔
    c.committedAccounting.counters.totalConsumedBytes + (n + (c.transientHeldBytes + c.rootReserveBytes)) ≤
      c.committedAccounting.ceiling := by
  rw [checkEnospc_iff hn, admissionCheck_allowed, satAdd_le_iff hceiling]
  unfold satAdd
  omega

theorem committedAvailBytes_le : c.committedAvailBytes ≤
    c.committedAccounting.ceiling - c.committedAccounting.counters.totalConsumedBytes := by
  obtain ⟨h1, h2⟩ := blocksAvail_le c.committedAccounting.counters
    (if 0 < c.committedAccounting.counters.quotaBytes then
      c.committedAccounting.counters.quotaBytes - c.committedAccounting.counters.slopBytes
      else c.committedAccounting.physCapacityBytes) c.committedAccounting.physCapacityBytes
  have hsat : c.committedAvailBytes ≤
      c.committedAccounting.statfs.blocksAvail * c.committedAccounting.statfs.blockSize := min_le_left _ _
  unfold SpaceAccounting.statfs at hsat
  unfold SpaceAccounting.ceiling
  split_ifs at h1 h2 hsat ⊢ <;> omega

/-- Of what is offered the last byte decides. -/
theorem admits_iff_last {offer : ℕ} : (∀ n ≤ offer, c.checkEnospc n = .ok ()) ↔
    u64Max ≤ c.committedAccounting.ceiling ∨ offer = 0 ∨ c.committedAccounting.counters.totalConsumedBytes +
      (offer + (c.transientHeldBytes + c.rootReserveBytes)) ≤ c.committedAccounting.ceiling := by
  rcases Nat.lt_or_ge c.committedAccounting.ceiling u64Max with hceiling | hceiling
  · rw [or_iff_right hceiling.not_ge]
    constructor
    · intro hadmits
      by_cases hzero : offer = 0
      · exact .inl hzero
      · exact .inr ((checkEnospc_below hzero hceiling).mp (hadmits offer le_rfl))
    · intro hlast n hn
      by_cases hzero : n = 0
      · exact if_pos hzero
      · exact (checkEnospc_below hzero hceiling).mpr (by omega)
  · refine iff_of_true (fun n _ => ?_) (.inl hceiling)
    by_cases hzero : n = 0
    · exact if_pos hzero
    · exact (checkEnospc_iff hzero).mpr (admissionCheck_allowed.mpr ((min_le_right _ _).trans hceiling))

/-- **The blocks offered are admitted exactly if the root reserve fits the rounding.** -/
theorem admits_offered_iff : (∀ n ≤ c.offeredBytes, c.checkEnospc n = .ok ()) ↔ c.ReserveFits := by
  rw [admits_iff_last]
  refine or_congr_right ?_
  have havail := @committedAvailBytes_le c
  have hleft := Nat.div_add_mod (c.committedAvailBytes - c.transientHeldBytes) defaultBlockSize
  have hroot := Nat.div_add_mod c.rootReserveBytes defaultBlockSize
  unfold offeredBytes hiddenBytes
  have hsize : defaultBlockSize = 4096 := rfl
  rw [hsize] at *
  omega

/-- **When no bytes are offered that a write is refused**: those available always; those of the blocks of `statfs`
exactly if the root reserve fits the rounding; and, in a hierarchy, those of a dataset exactly if no dataset above is over
its limit. -/
theorem statfs_is_admitted_iff (c : DatasetCapacityProjection) (b : SpaceBook) (id : DatasetId) (F : Forest)
    (inodeTotal inodeFree nameMax : ℕ) : (∀ n ≤ c.availableBytes, c.checkEnospc n = .ok ()) ∧
    ((∀ n ≤ (c.deriveStatfs inodeTotal inodeFree nameMax).availBlocks *
        (c.deriveStatfs inodeTotal inodeFree nameMax).blockSize, c.checkEnospc n = .ok ()) ↔ c.ReserveFits) ∧
    ((∀ st, b.statfsForDatasetWithHierarchy id F = some st → ∀ n ≤ st.blocksAvail * st.blockSize,
      b.checkHierarchyEnospc id n F = .ok ()) ↔ b.WithinLimits id F) := by
  refine ⟨fun n => check_of_le_available, ?_, b.admits_avail_iff id F⟩
  rw [deriveStatfs_offers]
  exact admits_offered_iff

def tenBlocks (rootReserveBytes : ℕ) : DatasetCapacityProjection :=
  ⟨0, 0, 0, rootReserveBytes, ⟨0, 0, 0, 40960, 0⟩, some ⟨40960, by decide⟩⟩

/-- A dataset with a quota of two blocks, of which it uses some bytes. -/
def twoBlocks (bytesUsed : ℕ) : SpaceBook :=
  ⟨[(Vector.replicate 16 0, ⟨⟨0, 0, 0, 0, 0⟩, none⟩)], some ⟨40960, by decide⟩,
    some ⟨[(Vector.replicate 16 0, ⟨⟨8192, 0, 0, 0, 0⟩, bytesUsed, 0⟩)]⟩⟩

/-- Datasets without parents. -/
def roots : Forest := ⟨fun _ => none, acyclic_of_no_parents⟩

theorem chain_roots (id : DatasetId) : roots.chain id = [id] := by
  rw [Forest.chain]
  rfl

/-- A reserve of a block is offered to nobody, one of a byte is; a dataset below its quota has what it is offered. -/
theorem statfs_is_admitted_iff_tenBlocks :
    (∀ n ≤ ((tenBlocks 4096).deriveStatfs 0 0 255).availBlocks * ((tenBlocks 4096).deriveStatfs 0 0 255).blockSize,
      (tenBlocks 4096).checkEnospc n = .ok ()) ∧
    (¬ ∀ n ≤ ((tenBlocks 1).deriveStatfs 0 0 255).availBlocks * ((tenBlocks 1).deriveStatfs 0 0 255).blockSize,
      (tenBlocks 1).checkEnospc n = .ok ()) ∧
    ∀ st, (twoBlocks 4096).statfsForDatasetWithHierarchy (Vector.replicate 16 0) roots = some st →
      ∀ n ≤ st.blocksAvail * st.blockSize,
        (twoBlocks 4096).checkHierarchyEnospc (Vector.replicate 16 0) n roots = .ok () := by
  have hiff := fun c => statfs_is_admitted_iff c (twoBlocks 4096) (Vector.replicate 16 0) roots 0 0 255
  refine ⟨(hiff (tenBlocks 4096)).2.1.mpr (by decide), fun h => absurd ((hiff (tenBlocks 1)).2.1.mp h) (by decide),
    (hiff (tenBlocks 1)).2.2.mpr ?_⟩
  intro hierarchy pool hq hpool _
  obtain rfl := Option.some.inj hq
  obtain rfl := Option.some.inj hpool
  refine ⟨⟨0, by decide, by decide⟩, fun x hx e he _ => ?_⟩
  rw [chain_roots, List.mem_singleton] at hx
  subst hx
  obtain rfl := Option.some.inj ((show some _ = _ from rfl).symm.trans he)
  decide

/-- **The rounding offers the reserve.** A root reserve of one byte takes no block from
the ten offered, and a write of ten blocks is refused. A dataset over its quota is
refused a write of no bytes, which every report offers. -/
theorem statfs_offers_reserve :
    ((tenBlocks 1).deriveStatfs 0 0 255).availBlocks * ((tenBlocks 1).deriveStatfs 0 0 255).blockSize = 40960 ∧
    (tenBlocks 1).checkEnospc 40960 = .error .enospc ∧
    (∃ st, (twoBlocks 8193).statfsForDatasetWithHierarchy (Vector.replicate 16 0) roots = some st) ∧
    (twoBlocks 8193).checkHierarchyEnospc (Vector.replicate 16 0) 0 roots ≠ .ok () := by
  refine ⟨by decide, by decide, ⟨_, rfl⟩, ?_⟩
  unfold SpaceBook.checkHierarchyEnospc twoBlocks
  dsimp only
  rw [DatasetQuotaHierarchy.checkDelta, chain_roots]
  decide

end DatasetCapacityProjection
end Tidefs.Capacity
