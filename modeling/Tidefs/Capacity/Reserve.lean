/-
# Reservations

A write reserves bytes and holds a handle on them; the handle is committed, released, or
dropped. Committed bytes are pending until the next commit of the file system. A snapshot
of the counters is restored when a transaction is rolled back.

The counters fit the handles as long as a snapshot is restored with the handles it was
taken with: then nothing is reserved twice and nothing goes over the ceiling
(`no_overcommit`). A handle taken after the snapshot and resolved after it was restored
takes its bytes from the reservations of others, and the ceiling is passed
(`restored_overcommits`).
-/
import Tidefs.Capacity.Projection

namespace Tidefs.Capacity

open Word List Option DatasetCapacityProjection

structure CapacityReservationHandle where
  bytes : ℕ
  resolved : Bool
deriving DecidableEq

structure DatasetCapacitySnapshot where
  usedBytes : ℕ
  reservedBytes : ℕ
  pendingBytes : ℕ
  committedAccounting : SpaceAccounting

namespace DatasetCapacityProjection

variable (c : DatasetCapacityProjection)

def recordFree (bytes : ℕ) : DatasetCapacityProjection :=
  { c with usedBytes := c.usedBytes - bytes, pendingBytes := c.pendingBytes - bytes }

def reserve (bytes : ℕ) : Except Errno (DatasetCapacityProjection × CapacityReservationHandle) :=
  if bytes = 0 then .ok (c, ⟨0, false⟩)
  else
    match c.checkEnospc bytes with
    | .error e => .error e
    | .ok () => .ok ({ c with reservedBytes := wrap64 (c.reservedBytes + bytes) }, ⟨bytes, false⟩)

/-- Only the bytes that are new are held. -/
def reserveWithReplacementCredit (bytes replacementCreditBytes : ℕ) :
    Except Errno (DatasetCapacityProjection × CapacityReservationHandle) :=
  if bytes = 0 then c.reserve 0 else c.reserve (bytes - replacementCreditBytes)

def commitReservation (bytes : ℕ) : DatasetCapacityProjection :=
  if bytes = 0 then c
  else
    { c with
      reservedBytes := c.reservedBytes - bytes
      usedBytes := wrap64 (c.usedBytes + bytes)
      pendingBytes := wrap64 (c.pendingBytes + bytes) }

def releaseReservation (bytes : ℕ) : DatasetCapacityProjection :=
  if bytes = 0 then c else { c with reservedBytes := c.reservedBytes - bytes }

def snapshotForRollback : DatasetCapacitySnapshot :=
  ⟨c.usedBytes, c.reservedBytes, c.pendingBytes, c.committedAccounting⟩

def restoreFromSnapshot (s : DatasetCapacitySnapshot) : DatasetCapacityProjection :=
  ⟨s.usedBytes, s.reservedBytes, s.pendingBytes, c.rootReserveBytes, s.committedAccounting⟩

end DatasetCapacityProjection

namespace CapacityReservationHandle

variable (c : DatasetCapacityProjection)

/-- The end of a handle's life: it is released unless it was resolved. -/
def drop (h : CapacityReservationHandle) : DatasetCapacityProjection :=
  if h.resolved then c else c.releaseReservation h.bytes

/-- Committing consumes the handle, so it is dropped at the end. -/
def commit (h : CapacityReservationHandle) : DatasetCapacityProjection :=
  drop (if h.resolved then c else c.commitReservation h.bytes) { h with resolved := true }

def release (h : CapacityReservationHandle) : DatasetCapacityProjection :=
  drop (if h.resolved then c else c.releaseReservation h.bytes) { h with resolved := true }

end CapacityReservationHandle

open CapacityReservationHandle Nat

/-! ### Sessions -/

/-- The projection with the handles and snapshots callers hold. Handles are numbered, and
a snapshot remembers the handles there were. -/
structure Session where
  projection : DatasetCapacityProjection
  handles : List (ℕ × CapacityReservationHandle)
  nextHandle : ℕ
  snapshots : List (DatasetCapacitySnapshot × List (ℕ × CapacityReservationHandle))

namespace Session

def start (c : DatasetCapacityProjection) : Session := ⟨c, [], 0, []⟩

/-- Handles and snapshots are named by their place among those there are. -/
inductive Op where
  | reserve (bytes : ℕ)
  | reserveWithReplacementCredit (bytes replacementCreditBytes : ℕ)
  | commit (handle : ℕ)
  | release (handle : ℕ)
  | drop (handle : ℕ)
  | recordFree (bytes : ℕ)
  | snapshotForRollback
  | restoreFromSnapshot (snapshot : ℕ)

variable (w : Session)

def hold : Except Errno (DatasetCapacityProjection × CapacityReservationHandle) → Session
  | .error _ => w
  | .ok (projection, handle) =>
    { w with projection, handles := w.handles ++ [(w.nextHandle, handle)], nextHandle := w.nextHandle + 1 }

/-- The handle goes, and does this to the projection. -/
def resolve (handle : ℕ)
    (act : DatasetCapacityProjection → CapacityReservationHandle → DatasetCapacityProjection) : Session :=
  match w.handles[handle]? with
  | none => w
  | some h => { w with projection := act w.projection h.2, handles := w.handles.eraseIdx handle }

def step : Op → Session
  | .reserve bytes => w.hold (w.projection.reserve bytes)
  | .reserveWithReplacementCredit bytes credit => w.hold (w.projection.reserveWithReplacementCredit bytes credit)
  | .commit handle => w.resolve handle CapacityReservationHandle.commit
  | .release handle => w.resolve handle CapacityReservationHandle.release
  | .drop handle => w.resolve handle CapacityReservationHandle.drop
  | .recordFree bytes => { w with projection := w.projection.recordFree bytes }
  | .snapshotForRollback => { w with snapshots := w.snapshots ++ [(w.projection.snapshotForRollback, w.handles)] }
  | .restoreFromSnapshot snapshot =>
    match w.snapshots[snapshot]? with
    | none => w
    | some s => { w with projection := w.projection.restoreFromSnapshot s.1 }

def run (ops : List Op) : Session := ops.foldl step w

/-- A snapshot is restored with the handles it was taken with. -/
def Quiet : Op → Prop
  | .restoreFromSnapshot snapshot => ∀ s, w.snapshots[snapshot]? = some s → s.2 = w.handles
  | _ => True

def QuietRun : Session → List Op → Prop
  | _, [] => True
  | w, op :: ops => Quiet w op ∧ QuietRun (w.step op) ops

/-! ### The counters and the handles -/

def held (handles : List (ℕ × CapacityReservationHandle)) : ℕ := (handles.map fun h => h.2.bytes).sum

/-- Committed, reserved and pending bytes and the root reserve. -/
def inUse (c : DatasetCapacityProjection) : ℕ :=
  c.committedAccounting.counters.totalConsumedBytes + c.reservedBytes + c.pendingBytes + c.rootReserveBytes

/-- Counters that fit the handles and the ceiling. -/
structure Fits (c : DatasetCapacityProjection) (handles : List (ℕ × CapacityReservationHandle)) : Prop where
  reserved : c.reservedBytes = held handles
  ceiling : inUse c ≤ c.committedAccounting.ceiling

/-- The counters fit, and would after a restore; no handle held is resolved. -/
structure Inv (w : Session) : Prop where
  fits : Fits w.projection w.handles
  unresolved : ∀ h ∈ w.handles, h.2.resolved = false
  finite : w.projection.committedAccounting.ceiling < u64Max
  snapshots : ∀ s ∈ w.snapshots, Fits (w.projection.restoreFromSnapshot s.1) s.2 ∧
    s.1.committedAccounting = w.projection.committedAccounting

variable {w : Session} {c : DatasetCapacityProjection} {n : ℕ}

/-- The parts of the invariant that do not change with reservations. -/
theorem Inv.update (h : Inv w) (projection : DatasetCapacityProjection)
    (hacc : projection.committedAccounting = w.projection.committedAccounting)
    (hroot : projection.rootReserveBytes = w.projection.rootReserveBytes)
    {handles : List (ℕ × CapacityReservationHandle)} {nextHandle : ℕ} (hfits : Fits projection handles)
    (hres : ∀ h ∈ handles, h.2.resolved = false) : Inv ⟨projection, handles, nextHandle, w.snapshots⟩ := by
  refine ⟨hfits, hres, by rw [hacc]; exact h.finite, fun s hs => ?_⟩
  obtain ⟨h1, h2⟩ := h.snapshots s hs
  refine ⟨?_, h2.trans hacc.symm⟩
  have hsame : projection.restoreFromSnapshot s.1 = w.projection.restoreFromSnapshot s.1 := by
    rw [restoreFromSnapshot, hroot]
    rfl
  rw [hsame]
  exact h1

theorem held_append (handles : List (ℕ × CapacityReservationHandle)) (h : ℕ × CapacityReservationHandle) :
    held (handles ++ [h]) = held handles + h.2.bytes := by
  rw [held, map_append, List.sum_append_nat, map_singleton, sum_singleton]
  rfl

theorem held_eraseIdx {handles : List (ℕ × CapacityReservationHandle)} {i : ℕ} {h : ℕ × CapacityReservationHandle}
    (hi : handles[i]? = some h) : held (handles.eraseIdx i) + h.2.bytes = held handles := by
  obtain ⟨hlt, rfl⟩ := List.getElem?_eq_some_iff.mp hi
  rw [add_comm]
  exact ((getElem_cons_eraseIdx_perm hlt).map fun h => h.2.bytes).sum_eq

/-- An admitted request fits beside all that is in use: below the greatest word no sum
saturates. -/
theorem inUse_of_admitted (hn : n ≠ 0) (hfin : c.committedAccounting.ceiling < u64Max) (h : c.checkEnospc n = .ok ()) :
    inUse c + n ≤ c.committedAccounting.ceiling := by
  have hle := admissionCheck_allowed.mp ((checkEnospc_iff hn).mp h)
  unfold inUse
  unfold transientHeldBytes satAdd at hle
  omega

/-- **A reservation** is held by its handle. -/
theorem reserve_inv (h : Inv w) (n : ℕ) : Inv (w.hold (w.projection.reserve n)) := by
  unfold reserve
  have hres : ∀ handle : CapacityReservationHandle, handle.resolved = false →
      ∀ x ∈ w.handles ++ [(w.nextHandle, handle)], x.2.resolved = false := fun _ hhandle =>
    forall_mem_append.mpr ⟨h.unresolved, forall_mem_singleton.mpr hhandle⟩
  split_ifs with h0
  · refine h.update w.projection rfl rfl ⟨?_, h.fits.ceiling⟩ (hres ⟨0, false⟩ rfl)
    rw [held_append, h.fits.reserved]
    rfl
  · cases hcheck : w.projection.checkEnospc n with
    | error e => exact h
    | ok u =>
      have hfit := inUse_of_admitted h0 h.finite hcheck
      have hfin := h.finite
      have hsum : w.projection.reservedBytes + n < 2 ^ 64 := by
        unfold inUse at hfit
        unfold u64Max at hfin
        omega
      have hwrap : wrap64 (w.projection.reservedBytes + n) = w.projection.reservedBytes + n := mod_eq_of_lt hsum
      refine h.update { w.projection with reservedBytes := wrap64 (w.projection.reservedBytes + n) } rfl rfl
        ⟨?_, ?_⟩ (hres ⟨n, false⟩ rfl)
      · rw [held_append, hwrap, h.fits.reserved]
      · unfold inUse at hfit ⊢
        dsimp only
        rw [hwrap]
        omega

/-- What becomes of the counters when a handle goes. -/
structure Resolves (act : DatasetCapacityProjection → CapacityReservationHandle → DatasetCapacityProjection)
    (c : DatasetCapacityProjection) (h : CapacityReservationHandle) (pending : ℕ) : Prop where
  reserved : (act c h).reservedBytes + h.bytes = c.reservedBytes
  pending : (act c h).pendingBytes = c.pendingBytes + pending
  root : (act c h).rootReserveBytes = c.rootReserveBytes
  accounting : (act c h).committedAccounting = c.committedAccounting

variable {h : CapacityReservationHandle}

theorem resolves_of_eq {act : DatasetCapacityProjection → CapacityReservationHandle → DatasetCapacityProjection}
    {c' : DatasetCapacityProjection} {pending : ℕ} (hact : act c h = c')
    (hreserved : c'.reservedBytes + h.bytes = c.reservedBytes) (hpending : c'.pendingBytes = c.pendingBytes + pending)
    (hroot : c'.rootReserveBytes = c.rootReserveBytes) (hacc : c'.committedAccounting = c.committedAccounting) :
    Resolves act c h pending := by
  subst hact
  exact ⟨hreserved, hpending, hroot, hacc⟩

theorem release_resolves (hle : h.bytes ≤ c.reservedBytes) (hopen : h.resolved = false) :
    Resolves release c h 0 ∧ Resolves drop c h 0 := by
  have hresolves : ∀ act, act c h = c.releaseReservation h.bytes → Resolves act c h 0 := fun act hact => by
    unfold releaseReservation at hact
    split_ifs at hact with h0
    · exact resolves_of_eq hact (by omega) rfl rfl rfl
    · exact resolves_of_eq hact (Nat.sub_add_cancel hle) rfl rfl rfl
  constructor
  · apply hresolves
    rw [CapacityReservationHandle.release, CapacityReservationHandle.drop, if_pos rfl, hopen, if_neg Bool.false_ne_true]
  · apply hresolves
    rw [CapacityReservationHandle.drop, hopen, if_neg Bool.false_ne_true]

theorem commit_resolves (hle : h.bytes ≤ c.reservedBytes) (hsum : c.pendingBytes + h.bytes < 2 ^ 64)
    (hopen : h.resolved = false) : Resolves CapacityReservationHandle.commit c h h.bytes := by
  have hcommit : CapacityReservationHandle.commit c h = c.commitReservation h.bytes := by
    rw [CapacityReservationHandle.commit, CapacityReservationHandle.drop, if_pos rfl, hopen, if_neg Bool.false_ne_true]
  unfold commitReservation at hcommit
  split_ifs at hcommit with h0
  · exact resolves_of_eq hcommit (by omega) (by omega) rfl rfl
  · exact resolves_of_eq hcommit (Nat.sub_add_cancel hle) (Nat.mod_eq_of_lt hsum) rfl rfl

/-- The three ends of a handle that is held. -/
theorem Inv.ends (hw : Inv w) {i : ℕ} {x : ℕ × CapacityReservationHandle} (hi : w.handles[i]? = some x) :
    Resolves commit w.projection x.2 x.2.bytes ∧
    Resolves release w.projection x.2 0 ∧
    Resolves drop w.projection x.2 0 := by
  have hopen := hw.unresolved x (mem_of_getElem? hi)
  have hsum := held_eraseIdx hi
  have hres := hw.fits.reserved
  have hceil := hw.fits.ceiling
  have hfin := hw.finite
  have hle : x.2.bytes ≤ w.projection.reservedBytes := by omega
  have hpend : w.projection.pendingBytes + x.2.bytes < 2 ^ 64 := by
    unfold inUse at hceil
    unfold u64Max at hfin
    omega
  exact ⟨commit_resolves hle hpend hopen, release_resolves hle hopen⟩

/-- **A handle goes** once, with its bytes. -/
theorem Inv.resolved (hw : Inv w) {act : DatasetCapacityProjection → CapacityReservationHandle → DatasetCapacityProjection}
    {handle : ℕ} (hact : ∀ x, w.handles[handle]? = some x → ∃ p ≤ x.2.bytes, Resolves act w.projection x.2 p) :
    Inv (w.resolve handle act) := by
  unfold resolve
  cases hi : w.handles[handle]? with
  | none => exact hw
  | some x =>
    obtain ⟨p, hp, hr⟩ := hact x hi
    have hsum := held_eraseIdx hi
    have hres := hw.fits.reserved
    have hceil := hw.fits.ceiling
    have hreserved := hr.reserved
    refine hw.update _ hr.accounting hr.root ⟨by omega, ?_⟩ fun y hy => hw.unresolved y (mem_of_mem_eraseIdx hy)
    unfold inUse at hceil ⊢
    rw [hr.accounting, hr.root, hr.pending]
    omega

/-- **An operation** keeps the counters in line with the handles. -/
theorem step_inv (hw : Inv w) {op : Op} (hquiet : Quiet w op) : Inv (w.step op) := by
  cases op with
  | reserve bytes => exact reserve_inv hw bytes
  | reserveWithReplacementCredit bytes credit =>
    show Inv (w.hold (if bytes = 0 then w.projection.reserve 0 else w.projection.reserve (bytes - credit)))
    split_ifs
    · exact reserve_inv hw 0
    · exact reserve_inv hw (bytes - credit)
  | commit handle => exact hw.resolved fun x hx => ⟨_, le_rfl, (hw.ends hx).1⟩
  | release handle => exact hw.resolved fun x hx => ⟨0, zero_le _, (hw.ends hx).2.1⟩
  | drop handle => exact hw.resolved fun x hx => ⟨0, zero_le _, (hw.ends hx).2.2⟩
  | recordFree bytes =>
    refine hw.update (w.projection.recordFree bytes) rfl rfl ⟨hw.fits.reserved, ?_⟩ hw.unresolved
    have hceil := hw.fits.ceiling
    unfold inUse recordFree at *
    dsimp only
    omega
  | snapshotForRollback =>
    exact ⟨hw.fits, hw.unresolved, hw.finite,
      forall_mem_append.mpr ⟨hw.snapshots, forall_mem_singleton.mpr ⟨hw.fits, rfl⟩⟩⟩
  | restoreFromSnapshot snapshot =>
    unfold step
    dsimp only
    cases hs : w.snapshots[snapshot]? with
    | none => exact hw
    | some s =>
      obtain ⟨h1, h2⟩ := hw.snapshots s (mem_of_getElem? hs)
      rw [hquiet s hs] at h1
      exact hw.update (w.projection.restoreFromSnapshot s.1) h2 rfl h1 hw.unresolved

theorem run_inv : ∀ {ops : List Op} {w : Session}, Inv w → QuietRun w ops → Inv (w.run ops)
  | [], _, h, _ => h
  | _ :: ops, w, h, hquiet => by
    have hrun := @run_inv ops _ (step_inv h hquiet.1) hquiet.2
    exact hrun

/-- A projection without reservations, with room for the root reserve below a ceiling that
is not the greatest word. -/
structure Fresh (c : DatasetCapacityProjection) : Prop where
  reserved : c.reservedBytes = 0
  pending : c.pendingBytes = 0
  room : c.committedAccounting.counters.totalConsumedBytes + c.rootReserveBytes ≤ c.committedAccounting.ceiling
  finite : c.committedAccounting.ceiling < u64Max

theorem Fresh.inv (h : Fresh c) : Inv (start c) := by
  refine ⟨⟨h.reserved, ?_⟩, fun _ hx => absurd hx not_mem_nil, h.finite, fun _ hs => absurd hs not_mem_nil⟩
  have hroom := h.room
  show inUse c ≤ c.committedAccounting.ceiling
  unfold inUse
  rw [h.reserved, h.pending]
  omega

/-- **Nothing is overcommitted.** In a run that restores snapshots with the handles they
were taken with, what is in use stays below the ceiling, reserved bytes are those of the
handles held, and a handle takes its bytes with it once, whichever way it goes. -/
theorem no_overcommit (c : DatasetCapacityProjection) (hc : Fresh c) (ops : List Op) (hquiet : QuietRun (start c) ops) :
    inUse ((start c).run ops).projection ≤ ((start c).run ops).projection.committedAccounting.ceiling ∧
    ((start c).run ops).projection.reservedBytes = held ((start c).run ops).handles ∧
    ∀ (i : ℕ) (x : ℕ × CapacityReservationHandle), ((start c).run ops).handles[i]? = some x →
      Resolves CapacityReservationHandle.commit ((start c).run ops).projection x.2 x.2.bytes ∧
      Resolves CapacityReservationHandle.release ((start c).run ops).projection x.2 0 ∧
      Resolves CapacityReservationHandle.drop ((start c).run ops).projection x.2 0 := by
  have h := run_inv hc.inv hquiet
  exact ⟨h.fits.ceiling, h.fits.reserved, fun i x hx => h.ends hx⟩

def hundredBytes : DatasetCapacityProjection := ⟨0, 0, 0, 0, ⟨0, 0, 0, 100, 0⟩, some ⟨100, by decide⟩⟩

theorem fresh_hundredBytes : Fresh hundredBytes := ⟨rfl, rfl, by decide, by decide⟩

/-- A transaction that reserves, rolls back without handles, and reserves again. -/
theorem no_overcommit_rollback :
    inUse ((start hundredBytes).run [.snapshotForRollback, .reserve 60, .drop 0, .restoreFromSnapshot 0, .reserve 100,
      .commit 0]).projection ≤ 100 := by
  refine (no_overcommit hundredBytes fresh_hundredBytes [.snapshotForRollback, .reserve 60, .drop 0,
    .restoreFromSnapshot 0, .reserve 100, .commit 0] ⟨trivial, trivial, trivial, fun s hs => ?_, trivial, trivial, trivial⟩).1
  obtain rfl := some.inj hs
  rfl

/-- **A handle that outlives a restore** gives back bytes it no longer has. The ceiling is
a hundred bytes, and two reservations of a hundred are committed. -/
theorem restored_overcommits : Fresh hundredBytes ∧
    ((start hundredBytes).run [.snapshotForRollback, .reserve 100, .restoreFromSnapshot 0, .reserve 100,
      .drop 0]).projection.reservedBytes = 0 ∧
    held ((start hundredBytes).run [.snapshotForRollback, .reserve 100, .restoreFromSnapshot 0, .reserve 100,
      .drop 0]).handles = 100 ∧
    inUse ((start hundredBytes).run [.snapshotForRollback, .reserve 100, .restoreFromSnapshot 0, .reserve 100, .drop 0,
      .reserve 100, .commit 0, .commit 0]).projection = 200 :=
  ⟨fresh_hundredBytes, by decide, by decide, by decide⟩

end Session
end Tidefs.Capacity
