/-
# Fenced devices and the root reserve

An allocation is to stay off the fenced devices and to leave the root reserve.
The entry points differ in what they look at. `alloc`, `alloc_any`,
`alloc_contiguous`, `reserve_allocation` and `alloc_bytes_at` search around the
blocks that `is_block_fenced_inner` knows, which looks at one extent only;
`allocate` and `allocate_aligned` do not look at the fences at all; the aligned
attempt of `alloc_bytes` looks neither at the fences nor at the reserve; and
empty requests succeed without admission. `FenceSafe` says, for each call, when
that does no harm, and in a run of such calls every allocation is as it should
be (`run_respects_fences`).
-/
import Tidefs.Allocator.Leaks

namespace Tidefs.Allocator

open Ordered Word SpaceMap AllocatorInner List Option

namespace AllocatorInner

variable (s : AllocatorInner)

/-- The byte offset of the block lies on a fenced device. -/
def OnFenced (b : ℕ) : Prop :=
  ∃ start id len, (start, id, len) ∈ s.deviceExtents.entries ∧ id ∈ s.fencedDevices ∧
    start ≤ b * s.blockSize ∧ b * s.blockSize < start + len

/-- An allocation that succeeds stays off the fenced devices and leaves the
reserve, which no call changes. -/
def Respects (s s' : AllocatorInner) (out : Outcome) : Prop :=
  out.granted = true → (∀ b ∈ out.handedOut, ¬ s.OnFenced b) ∧ s.rootReserve ≤ s'.bitmap.freeCount

/-! ### When a call is safe -/

def ReserveLeft : Prop := s.rootReserve ≤ s.bitmap.freeCount

/-- The request passes admission. -/
def Admitted (n : ℕ) : Prop := n ≤ s.bitmap.freeCount - s.rootReserve

/-- For a search around the fences: the fenced blocks it could take are known. -/
def Recognised (n : ℕ) : Prop :=
  s.Admitted n → ∀ b ∈ s.bitmap.freeSet, s.OnFenced b → s.fenced b = true

/-- For a search that does not look at the fences: no run that it could take
meets a fenced device. -/
def RunsAvoid (n : ℕ) : Prop :=
  s.Admitted n → ∀ first, (∀ b ∈ FreeBlockBitmap.cyclic s.bitmap.blockCount first n, b ∈ s.bitmap.freeSet) →
    ∀ b ∈ FreeBlockBitmap.cyclic s.bitmap.blockCount first n, ¬ s.OnFenced b

/-- For the aligned attempt: the run is not all free, or it is off the fenced
devices and leaves the reserve. -/
def AlignedSafe (start n : ℕ) : Prop :=
  (∀ b ∈ List.range' start n, b ∈ s.bitmap.freeSet) →
    (∀ b ∈ List.range' start n, ¬ s.OnFenced b) ∧ s.rootReserve + n ≤ s.bitmap.freeCount

/-- The condition on a call and the state before it. -/
def FenceSafe : Call → Prop
  | .alloc n | .allocAny n | .allocContiguous n | .reserveAllocation _ n => s.Recognised n
  | .allocate n => (n = 0 → s.ReserveLeft) ∧ s.RunsAvoid n
  | .allocateAligned len =>
    (len = 0 → s.ReserveLeft) ∧ ∀ n, s.blocksForBytes len = some (.ok n) → (n = 0 → s.ReserveLeft) ∧ s.RunsAvoid n
  | .allocBytes len =>
    (len = 0 → s.ReserveLeft) ∧ ∀ n, s.blocksForBytes len = some (.ok n) → (n = 0 → s.ReserveLeft) ∧
      (∀ start, s.alignedRun n = some (some start) → s.AlignedSafe start n) ∧
      (s.alignedRun n = some none → s.Recognised n)
  | .allocBytesAt offset len =>
    (len = 0 → s.ReserveLeft) ∧
      ∀ n, s.blocksForExtent offset len = some (.ok n) → (n = 0 → s.ReserveLeft) ∧ s.Recognised n
  | _ => True

variable {s s' : AllocatorInner} {len n : ℕ} {r : AllocatorInner × Except AllocError (List ℕ)}

/-- Where the extents do not overlap and end within the 64-bit range, every
fenced block is known. -/
theorem fenced_of_onFenced {b : ℕ} (hdisj : s.deviceExtents.entries.Pairwise fun e e' => e.1 + e.2.2 ≤ e'.1)
    (hmax : ∀ e ∈ s.deviceExtents.entries, e.1 + e.2.2 ≤ u64Max) (h : s.OnFenced b) : s.fenced b = true := by
  obtain ⟨start, id, len, hmem, hid, h1, h2⟩ := h
  have hend := hmax _ hmem
  have hfit : start + len < 2 ^ 64 := by
    have : u64Max < 2 ^ 64 := by decide
    exact lt_of_le_of_lt hend this
  have hoff : wrap64 (b * s.blockSize) = b * s.blockSize := Nat.mod_eq_of_lt (h2.trans hfit)
  have hstop : wrap64 (start + len) = start + len := Nat.mod_eq_of_lt hfit
  -- an extent that starts later starts after the end of this one
  have hlast : s.deviceExtents.lastLE (b * s.blockSize) = some (start, id, len) := by
    rw [OrdMap.lastLE_eq_some]
    refine ⟨hmem, h1, fun e he hle => ?_⟩
    by_contra hgt
    have hne : ((start, id, len) : ℕ × DeviceId × ℕ) ≠ e := fun he' => hgt (he' ▸ le_rfl)
    have hlt : start < e.1 := not_le.mp hgt
    rcases mem_iff_getElem.mp hmem with ⟨i, hi, hie⟩
    rcases mem_iff_getElem.mp he with ⟨j, hj, hje⟩
    rcases lt_trichotomy i j with hij | rfl | hij
    · have := pairwise_iff_getElem.mp hdisj i j hi hj hij
      rw [hie, hje] at this
      dsimp only at this
      omega
    · exact hne (hie.symm.trans hje)
    · have := pairwise_iff_getElem.mp s.deviceExtents.sorted j i hj hi hij
      rw [hie, hje] at this
      exact absurd hlt (not_lt.mpr this.le)
  unfold fenced isBlockFencedInner
  dsimp only
  rw [hoff, hlast]
  simp [hstop, h2, hid]

/-! ### Each call -/

theorem Takes.freeCount (h : Base s) {ids : List ℕ} (ht : Takes s s' ids) :
    s'.bitmap.freeCount + ids.length = s.bitmap.freeCount := by
  have hsub : ids.toFinset ⊆ s.bitmap.freeSet := fun b hb => ht.free b (mem_toFinset.mp hb)
  rw [ht.base.bitmap.count, h.bitmap.count, ht.bitmap, ← toFinset_card_of_nodup ht.nodup]
  exact Finset.card_sdiff_add_card_eq_card hsub

theorem respects_nil (h : s.ReserveLeft) {out : Outcome} (hout : out.handedOut = []) :
    Respects s s out := fun _ => ⟨by simp [hout], h⟩

variable (h : Base s)
include h

/-- A search around the fences takes no block that is known to be fenced. -/
theorem aware_respects {ids : List ℕ} (hsafe : s.Recognised n) (ht : Takes s s' ids) (ha : Aware s n s' ids) :
    (∀ b ∈ ids, ¬ s.OnFenced b) ∧ s.rootReserve ≤ s'.bitmap.freeCount := by
  obtain ⟨hlen, hskip, hres⟩ := ha
  have hadm : s.Admitted n := by
    have := ht.freeCount h
    unfold Admitted
    omega
  refine ⟨fun b hb hon => ?_, hres⟩
  have hknown := hsafe hadm b (ht.free b hb) hon
  rw [hskip b hb] at hknown
  exact Bool.false_ne_true hknown

theorem AllocCase.respects {leak : Prop} (hc : AllocCase s leak (Aware s n) r) (hsafe : s.Recognised n) :
    Respects s r.1 (.blocks r.2) := by
  cases hc with
  | takes _ ht ha => exact fun _ => aware_respects h hsafe ht ha
  | refuses _ => exact fun hg => Bool.noConfusion hg
  | loses _ _ => exact fun hg => Bool.noConfusion hg

theorem allocate_respects (hzero : n = 0 → s.ReserveLeft)
    (hsafe : s.RunsAvoid n) : Respects s (s.allocate n).1 (.result (s.allocate n).2) := by
  rcases allocate_case h n with ⟨h0, e⟩ | ⟨s', first, -, e, ht, hres⟩ | ⟨largest, e⟩
  · rw [e]
    exact respects_nil (hzero h0) rfl
  · rw [e]
    have hadm : s.Admitted n := by
      have := ht.freeCount h
      rw [FreeBlockBitmap.cyclic_length] at this
      unfold Admitted
      omega
    exact fun _ => ⟨hsafe hadm first ht.free, hres⟩
  · rw [e]
    exact fun hg => Bool.noConfusion hg

theorem allocAligned_respects {start : ℕ} (hsafe : s.AlignedSafe start n) :
    Respects s (s.allocAligned start n).1 (.blocks (s.allocAligned start n).2) := by
  have hc := allocAligned_case h start n
  generalize s.allocAligned start n = r at hc
  cases hc with
  | takes _ ht hg =>
    obtain ⟨rfl, hcount⟩ := hg
    obtain ⟨h1, h2⟩ := hsafe ht.free
    exact fun _ => ⟨h1, le_of_add_le_add_right (h2.trans hcount.ge)⟩
  | refuses _ => exact fun hg => Bool.noConfusion hg
  | loses hf _ => exact absurd hf not_false

theorem allocateAligned_respects (hsafe : s.FenceSafe (.allocateAligned len))
    {r : AllocatorInner × Except AllocError AllocResult} (hr : s.allocateAligned len = some r) :
    Respects s r.1 (.result r.2) := by
  cases request_of_map hr with
  | empty hnone => exact respects_nil (hnone.elim hsafe.1 fun hplan => (hsafe.2 0 hplan).1 rfl) rfl
  | refused => exact fun hg => Bool.noConfusion hg
  | blocks _ hplan hsearch =>
    obtain ⟨hn, havoid⟩ := hsafe.2 _ hplan
    exact hsearch ▸ allocate_respects h hn havoid

theorem allocBytes_respects (hsafe : s.FenceSafe (.allocBytes len)) (hr : s.allocBytes len = some r) :
    Respects s r.1 (.blocks r.2) := by
  cases allocBytes_request hr with
  | empty hnone => exact respects_nil (hnone.elim hsafe.1 fun hplan => (hsafe.2 0 hplan).1 rfl) rfl
  | refused => exact fun hg => Bool.noConfusion hg
  | blocks _ hplan hsearch =>
    obtain ⟨-, haligned, haware⟩ := hsafe.2 _ hplan
    rcases hsearch with ⟨start, hrun, rfl⟩ | ⟨hrun, rfl⟩
    · exact allocAligned_respects h (haligned start hrun)
    · exact (admitThen_case h (searchBlocks_result h _)).respects h (haware hrun)

theorem allocBytesAt_respects {offset : ℕ} (hsafe : s.FenceSafe (.allocBytesAt offset len))
    (hr : s.allocBytesAt offset len = some r) : Respects s r.1 (.blocks r.2) := by
  cases request_of_map hr with
  | empty hnone => exact respects_nil (hnone.elim hsafe.1 fun hplan => (hsafe.2 0 hplan).1 rfl) rfl
  | refused => exact fun hg => Bool.noConfusion hg
  | blocks _ hplan hsearch => exact hsearch ▸ (allocLocked_case h _).respects h (hsafe.2 _ hplan).2

theorem reserveAllocation_respects (fence : CommitGroupEpochFence) (hsafe : s.Recognised n) :
    Respects s (s.reserveAllocation fence n).1 (.reservation (s.reserveAllocation fence n).2) := by
  have hc := allocLocked_case h n
  unfold reserveAllocation
  split_ifs with hv
  · exact fun hg => Bool.noConfusion hg
  · generalize s.allocLocked n = r at hc
    cases hc with
    | takes _ ht ha =>
      have hr := aware_respects h hsafe ht ha
      exact fun _ => hr
    | refuses _ => exact fun hg => Bool.noConfusion hg
    | loses _ _ => exact fun hg => Bool.noConfusion hg

/-- A safe call does as it should. -/
theorem step_respects {call : Call} (hsafe : s.FenceSafe call) {out : Outcome}
    {trims : List TrimRequest} (hs : step s call = some (s', out, trims)) : Respects s s' out := by
  cases call with
  | alloc n => cases hs; exact (allocLocked_case h n).respects h hsafe
  | allocAny n => cases hs; exact (allocAny_case h n).respects h hsafe
  | allocContiguous n => cases hs; exact (allocContiguous_case h n).respects h hsafe
  | allocate n => cases hs; exact allocate_respects h hsafe.1 hsafe.2
  | allocateAligned len =>
    obtain ⟨r, hr, he⟩ := map_eq_some_iff.mp hs
    cases he
    exact allocateAligned_respects h hsafe hr
  | allocBytes len =>
    obtain ⟨r, hr, he⟩ := map_eq_some_iff.mp hs
    cases he
    exact allocBytes_respects h hsafe hr
  | allocBytesAt offset len =>
    obtain ⟨r, hr, he⟩ := map_eq_some_iff.mp hs
    cases he
    exact allocBytesAt_respects h hsafe hr
  | reserveAllocation fence n => cases hs; exact reserveAllocation_respects h fence hsafe
  | _ => cases hs; exact fun hg => Bool.noConfusion hg

end AllocatorInner

/-! ### Whole runs -/

/-- **In a run of safe calls every allocation stays off the fenced devices and
leaves the reserve.** -/
theorem run_respects_fences (o : Origin) (hw : o.blockCount ≤ u64Max) (s₀ : AllocatorInner) (h₀ : o.build = some s₀)
    (calls : List Call) (hsafe : ∀ done call s, done ++ [call] <+: calls → Run s₀ done s → s.FenceSafe call)
    (done : List Call) (call : Call) (hpre : done ++ [call] <+: calls) (s s' : AllocatorInner) (hrun : Run s₀ done s)
    (out : Outcome) (trims : List TrimRequest) (hstep : step s call = some (s', out, trims))
    (hgranted : out.granted = true) : (∀ b ∈ out.handedOut, ¬ s.OnFenced b) ∧ s.rootReserve ≤ s'.bitmap.freeCount :=
  step_respects (hrun.base (Origin.base hw h₀)) (hsafe done call s hpre hrun) hstep hgranted

/-- Blocks 0 and 1 are on the fenced device of the pool, and only these. -/
theorem onFenced_halfFenced {s₀ s : AllocatorInner} (h₀ : fourBlocks.build = some s₀)
    (hr : runCalls s₀ halfFenced = some s) (b : ℕ) : s.OnFenced b ↔ b < 2 := by
  have hall : (fourBlocks.build.bind fun s₀ => (runCalls s₀ halfFenced).map fun s =>
      (s.deviceExtents.entries, s.blockSize)) = some ([(0, 1, 8192)], 4096) := by decide +kernel
  have hid : (fourBlocks.build.bind fun s₀ => (runCalls s₀ halfFenced).map fun s =>
      decide (1 ∈ s.fencedDevices)) = some true := by decide +kernel
  rw [h₀, bind_some, hr, map_some, Option.some.injEq] at hall hid
  obtain ⟨h1, h2⟩ := Prod.mk.inj hall
  have h3 := of_decide_eq_true hid
  unfold OnFenced
  rw [h1, h2]
  constructor
  · intro h
    obtain ⟨start, id, len, hmem, -, h4, h5⟩ := h
    obtain ⟨rfl, rfl, rfl⟩ : start = 0 ∧ id = 1 ∧ len = 8192 := by simpa using hmem
    omega
  · intro h
    exact ⟨0, 1, 8192, by simp, h3, by omega, by omega⟩

/-- `allocate` takes the two blocks of a fenced device. -/
theorem allocate_on_fenced : ∃ s s' out trims, Reachable s ∧ step s (.allocate 2) = some (s', out, trims) ∧
    out.granted = true ∧ ∃ b ∈ out.handedOut, s.OnFenced b := by
  obtain ⟨s₀, s, hb, hr, hreach, hrun⟩ := @exists_run halfFenced _ (fun s => (step s (.allocate 2)).map fun r =>
    (r.2.1.granted, r.2.1.handedOut)) (true, [0, 1]) (by decide +kernel)
  obtain ⟨⟨s', out, trims⟩, hstep, h3⟩ := map_eq_some_iff.mp hrun
  obtain ⟨h4, h5⟩ := Prod.mk.inj h3
  exact ⟨s, s', out, trims, hreach, hstep, h4, 0, by simp [h5], (onFenced_halfFenced hb hr 0).mpr (by decide)⟩

/-- `alloc` on the same pool takes the two blocks of the other device. -/
theorem run_respects_fences_alloc : ∃ s₀ s s' out trims, fourBlocks.build = some s₀ ∧ Run s₀ halfFenced s ∧
    step s (.alloc 2) = some (s', out, trims) ∧ out.granted = true ∧
    (∀ b ∈ out.handedOut, ¬ s.OnFenced b) ∧ s.rootReserve ≤ s'.bitmap.freeCount := by
  obtain ⟨s₀, s, hb, hr, -, hall⟩ := @exists_run halfFenced _ (fun s => (step s (.alloc 2)).map fun r =>
    (r.2.1.granted, s.deviceExtents.entries)) (true, [(0, 1, 8192)]) (by decide +kernel)
  obtain ⟨⟨s', out, trims⟩, hstep, h3⟩ := map_eq_some_iff.mp hall
  obtain ⟨h4, h5⟩ := Prod.mk.inj h3
  have hrun := run_of_runCalls _ hr
  refine ⟨s₀, s, s', out, trims, hb, hrun, hstep, h4, ?_⟩
  refine run_respects_fences fourBlocks (by decide) s₀ hb (halfFenced ++ [.alloc 2]) ?_ halfFenced (.alloc 2)
    (prefix_refl _) s s' hrun out trims hstep h4
  -- only the last of the three calls allocates, and one extent overlaps nothing
  intro done call t hpre hrun'
  obtain ⟨rest, hrest⟩ := hpre
  match done, hrest with
  | [], hrest =>
    obtain ⟨rfl, -⟩ : call = _ ∧ _ := by simpa [halfFenced] using hrest
    trivial
  | [c], hrest =>
    obtain ⟨-, rfl, -⟩ : c = _ ∧ call = _ ∧ _ := by simpa [halfFenced] using hrest
    trivial
  | [c, d], hrest =>
    obtain ⟨rfl, rfl, rfl, -⟩ : c = _ ∧ d = _ ∧ call = _ ∧ rest = [] := by simpa [halfFenced] using hrest
    obtain rfl : t = s := some.inj (hrun'.runCalls_eq.symm.trans hr)
    intro _ b _ hon
    exact fenced_of_onFenced (by simp [h5]) (by rw [h5]; decide) hon
  | c :: d :: e :: l, hrest =>
    have hlen := congrArg List.length hrest
    simp [halfFenced] at hlen

end Tidefs.Allocator
