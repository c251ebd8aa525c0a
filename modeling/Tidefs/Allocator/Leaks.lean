/-
# Failed allocations and the two records of free space

A run starts from an empty allocator or from a persisted word vector and goes
on call by call. The only calls that leave a mark when they fail are the
scattered searches around fenced devices (`Leaks`): the bitmap loses every
block they passed over, the free-space map keeps it. So a failing call leaves
the bitmap as it was exactly if it does not leak (`err_keeps_bitmap_iff`), and
the two records agree along a run exactly if the persisted words cover the
bitmap and no call of the run leaks (`synced_along_run_iff`).
-/
import Tidefs.Allocator.Effects

namespace Tidefs.Allocator

open Ordered Word SpaceMap AllocatorInner List Option FreeBlockBitmap

/-! ### Runs -/

/-- How an allocator comes about. -/
inductive Origin where
  | fresh (blockCount blockSize : ℕ) (region : Region) (topology : AllocatorTopology) (rootReserve : ℕ)
  | restored (blockCount blockSize : ℕ) (region : Region) (words : List (BitVec 64)) (topology : AllocatorTopology)
      (rootReserve : ℕ)

namespace Origin

def build : Origin → Option AllocatorInner
  | .fresh blockCount blockSize region topology rootReserve =>
    withTopology blockCount blockSize region topology rootReserve
  | .restored blockCount blockSize region words topology rootReserve =>
    fromPersistedWithTopology blockCount blockSize region words topology rootReserve

def blockCount : Origin → ℕ
  | .fresh blockCount .. | .restored blockCount .. => blockCount

/-- The persisted words, if any, are as many as the bitmap needs. -/
def Complete : Origin → Prop
  | .fresh .. => True
  | .restored blockCount _ _ words _ _ => FreeBlockBitmap.wordCountFor blockCount ≤ words.length

end Origin

/-- The calls, none of which panics, lead from one state to another. -/
inductive Run : AllocatorInner → List Call → AllocatorInner → Prop
  | nil (s : AllocatorInner) : Run s [] s
  | cons {s s' t : AllocatorInner} {call : Call} {calls : List Call} {out : Outcome} {trims : List TrimRequest} :
    step s call = some (s', out, trims) → Run s' calls t → Run s (call :: calls) t

/-- The states an allocator can be in. The block count is a 64-bit word. -/
def Reachable (s : AllocatorInner) : Prop :=
  ∃ (o : Origin) (s₀ : AllocatorInner) (calls : List Call), o.blockCount ≤ u64Max ∧ o.build = some s₀ ∧ Run s₀ calls s

variable {s t : AllocatorInner}

theorem Origin.base {o : Origin} (hw : o.blockCount ≤ u64Max) (h : o.build = some s) : Base s := by
  cases o with
  | fresh => exact (withTopology_spec hw h).1
  | restored => exact (fromPersistedWithTopology_spec hw h).1

theorem Run.base {calls : List Call} (h : Run s calls t) (hs : Base s) : Base t := by
  induction h with
  | nil => exact hs
  | cons h1 _ ih => exact ih ((step_effect hs h1).base hs)

theorem Reachable.base (h : Reachable s) : Base s := by
  obtain ⟨o, s₀, calls, hw, hb, hr⟩ := h
  exact hr.base (Origin.base hw hb)

theorem Run.append {u : AllocatorInner} {l l' : List Call} (h : Run s l t) (h' : Run t l' u) : Run s (l ++ l') u := by
  induction h with
  | nil => exact h'
  | cons h1 _ ih => exact .cons h1 (ih h')

theorem Run.concat : ∀ {l : List Call} {s u : AllocatorInner} {call : Call}, Run s (l ++ [call]) u →
    ∃ t, Run s l t ∧ ∃ out trims, step t call = some (u, out, trims)
  | [], s, u, call, h => by
    cases h with
    | cons h1 h2 => cases h2; exact ⟨s, .nil s, _, _, h1⟩
  | c :: l, s, u, call, h => by
    cases h with
    | cons h1 h2 =>
      obtain ⟨t, h3, h4⟩ := h2.concat
      exact ⟨t, .cons h1 h3, h4⟩

/-- The state after the calls, as a function. -/
def runCalls (s : AllocatorInner) : List Call → Option AllocatorInner
  | [] => some s
  | call :: calls => (step s call).bind fun r => runCalls r.1 calls

theorem run_of_runCalls : ∀ (calls : List Call) {s t : AllocatorInner}, runCalls s calls = some t → Run s calls t
  | [], s, t, h => by
    obtain rfl := some.inj h
    exact .nil s
  | call :: calls, s, t, h => by
    obtain ⟨⟨s', out, trims⟩, h1, h2⟩ := bind_eq_some_iff.mp h
    exact .cons h1 (run_of_runCalls calls h2)

theorem Run.runCalls_eq {calls : List Call} (h : Run s calls t) : runCalls s calls = some t := by
  induction h with
  | nil => rfl
  | cons h1 _ ih => exact bind_eq_some_iff.mpr ⟨_, h1, ih⟩

/-! ### Failing calls -/

/-- A call that leaks does not panic. -/
theorem step_of_leaks {call : Call} (h : s.Leaks call) : ∃ s' out trims, step s call = some (s', out, trims) := by
  cases call with
  | alloc | allocAny | reserveAllocation => exact ⟨_, _, _, rfl⟩
  | allocBytes len =>
    obtain ⟨h0, n, h1, h2, h3⟩ := h
    have hn : n ≠ 0 := h3.2.1.ne'
    have he : s.allocBytes len = some (s.admitThen n (s.searchBlocks n)) := by
      unfold allocBytes
      rw [if_neg h0, h1]
      dsimp only
      rw [if_neg hn, h2]
      rfl
    exact ⟨_, _, _, map_eq_some_iff.mpr ⟨_, he, rfl⟩⟩
  | allocBytesAt offset len =>
    obtain ⟨h0, n, h1, h3⟩ := h
    have he : s.allocBytesAt offset len = some (s.alloc n) := by
      unfold allocBytesAt
      rw [if_neg h0, h1]
      simp [h3.2.1.ne']
    exact ⟨_, _, _, map_eq_some_iff.mpr ⟨_, he, rfl⟩⟩
  | _ => exact absurd h not_false

theorem AllocatorInner.Loses.bitmap_ne {s' : AllocatorInner} (h : Loses s s') : s'.bitmap ≠ s.bitmap := by
  intro he
  obtain ⟨b, hb⟩ := h.some
  have hfree : b ∈ s'.bitmap.freeSet := he ▸ (mem_usableSet.mp hb).1
  rw [h.bitmap] at hfree
  exact (Finset.mem_sdiff.mp hfree).2 hb

/-- **A failing allocation leaves the bitmap as it was exactly if it does not
leak.** -/
theorem err_keeps_bitmap_iff (s : AllocatorInner) (hs : Reachable s) (call : Call) (hcall : call.allocates = true) :
    (∀ s' out trims, step s call = some (s', out, trims) → out.isErr = true → s'.bitmap = s.bitmap) ↔
      ¬ s.Leaks call := by
  constructor
  · intro h hl
    obtain ⟨s', out, trims, hstep⟩ := step_of_leaks hl
    cases step_effect hs.base hstep with
    | loses _ h1 h2 _ => exact h1.bitmap_ne (h s' out trims hstep h2)
    | takes h1 => exact h1 hl
    | keeps h1 => exact h1 hl
    | frees h1 => rw [hcall] at h1; exact Bool.noConfusion h1
  · intro hl s' out trims hstep herr
    cases step_effect hs.base hstep with
    | loses h1 => exact absurd h1 hl
    | takes _ _ h1 => rw [herr] at h1; exact Bool.noConfusion h1
    | keeps _ h1 => rw [h1]
    | frees h1 => rw [hcall] at h1; exact Bool.noConfusion h1

/-! ### A bitmap half of which is fenced -/

/-- The answer of every device in the runs below. -/
def plainDevice : DeviceTopology := ⟨512, 512, 0, 0, 0⟩

/-- Four blocks of 4096 bytes. Blocks 0 and 1 are on device 1, which is fenced. -/
def halfFenced : List Call := [.registerDevice 1 plainDevice 0 8192, .fenceDevice 1]

def fourBlocks : Origin := .fresh 4 4096 ⟨0, 8⟩ AllocatorTopology.default 0

/-- A run on the four blocks, and what is computed of the state after it. -/
theorem exists_run (calls : List Call) {α : Type} (f : AllocatorInner → Option α) {v : α}
    (h : (fourBlocks.build.bind fun s₀ => (runCalls s₀ calls).bind f) = some v) :
    ∃ s₀ s, fourBlocks.build = some s₀ ∧ runCalls s₀ calls = some s ∧ Reachable s ∧ f s = some v := by
  obtain ⟨s₀, hb, h1⟩ := bind_eq_some_iff.mp h
  obtain ⟨s, hr, h2⟩ := bind_eq_some_iff.mp h1
  exact ⟨s₀, s, hb, hr, ⟨fourBlocks, s₀, calls, by decide, hb, run_of_runCalls _ hr⟩, h2⟩

/-- Three blocks asked for, two usable: the call fails and both are gone. -/
theorem alloc_three_leaks : ∃ s, Reachable s ∧
    ¬ ∀ s' out trims, step s (.alloc 3) = some (s', out, trims) → out.isErr = true → s'.bitmap = s.bitmap := by
  obtain ⟨-, s, -, -, hreach, hrun⟩ := @exists_run halfFenced _ (fun s => (step s (.alloc 3)).map fun r =>
    (s.bitmap.freeCount, r.2.1.isErr, r.1.bitmap.freeCount)) (4, true, 2) (by decide +kernel)
  obtain ⟨⟨s', out, trims⟩, hstep, h3⟩ := map_eq_some_iff.mp hrun
  simp only [Prod.mk.injEq] at h3
  obtain ⟨h4, h5, h6⟩ := h3
  refine ⟨s, hreach, fun h => ?_⟩
  rw [h s' out trims hstep h5, h4] at h6
  exact absurd h6 (by decide)

/-- Five blocks are more than there are: the call is refused before any search. -/
theorem err_keeps_bitmap_five : ∃ s s' out trims, Reachable s ∧ step s (.alloc 5) = some (s', out, trims) ∧
    out.isErr = true ∧ s'.bitmap = s.bitmap := by
  obtain ⟨-, s, -, -, hreach, hrun⟩ := @exists_run halfFenced _ (fun s => (step s (.alloc 5)).map fun r =>
    (r.2.1.isErr, s.bitmap.freeCount)) (true, 4) (by decide +kernel)
  obtain ⟨⟨s', out, trims⟩, hstep, hout⟩ := map_eq_some_iff.mp hrun
  obtain ⟨herr, hcount⟩ := Prod.mk.inj hout
  refine ⟨s, s', out, trims, hreach, hstep, herr, ?_⟩
  refine (err_keeps_bitmap_iff s hreach (.alloc 5) rfl).mpr ?_ s' out trims hstep herr
  rintro ⟨hfits, -⟩
  omega

/-! ### The two records -/

/-- A block is free in the free-space map exactly if it is free in the bitmap. -/
def Synced (s : AllocatorInner) : Prop := ∀ b, s.spacemap.isFree b = s.bitmap.isFree b

theorem synced_iff (h : Base s) : Synced s ↔ ∀ b, b ∈ s.spacemap.freeSet ↔ b ∈ s.bitmap.freeSet := by
  refine forall_congr' fun b => ?_
  rw [Bool.eq_iff_iff, SegmentFreeMap.isFree_iff h.spacemap, mem_freeSet]

/-- From a state in which the records agree, they agree after the call exactly
if it does not leak. -/
theorem synced_step_iff {s' : AllocatorInner} (h : Base s) (hsync : Synced s) {call : Call} {out : Outcome}
    {trims : List TrimRequest} (hs : step s call = some (s', out, trims)) : Synced s' ↔ ¬ s.Leaks call := by
  have he := step_effect h hs
  rw [synced_iff (he.base h)]
  rw [synced_iff h] at hsync
  cases he with
  | takes h1 h2 _ =>
    refine iff_of_true (fun b => ?_) h1
    rw [h2.spacemap, h2.bitmap, Set.mem_sdiff, Finset.mem_sdiff, hsync, List.mem_toFinset]
    rfl
  | keeps h1 h2 _ => subst h2; exact iff_of_true hsync h1
  | loses h1 h2 _ _ =>
    refine iff_of_false (fun hall => ?_) (not_not.mpr h1)
    obtain ⟨b, hb⟩ := h2.some
    have hfree : b ∈ s'.bitmap.freeSet := (hall b).mp (h2.spacemap ▸ (hsync b).mpr (mem_usableSet.mp hb).1)
    rw [h2.bitmap] at hfree
    exact (Finset.mem_sdiff.mp hfree).2 hb
  | frees h1 h2 _ =>
    refine iff_of_true (fun b => ?_) (not_leaks_of_not_allocates h1)
    rw [h2.spacemap, h2.bitmap, hsync]

/-- At the start the records agree exactly if the persisted words cover the bitmap. -/
theorem synced_build_iff {o : Origin} (hw : o.blockCount ≤ u64Max) (h : o.build = some s) : Synced s ↔ o.Complete := by
  rw [synced_iff (Origin.base hw h)]
  cases o with
  | fresh blockCount blockSize region topology rootReserve =>
    obtain ⟨-, fm, rfl, hfree⟩ := withTopology_spec hw h
    refine iff_of_true (fun b => ?_) trivial
    show b ∈ fm.freeSet ↔ b ∈ (FreeBlockBitmap.new blockCount).freeSet
    rw [hfree, (new_spec blockCount).2.2, Finset.mem_range]
    rfl
  | restored blockCount blockSize region words topology rootReserve =>
    obtain ⟨-, fm, rfl, hfree⟩ := fromPersistedWithTopology_spec hw h
    have hset : ∀ b, (b ∈ fm.freeSet ↔ b ∈ (fromWords blockCount words).freeSet) ↔
        (b < blockCount → b / 64 < words.length) := fun b => by
      rw [hfree, (fromWords_spec blockCount words).2.2, Set.mem_ofPred_eq, persistedFree_eq]
      tauto
    show (∀ b, b ∈ fm.freeSet ↔ b ∈ (fromWords blockCount words).freeSet) ↔
      wordCountFor blockCount ≤ words.length
    simp only [hset, wordCountFor, divCeil_le_iff (show 0 < 64 by decide)]
    constructor
    · intro hall
      by_contra hlt
      -- the first block of the first missing word
      have := hall (words.length * 64) (by omega)
      omega
    · intro hle b hb
      omega

/-- **The two records of free space agree along a run exactly if the persisted
words cover the bitmap and no call leaks.** -/
theorem synced_along_run_iff (o : Origin) (hw : o.blockCount ≤ u64Max) (s₀ : AllocatorInner) (h₀ : o.build = some s₀)
    (calls : List Call) : (∀ done s, done <+: calls → Run s₀ done s → Synced s) ↔
      o.Complete ∧ ∀ done call s, done ++ [call] <+: calls → Run s₀ done s → ¬ s.Leaks call := by
  have hbase := Origin.base hw h₀
  constructor
  · intro hall
    refine ⟨(synced_build_iff hw h₀).mp (hall [] s₀ ⟨calls, rfl⟩ (.nil s₀)), fun done call s hpre hrun hl => ?_⟩
    obtain ⟨s', out, trims, hstep⟩ := step_of_leaks hl
    have hs := hall done s ((prefix_append done [call]).trans hpre) hrun
    have hs' := hall (done ++ [call]) s' hpre (hrun.append (.cons hstep (.nil s')))
    exact (synced_step_iff (hrun.base hbase) hs hstep).mp hs' hl
  · rintro ⟨hcomplete, hleak⟩ done
    -- by induction on the calls done, the last one split off
    induction done using List.reverseRecOn with
    | nil =>
      intro s _ hrun
      cases hrun
      exact (synced_build_iff hw h₀).mpr hcomplete
    | append_singleton done call ih =>
      intro s hpre hrun
      obtain ⟨t, hrun', out, trims, hstep⟩ := hrun.concat
      exact (synced_step_iff (hrun'.base hbase) (ih t ((prefix_append done [call]).trans hpre) hrun') hstep).mpr
        (hleak done call t hpre hrun')

/-- A pool of four blocks restored from no words at all: the free-space map has
every block free, the bitmap none. -/
theorem restored_from_nothing : ∃ s, Reachable s ∧ ¬ Synced s := by
  have hrun : ((Origin.restored 4 4096 ⟨0, 8⟩ [] AllocatorTopology.default 0).build.map fun s =>
      (s.spacemap.isFree 0, s.bitmap.isFree 0)) = some (true, false) := by decide +kernel
  obtain ⟨s, hb, h1⟩ := map_eq_some_iff.mp hrun
  obtain ⟨h2, h3⟩ := Prod.mk.inj h1
  refine ⟨s, ⟨_, s, [], by decide, hb, .nil s⟩, fun h => ?_⟩
  rw [h 0, h3] at h2
  exact Bool.false_ne_true h2

/-- Four blocks of which the last was in use when the words were written. -/
def restoredFour : Origin := .restored 4 4096 ⟨0, 8⟩ [~~~7] AllocatorTopology.default 0

/-- Reserved, scheduled for release and aborted; refused, allocated and freed. -/
def mixedCalls : List Call :=
  [.reserveAllocation ⟨1, 1⟩ 2, .freeOnCommit ⟨1, 1⟩ [3], .abortCommitGroup ⟨1, 1⟩, .alloc 5, .alloc 2, .free [0]]

/-- What is free after the first calls, and above the reserve. -/
theorem mixedCalls_free (k : Fin 6) : (restoredFour.build.bind fun s₀ => (runCalls s₀ (mixedCalls.take k)).map fun s =>
    (s.bitmap.freeCount, s.rootReserve, (FreeBlockBitmap.usableSet s.fenced s.bitmap).card)) =
      some ([3, 1, 1, 3, 3, 1].getD k 0, 0, [3, 1, 1, 3, 3, 1].getD k 0) := by
  revert k
  decide +kernel

theorem synced_after_mixedCalls : ∃ s₀ s, restoredFour.build = some s₀ ∧ Run s₀ mixedCalls s ∧ Synced s ∧
    s.bitmap.freeCount = 2 := by
  have hrun : (restoredFour.build.bind fun s₀ => (runCalls s₀ mixedCalls).map fun s => s.bitmap.freeCount) = some 2 := by
    decide +kernel
  obtain ⟨s₀, hb, h1⟩ := bind_eq_some_iff.mp hrun
  obtain ⟨s, hr, hcount⟩ := map_eq_some_iff.mp h1
  refine ⟨s₀, s, hb, run_of_runCalls _ hr, ?_, hcount⟩
  refine (synced_along_run_iff restoredFour (by decide) s₀ hb mixedCalls).mpr ⟨show 1 ≤ 1 by decide, fun done call t hpre hrun => ?_⟩
    mixedCalls s (prefix_refl _) (run_of_runCalls _ hr)
  have hdone : done = mixedCalls.take done.length :=
    prefix_iff_eq_take.mp ((prefix_append done [call]).trans hpre)
  have hcall : mixedCalls[done.length]? = some call := by
    obtain ⟨rest, hrest⟩ := hpre
    rw [← hrest]
    simp
  have hlength : done.length < 6 := hpre.length_le.trans_lt' (by simp)
  have hfree := mixedCalls_free ⟨done.length, hlength⟩
  rw [hb] at hfree
  dsimp only [bind_some] at hfree
  rw [← hdone, hrun.runCalls_eq] at hfree
  obtain ⟨hcount, hrest⟩ := Prod.mk.inj (some.inj hfree)
  obtain ⟨-, husable⟩ := Prod.mk.inj hrest
  clear hdone hfree
  generalize done.length = k at *
  -- the two requests that pass admission find enough, the third is refused
  interval_cases k
  all_goals obtain rfl := some.inj hcall
  · rintro ⟨-, -, -, -, -, hfew⟩
    exact absurd hfew (by rw [husable]; decide)
  · exact id
  · exact id
  · rintro ⟨hfits, -⟩
    exact absurd (hfits.trans (Nat.sub_le _ _)) (by rw [hcount]; decide)
  · rintro ⟨-, -, -, -, hfew⟩
    exact absurd hfew (by rw [husable]; decide)
  · exact id

end Tidefs.Allocator
