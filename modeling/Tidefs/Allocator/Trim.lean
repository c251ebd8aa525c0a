/-
# Discarded ranges

`free` and `mark_commit_group_durable` pass ranges of freed blocks to the trim
sink. The ranges are merged first, across every gap up to the discard threshold,
whatever lies in the gap. A range is therefore a cluster of freed offsets
(`mem_maybeDiscardFreed`), and the ranges cover only free blocks exactly if
every block inside a cluster that is long enough to be discarded is free or is
being freed (`trims_only_free_iff`).
-/
import Tidefs.Lib.Clusters
import Tidefs.Allocator.Leaks

namespace Tidefs.Allocator

open Ordered Word SpaceMap Clusters AllocatorInner List Option FreeBlockBitmap

/-! ### Merged requests -/

/-- How far the merge loop reaches from an offset: past the block and the gap. -/
def bridge (blockSize gap offset : ℕ) : ℕ := satAdd (satAdd offset blockSize) gap

/-- The length of the request for the blocks at the offsets from `a` to `b`. One
block alone keeps its length; a merged request ends within the 64-bit range. -/
def spanLength (blockSize : ℕ) (offsets : List ℕ) (a b : ℕ) : ℕ :=
  if countIn offsets a b = 1 then blockSize else satAdd b blockSize - a

theorem bridge_mono (blockSize gap : ℕ) : Monotone (bridge blockSize gap) := by
  intro x y h
  unfold bridge satAdd
  omega

variable {blockSize : ℕ}

theorem le_bridge {gap x : ℕ} (h : x ≤ u64Max) : x ≤ bridge blockSize gap x := by
  unfold bridge satAdd
  omega

/-- The request of a cluster under way. -/
def requestOf (blockSize : ℕ) (c : ℕ × ℕ × ℕ) : TrimRequest :=
  ⟨c.1, if c.2.2 = 1 then blockSize else satAdd c.2.1 blockSize - c.1⟩

/-- The merge loop sweeps the offsets. -/
theorem mergeRequests_eq (blockSize gap : ℕ) : ∀ (offsets : List ℕ) {first last size : ℕ}, first ≤ last → 0 < size →
    (size = 1 → first = last) → (last :: offsets).Pairwise (· ≤ ·) → (∀ x ∈ last :: offsets, x ≤ u64Max) →
    mergeRequests gap (requestOf blockSize (first, last, size)) (offsets.map fun o => ⟨o, blockSize⟩) =
      (sweep (bridge blockSize gap) first last size offsets).map (requestOf blockSize)
  | [], _, _, _, _, _, _, _, _ => rfl
  | x :: offsets, first, last, size, hle, hsize, hone, hs, hmax => by
    have hlast : last ≤ u64Max := hmax last (mem_cons_self ..)
    rw [pairwise_cons] at hs
    have hx : last ≤ x := hs.1 x (mem_cons_self ..)
    have hxmax : x ≤ u64Max := hmax x (by simp)
    -- the request ends where the last block does
    have hend : satAdd first (requestOf blockSize (first, last, size)).length = satAdd last blockSize := by
      unfold requestOf satAdd
      dsimp only
      split_ifs with h1
      · rw [hone h1]
      · omega
    rw [map_cons, mergeRequests, sweep]
    dsimp only
    have hoff : (requestOf blockSize (first, last, size)).offset = first := rfl
    have hreach : satAdd (satAdd last blockSize) gap = bridge blockSize gap last := rfl
    rw [hoff, hend, hreach]
    split_ifs with hr
    · have hreq : (⟨first, max (satAdd last blockSize) (satAdd x blockSize) - first⟩ : TrimRequest) =
          requestOf blockSize (first, x, size + 1) := by
        have hmaxeq : max (satAdd last blockSize) (satAdd x blockSize) = satAdd x blockSize := by
          unfold satAdd
          omega
        have hsize' : size + 1 ≠ 1 := by omega
        rw [hmaxeq, requestOf, if_neg hsize']
      rw [hreq]
      apply mergeRequests_eq blockSize gap offsets (hle.trans hx) (by omega) (by omega) hs.2
      exact fun y hy => hmax y (mem_cons_of_mem _ hy)
    · rw [map_cons]
      have hreq : (⟨x, blockSize⟩ : TrimRequest) = requestOf blockSize (x, x, 1) := rfl
      rw [hreq]
      congr 1
      apply mergeRequests_eq blockSize gap offsets le_rfl Nat.one_pos (fun _ => rfl) hs.2
      exact fun y hy => hmax y (mem_cons_of_mem _ hy)

/-- The coalesced requests are the clusters of the offsets. -/
theorem mem_coalesceTrimRequests {gap : ℕ} {offsets : List ℕ} (hmax : ∀ x ∈ offsets, x ≤ u64Max)
    {req : TrimRequest} : req ∈ coalesceTrimRequests (offsets.map fun o => ⟨o, blockSize⟩) gap ↔
      ∃ a b, IsCluster (bridge blockSize gap) offsets a b ∧ req = ⟨a, spanLength blockSize offsets a b⟩ := by
  -- sorting the requests sorts their offsets
  have hsort : (offsets.map fun o => (⟨o, blockSize⟩ : TrimRequest)).insertionSort (fun a b => a.offset ≤ b.offset) =
      (offsets.insertionSort (· ≤ ·)).map fun o => ⟨o, blockSize⟩ := by
    symm
    apply map_insertionSort
    exact fun _ _ _ _ => Iff.rfl
  have hpoints : (offsets.insertionSort (· ≤ ·)).Perm offsets := perm_insertionSort _ _
  have hpair : (offsets.insertionSort (· ≤ ·)).Pairwise (· ≤ ·) := pairwise_insertionSort _ _
  unfold coalesceTrimRequests
  rw [hsort]
  cases hl : offsets.insertionSort (· ≤ ·) with
  | nil =>
    have hnil : offsets = [] := by
      rw [hl] at hpoints
      exact perm_nil.mp hpoints.symm
    subst hnil
    simp only [map_nil, not_mem_nil, false_iff, not_exists]
    exact fun a b h => absurd h.1.first (by simp)
  | cons x rest =>
    have hperm' : (x :: rest).Perm offsets := hl ▸ hpoints
    have hmax' : ∀ y ∈ x :: rest, y ≤ u64Max := fun y hy => hmax y (hperm'.mem_iff.mp hy)
    have hs : (x :: rest).Pairwise (· ≤ ·) := hl ▸ hpair
    have hmerge := mergeRequests_eq blockSize gap rest (le_refl x) Nat.one_pos (fun _ => rfl) hs hmax'
    have hreq : (⟨x, blockSize⟩ : TrimRequest) = requestOf blockSize (x, x, 1) := rfl
    simp only [map_cons]
    rw [hreq, hmerge, List.mem_map]
    constructor
    · intro h
      obtain ⟨⟨a, b, n⟩, hmem, rfl⟩ := h
      obtain ⟨h1, rfl⟩ := (mem_sweep (bridge_mono _ _) hs fun y hy => le_bridge (hmax' y hy)).mp hmem
      refine ⟨a, b, (IsCluster.of_perm hperm').mp h1, ?_⟩
      rw [requestOf, spanLength, countIn_perm hperm']
    · intro h
      obtain ⟨a, b, h1, rfl⟩ := h
      refine ⟨(a, b, countIn (x :: rest) a b), ?_, ?_⟩
      · exact (mem_sweep (bridge_mono _ _) hs fun y hy => le_bridge (hmax' y hy)).mpr
          ⟨(IsCluster.of_perm hperm').mpr h1, rfl⟩
      · rw [requestOf, spanLength, countIn_perm hperm']

/-! ### The ranges of a call -/

/-- The block has a byte in the range. -/
def Touches (blockSize : ℕ) (req : TrimRequest) (x : ℕ) : Prop :=
  ∃ p, req.offset ≤ p ∧ p < req.offset + req.length ∧ x * blockSize ≤ p ∧ p < x * blockSize + blockSize

/-- The calls that discard what they free. -/
def Call.discards : Call → Bool
  | .free _ | .markCommitGroupDurable _ => true
  | _ => false

namespace AllocatorInner

/-- The offsets of the blocks, as 64-bit words. -/
def offsetsOf (s : AllocatorInner) (blocks : List ℕ) : List ℕ := blocks.map fun id => wrap64 (id * s.blockSize)

/-- The freed offsets from `a` to `b` are discarded as one range. -/
structure Discards (s : AllocatorInner) (blocks : List ℕ) (a b : ℕ) : Prop where
  sink : s.trimSink.isSome = true
  enabled : s.minDiscardBytes ≠ u64Max
  cluster : IsCluster (bridge s.blockSize s.minDiscardBytes) (s.offsetsOf blocks) a b
  long : s.minDiscardBytes ≤ spanLength s.blockSize (s.offsetsOf blocks) a b

variable {s : AllocatorInner} {blocks : List ℕ}

theorem offsetsOf_le {x : ℕ} (h : x ∈ s.offsetsOf blocks) : x ≤ u64Max := by
  obtain ⟨id, -, rfl⟩ := List.mem_map.mp h
  have := Nat.mod_lt (id * s.blockSize) (show 0 < 2 ^ 64 by decide)
  unfold wrap64 u64Max
  omega

variable {req : TrimRequest}

theorem mem_maybeDiscardFreed : req ∈ (s.maybeDiscardFreed blocks).2 ↔
      ∃ a b, s.Discards blocks a b ∧ req = ⟨a, spanLength s.blockSize (s.offsetsOf blocks) a b⟩ := by
  have hraw : (blocks.map fun id => (⟨wrap64 (id * s.blockSize), s.blockSize⟩ : TrimRequest)) =
      (s.offsetsOf blocks).map fun o => ⟨o, s.blockSize⟩ := by
    rw [offsetsOf, List.map_map]
    rfl
  have hmem := @mem_coalesceTrimRequests s.blockSize s.minDiscardBytes (s.offsetsOf blocks) (fun _ => offsetsOf_le) req
  unfold maybeDiscardFreed
  rw [hraw]
  cases hsink : s.trimSink with
  | none =>
    simp only [not_mem_nil, false_iff, not_exists]
    intro a b h
    exact absurd h.1.sink (by simp [hsink])
  | some sink =>
    dsimp only
    split_ifs with h0
    · simp only [not_mem_nil, false_iff, not_exists]
      intro a b h
      rcases h0 with h0 | h0
      · exact h.1.enabled h0
      · exact absurd h.1.cluster.first (by simp [h0, offsetsOf])
    · rw [mem_filter, hmem, decide_eq_true_eq]
      constructor
      · intro h
        obtain ⟨⟨a, b, h1, rfl⟩, h2⟩ := h
        exact ⟨a, b, ⟨by simp [hsink], fun he => h0 (Or.inl he), h1, h2⟩, rfl⟩
      · intro h
        obtain ⟨a, b, h1, rfl⟩ := h
        exact ⟨⟨a, b, h1.cluster, rfl⟩, h1.long⟩

theorem mem_trims {s' : AllocatorInner} {call : Call} (hcall : call.discards = true) {out : Outcome}
    {trims : List TrimRequest} (hs : step s call = some (s', out, trims)) :
    req ∈ trims ↔ ∃ a b, s.Discards (s.freedBy call) a b ∧
      req = ⟨a, spanLength s.blockSize (s.offsetsOf (s.freedBy call)) a b⟩ := by
  -- what the call changes before it discards is not read by it
  have hkeep : ∀ (t : AllocatorInner) (blocks : List ℕ), t.trimSink = s.trimSink → t.blockSize = s.blockSize →
      t.minDiscardBytes = s.minDiscardBytes → (t.maybeDiscardFreed blocks).2 = (s.maybeDiscardFreed blocks).2 := by
    intro t blocks h1 h2 h3
    unfold maybeDiscardFreed
    rw [h1, h2, h3]
    cases s.trimSink with
    | none => rfl
    | some sink =>
      dsimp only
      split_ifs <;> rfl
  rw [← mem_maybeDiscardFreed]
  cases call with
  | free blocks =>
    obtain ⟨-, -, rfl⟩ : _ ∧ _ ∧ (s.free blocks).2 = trims := by simpa [step] using hs
    exact iff_of_eq (congrArg _ (hkeep (s.markBlocksFreeLocked (s.immediate blocks)) _ rfl rfl rfl))
  | markCommitGroupDurable fence =>
    obtain ⟨-, -, rfl⟩ : _ ∧ _ ∧ (s.markCommitGroupDurable fence).1.2 = trims := by simpa [step] using hs
    cases hv : fence.isValid with
    | false =>
      simp only [markCommitGroupDurable, freedBy, hv, Bool.not_false, Bool.false_eq_true, ↓reduceIte]
      rw [mem_maybeDiscardFreed]
      simp only [not_mem_nil, false_iff, not_exists]
      exact fun a b h => absurd h.1.cluster.first (by simp [offsetsOf])
    | true =>
      simp only [markCommitGroupDurable, freedBy, hv, Bool.not_true, Bool.false_eq_true, ↓reduceIte]
      exact iff_of_eq (congrArg _ (hkeep ((s.retire fence).markBlocksFreeLocked _) _ rfl rfl rfl))
  | _ => exact absurd hcall (by simp [Call.discards])

/-- Every block inside a discarded range is a block of the pool that is free
already or is being freed. -/
def SpansFree (s : AllocatorInner) (call : Call) : Prop :=
  ∀ a b, s.Discards (s.freedBy call) a b →
    ∀ x, Touches s.blockSize ⟨a, spanLength s.blockSize (s.offsetsOf (s.freedBy call)) a b⟩ x →
      x < s.bitmap.blockCount ∧ (s.bitmap.isFree x = true ∨ x ∈ s.freedBy call)

end AllocatorInner

/-- A call that discards frees its blocks, whatever the sink answers. -/
theorem step_of_discards {s : AllocatorInner} (h : Base s) {call : Call} (hcall : call.discards = true) :
    ∃ s' out trims, step s call = some (s', out, trims) ∧ Frees s s' (s.freedBy call) := by
  cases call with
  | free blocks => exact ⟨_, _, _, rfl, free_frees h blocks⟩
  | markCommitGroupDurable fence => exact ⟨_, _, _, rfl, markCommitGroupDurable_frees h fence⟩
  | _ => exact absurd hcall (by simp [Call.discards])

/-- **The discarded ranges cover only free blocks exactly if every block inside
them was free before or is freed by the call.** -/
theorem trims_only_free_iff (s : AllocatorInner) (hs : Reachable s) (call : Call) (hcall : call.discards = true) :
    (∀ s' out trims, step s call = some (s', out, trims) →
      ∀ req ∈ trims, ∀ x, Touches s.blockSize req x → s'.bitmap.isFree x = true) ↔ s.SpansFree call := by
  obtain ⟨s', out, trims, hstep, hfrees⟩ := step_of_discards hs.base hcall
  have hfree : ∀ x, s'.bitmap.isFree x = true ↔
      x < s.bitmap.blockCount ∧ (s.bitmap.isFree x = true ∨ x ∈ s.freedBy call) := by
    intro x
    rw [← mem_freeSet, hfrees.bitmap, ← mem_freeSet]
    have hlt : x ∈ s.bitmap.freeSet → x < s.bitmap.blockCount := lt_of_mem_freeSet
    tauto
  constructor
  · intro h a b hd x hx
    apply (hfree x).mp
    exact h s' out trims hstep _ ((mem_trims hcall hstep).mpr ⟨a, b, hd, rfl⟩) x hx
  · intro h t out' trims' hstep' req hreq x hx
    rw [hstep] at hstep'
    obtain ⟨rfl, rfl, rfl⟩ : s' = t ∧ out = out' ∧ trims = trims' := by simpa using hstep'
    obtain ⟨a, b, hd, rfl⟩ := (mem_trims hcall hstep).mp hreq
    exact (hfree x).mpr (h a b hd x hx)

/-! ### A live block in a gap -/

/-- A sink that accepts every range, and a threshold of one block. Blocks 0, 1
and 2 are allocated. -/
def threeLive : List Call := [.setTrimSink (some ⟨fun _ => true⟩), .setMinDiscardBytes 4096, .alloc 3]

/-- Blocks 0 and 2 are freed, and the range that is discarded covers block 1. -/
theorem free_two_discards_live : ∃ s, Reachable s ∧ ¬ ∀ s' out trims, step s (.free [0, 2]) = some (s', out, trims) →
    ∀ req ∈ trims, ∀ x, Touches s.blockSize req x → s'.bitmap.isFree x = true := by
  obtain ⟨-, s, -, -, hreach, hrun⟩ := @exists_run threeLive _ (fun s => (step s (.free [0, 2])).map fun r =>
    (r.2.2, s.blockSize, r.1.bitmap.isFree 1)) ([⟨0, 12288⟩], 4096, false) (by decide +kernel)
  obtain ⟨⟨s', out, trims⟩, hstep, h3⟩ := map_eq_some_iff.mp hrun
  simp only [Prod.mk.injEq] at h3
  obtain ⟨h4, h5, h6⟩ := h3
  refine ⟨s, hreach, fun h => ?_⟩
  have := h s' out trims hstep ⟨0, 12288⟩ (by simp [h4]) 1 ⟨4096, by simp, by simp, by simp [h5], by simp [h5]⟩
  rw [h6] at this
  exact Bool.false_ne_true this

/-- Freed together, the three blocks are discarded in one range, and all are free. -/
theorem free_three_discards_free : ∃ s, Reachable s ∧ s.trimSink.isSome = true ∧
    ∀ s' out trims, step s (.free [0, 1, 2]) = some (s', out, trims) →
      ∀ req ∈ trims, ∀ x, Touches s.blockSize req x → s'.bitmap.isFree x = true := by
  obtain ⟨-, s, -, -, hreach, hrun⟩ := @exists_run threeLive _ (fun s => some (s.freedBy (.free [0, 1, 2]), s.blockSize,
    s.bitmap.blockCount, s.trimSink.isSome)) ([0, 1, 2], 4096, 4, true) (by decide +kernel)
  simp only [Option.some.injEq, Prod.mk.injEq] at hrun
  obtain ⟨h3, h4, h5, h6⟩ := hrun
  refine ⟨s, hreach, h6, (trims_only_free_iff s hreach (.free [0, 1, 2]) rfl).mpr ?_⟩
  intro a b hd x hx
  have ha := hd.cluster.first
  have hb' := hd.cluster.last
  have hle := hd.cluster.le
  rw [h3] at ha hb' hx ⊢
  rw [offsetsOf, h4] at ha hb'
  -- a range ends at the end of block 2 at the latest
  have hspan : spanLength s.blockSize (s.offsetsOf [0, 1, 2]) a b ≤ 12288 - a := by
    unfold spanLength satAdd
    rw [h4]
    simp [wrap64] at ha hb'
    split_ifs <;> omega
  obtain ⟨p, h7, h8, h9, h10⟩ := hx
  dsimp only at h7 h8
  rw [h4] at h9 h10
  have hx3 : x < 3 := by omega
  refine ⟨by omega, Or.inr ?_⟩
  simp only [mem_cons, not_mem_nil, or_false]
  omega

end Tidefs.Allocator
