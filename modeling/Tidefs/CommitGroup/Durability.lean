/-
# Durable sequence numbers

`DurabilitySequence` of `tidefs-commit_group` hands out sequence numbers and keeps those
that are complete. Completions come in any order; `durable_high` is the end of the prefix
without gaps. A barrier is a sequence number that holds back all later ones until it is
acknowledged, and a truncation takes numbers back so that they are issued again.

What is complete is read off the history: a number is complete if it was completed and
neither submitted nor truncated since (`Completed`). As long as the counter does not wrap
around, the prefix, the barrier and the counter fit the history after every operation
(`durable_prefix`). A batch that makes the counter wrap around issues numbers again that
are still kept as complete (`reissued_is_durable`).
-/
import Tidefs.Lib.Ordered
import Tidefs.Lib.Word

namespace Tidefs.CommitGroup

open Ordered Word List Option

/-- Why a sequence is not submitted, acked or made durable. -/
inductive DurabilityError where
  | alreadyDurable
  | unknownSequence
  | barrierActive
  | notActiveBarrier
  | outOfOrderSubmission
deriving DecidableEq

/-- The sequences submitted and those that are durable. -/
structure DurabilitySequence where
  nextSeq : ℕ
  durableHigh : ℕ
  durable : OrdSet ℕ
  activeBarrierSeq : Option ℕ
  completedBarriers : OrdSet ℕ

namespace DurabilitySequence

def new : DurabilitySequence := ⟨1, 0, OrdSet.empty, none, OrdSet.empty⟩

/-- The loop of `advance_durable_high`; every turn meets another number of the set, so as
many turns as it has numbers are enough. -/
def advanceLoop (durable : OrdSet ℕ) : ℕ → ℕ → ℕ
  | 0, high => high
  | turns + 1, high => if high + 1 ∈ durable.toList then advanceLoop durable turns (high + 1) else high

variable (s : DurabilitySequence)

def advanceDurableHigh : DurabilitySequence :=
  { s with durableHigh := advanceLoop s.durable s.durable.toList.length s.durableHigh }

def submit : DurabilitySequence × ℕ := ({ s with nextSeq := wrap64 (s.nextSeq + 1) }, s.nextSeq)

/-- The range handed out is empty if its end wraps around. -/
def submitBatch (count : ℕ) : DurabilitySequence × List ℕ :=
  let stop := wrap64 (s.nextSeq + count)
  ({ s with nextSeq := stop }, List.range' s.nextSeq (stop - s.nextSeq))

def markDurable (seq : ℕ) : DurabilitySequence × Except DurabilityError Unit :=
  if s.nextSeq ≤ seq then (s, .error .unknownSequence)
  else if seq ∈ s.durable.toList then (s, .error .alreadyDurable)
  else if s.activeBarrierSeq.any (fun barrierSeq => decide (barrierSeq < seq)) then (s, .error .barrierActive)
  else (advanceDurableHigh { s with durable := s.durable.insert seq }, .ok ())

def submitBarrier : DurabilitySequence × Except DurabilityError ℕ :=
  if s.activeBarrierSeq.isSome then (s, .error .barrierActive)
  else ({ s with nextSeq := wrap64 (s.nextSeq + 1), activeBarrierSeq := some s.nextSeq }, .ok s.nextSeq)

def ackBarrier (seq : ℕ) : DurabilitySequence × Except DurabilityError Unit :=
  if s.activeBarrierSeq ≠ some seq then (s, .error .notActiveBarrier)
  else if s.durableHigh < seq - 1 then (s, .error .outOfOrderSubmission)
  else
    (advanceDurableHigh
      { s with
        activeBarrierSeq := none
        completedBarriers := s.completedBarriers.insert seq
        durable := s.durable.insert seq }, .ok ())

def retainBelow (t : OrdSet ℕ) (bound : ℕ) : OrdSet ℕ := ⟨t.toList.filter (· < bound), t.sorted.filter _⟩

def truncateFrom (fromSeq : ℕ) : DurabilitySequence :=
  advanceDurableHigh
    { nextSeq := if fromSeq < s.nextSeq then fromSeq else s.nextSeq
      durableHigh := 0
      durable := retainBelow s.durable fromSeq
      activeBarrierSeq :=
        if s.activeBarrierSeq.any (fun barrierSeq => decide (fromSeq ≤ barrierSeq)) then none else s.activeBarrierSeq
      completedBarriers := retainBelow s.completedBarriers fromSeq }

def isDurable (seq : ℕ) : Prop := seq ≤ s.durableHigh

/-! ### Runs and their histories -/

/-- The calls that change the sequence. -/
inductive Op where
  | submit
  | submitBatch (count : ℕ)
  | markDurable (seq : ℕ)
  | submitBarrier
  | ackBarrier (seq : ℕ)
  | truncateFrom (fromSeq : ℕ)

/-- What an operation returns: the numbers it hands out, if any. -/
abbrev Reply := Except DurabilityError (List ℕ)

def step : Op → DurabilitySequence × Reply
  | .submit => (s.submit.1, .ok [s.submit.2])
  | .submitBatch count => ((s.submitBatch count).1, .ok (s.submitBatch count).2)
  | .markDurable seq => ((s.markDurable seq).1, (s.markDurable seq).2.map fun _ => [])
  | .submitBarrier => (s.submitBarrier.1, s.submitBarrier.2.map fun seq => [seq])
  | .ackBarrier seq => ((s.ackBarrier seq).1, (s.ackBarrier seq).2.map fun _ => [])
  | .truncateFrom fromSeq => (s.truncateFrom fromSeq, .ok [])

/-- The state after the operations, and what each returned. -/
def run (s : DurabilitySequence) : List Op → DurabilitySequence × List (Op × Reply)
  | [] => (s, [])
  | op :: ops => ((run (s.step op).1 ops).1, (op, (s.step op).2) :: (run (s.step op).1 ops).2)

/-- The numbers that are complete after an operation, given those before it. -/
def completedBy (before : ℕ → Prop) : Op × Reply → ℕ → Prop
  | (_, .error _), q => before q
  | (.markDurable seq, .ok _), q | (.ackBarrier seq, .ok _), q => before q ∨ q = seq
  | (.truncateFrom fromSeq, .ok _), q => before q ∧ q < fromSeq
  | (_, .ok seqs), q => before q ∧ q ∉ seqs

/-- The number was completed, and neither submitted nor truncated since. -/
def Completed (history : List (Op × Reply)) : ℕ → Prop := history.foldl completedBy fun _ => False

/-- The operation does not make the counter wrap around. -/
def Fits : Op → Prop
  | .submit | .submitBarrier => s.nextSeq + 1 < 2 ^ 64
  | .submitBatch count => s.nextSeq + count < 2 ^ 64
  | _ => True

instance (s : DurabilitySequence) : (op : Op) → Decidable (Fits s op)
  | .submit | .submitBarrier => inferInstanceAs (Decidable (s.nextSeq + 1 < 2 ^ 64))
  | .submitBatch count => inferInstanceAs (Decidable (s.nextSeq + count < 2 ^ 64))
  | .markDurable _ | .ackBarrier _ | .truncateFrom _ => inferInstanceAs (Decidable True)

def FitsRun : DurabilitySequence → List Op → Prop
  | _, [] => True
  | s, op :: ops => Fits s op ∧ FitsRun (s.step op).1 ops

/-! ### The prefix -/

variable {s : DurabilitySequence} {durable : OrdSet ℕ} {high : ℕ}

/-- `high` is the end of the prefix without gaps. -/
def Prefix (durable : OrdSet ℕ) (high : ℕ) : Prop := (∀ q, 1 ≤ q → q ≤ high → q ∈ durable) ∧ high + 1 ∉ durable

/-- **The loop stops at the first gap.** -/
theorem advanceLoop_spec : ∀ {turns high : ℕ}, (durable.toList.filter (high < ·)).length ≤ turns →
    (∀ q, 1 ≤ q → q ≤ high → q ∈ durable) →
    high ≤ advanceLoop durable turns high ∧ Prefix durable (advanceLoop durable turns high)
  | 0, high, hturns, hall => by
    refine ⟨le_rfl, hall, fun hmem => ?_⟩
    have hlater : high + 1 ∈ durable.toList.filter (high < ·) := mem_filter.mpr ⟨hmem, by simp⟩
    rw [length_eq_zero_iff.mp (Nat.le_zero.mp hturns)] at hlater
    exact absurd hlater not_mem_nil
  | turns + 1, high, hturns, hall => by
    by_cases hmem : high + 1 ∈ durable.toList
    · -- the next number is met, and is not among those still behind
      have hlater : high + 1 ∈ durable.toList.filter (high < ·) := mem_filter.mpr ⟨hmem, by simp⟩
      have hsub : (durable.toList.filter (high + 1 < ·)).Sublist ((durable.toList.filter (high < ·)).erase (high + 1)) := by
        rw [List.Nodup.erase_eq_filter (durable.sorted.imp ne_of_lt |>.filter _), List.filter_filter]
        refine monotone_filter_right _ fun q hq => ?_
        simp only [Bool.and_eq_true, decide_eq_true_eq, bne_iff_ne] at hq ⊢
        omega
      have hfewer := hsub.length_le
      rw [length_erase_of_mem hlater] at hfewer
      have hall' : ∀ q, 1 ≤ q → q ≤ high + 1 → q ∈ durable := fun q h1 h2 => by
        rcases Nat.le_succ_iff.mp h2 with h2 | rfl
        · exact hall q h1 h2
        · exact hmem
      have hleft : (durable.toList.filter (high + 1 < ·)).length ≤ turns := by omega
      obtain ⟨h1, h2⟩ := advanceLoop_spec hleft hall'
      rw [advanceLoop, if_pos hmem]
      exact ⟨by omega, h2⟩
    · rw [advanceLoop, if_neg hmem]
      exact ⟨le_rfl, hall, hmem⟩

theorem advance_spec (h : ∀ q, 1 ≤ q → q ≤ s.durableHigh → q ∈ s.durable) :
    s.durableHigh ≤ s.advanceDurableHigh.durableHigh ∧ Prefix s.durable s.advanceDurableHigh.durableHigh :=
  advanceLoop_spec (length_filter_le _ _) h

theorem mem_retainBelow {t : OrdSet ℕ} {bound q : ℕ} : q ∈ retainBelow t bound ↔ q ∈ t ∧ q < bound := by
  show q ∈ t.toList.filter (· < bound) ↔ _
  rw [mem_filter, decide_eq_true_eq]
  rfl

/-! ### What an operation can do -/

/-- The set, the prefix, the counter and the barrier fit each other and the numbers that
are complete. -/
structure Inv (s : DurabilitySequence) (completed : ℕ → Prop) : Prop where
  durable : ∀ q, q ∈ s.durable ↔ completed q
  high : Prefix s.durable s.durableHigh
  below : ∀ q ∈ s.durable, q < s.nextSeq
  pos : 1 ≤ s.nextSeq
  barrier : ∀ b, s.activeBarrierSeq = some b → b < s.nextSeq ∧ ∀ q ∈ s.durable, q ≤ b

theorem inv_new : Inv new fun _ => False where
  durable q := by simp [new]
  high := ⟨fun q h1 h2 => absurd (h1.trans h2) (by decide), by simp [new]⟩
  below q hq := by simp [new] at hq
  pos := le_rfl
  barrier b hb := by cases hb

variable {completed : ℕ → Prop} (h : Inv s completed)
include h

/-- More numbers may be in use. -/
theorem Inv.submitted {next : ℕ} (hnext : s.nextSeq ≤ next) {seqs : List ℕ}
    (hseqs : ∀ q ∈ seqs, s.nextSeq ≤ q) : Inv { s with nextSeq := next } fun q => completed q ∧ q ∉ seqs := by
  refine ⟨fun q => ?_, h.high, fun q hq => lt_of_lt_of_le (h.below q hq) hnext, h.pos.trans hnext, fun b hb => ?_⟩
  · rw [show q ∈ ({ s with nextSeq := next } : DurabilitySequence).durable ↔ _ from h.durable q]
    refine ⟨fun hq => ⟨hq, fun hmem => ?_⟩, And.left⟩
    exact absurd (h.below q ((h.durable q).mpr hq)) (not_lt.mpr (hseqs q hmem))
  · obtain ⟨h1, h2⟩ := h.barrier b hb
    exact ⟨lt_of_lt_of_le h1 hnext, h2⟩

/-- A number in use is completed, with the barrier it may be. -/
theorem Inv.marked {seq : ℕ} (hseq : seq < s.nextSeq) {barrier : Option ℕ}
    {completedBarriers : OrdSet ℕ} (hbarrier : ∀ b, barrier = some b → s.activeBarrierSeq = some b ∧ seq ≤ b) :
    Inv (advanceDurableHigh ⟨s.nextSeq, s.durableHigh, s.durable.insert seq, barrier, completedBarriers⟩)
      fun q => completed q ∨ q = seq := by
  have hinsert : ∀ q, q ∈ s.durable.insert seq ↔ q = seq ∨ q ∈ s.durable := fun q => OrdSet.mem_insert
  refine ⟨fun q => ?_, ?_, fun q hq => ?_, h.pos, fun b hb => ?_⟩
  · show q ∈ s.durable.insert seq ↔ _
    rw [hinsert, h.durable, or_comm]
  · refine (advance_spec fun q h1 h2 => ?_).2
    exact (hinsert q).mpr (Or.inr (h.high.1 q h1 h2))
  · rcases (hinsert q).mp hq with rfl | hq
    · exact hseq
    · exact h.below q hq
  · obtain ⟨h1, h2⟩ := hbarrier b hb
    obtain ⟨h3, h4⟩ := h.barrier b h1
    refine ⟨h3, fun q hq => ?_⟩
    rcases (hinsert q).mp hq with rfl | hq
    · exact h2
    · exact h4 q hq

theorem Inv.truncated {fromSeq : ℕ} (hfrom : 1 ≤ fromSeq) :
    Inv (s.truncateFrom fromSeq) fun q => completed q ∧ q < fromSeq := by
  have hnext : (s.truncateFrom fromSeq).nextSeq = min fromSeq s.nextSeq := (min_def_lt _ _).symm
  refine ⟨fun q => ?_, ?_, fun q hq => ?_, ?_, fun b hb => ?_⟩
  · show q ∈ retainBelow s.durable fromSeq ↔ _
    rw [mem_retainBelow, h.durable]
  · exact (advance_spec fun q h1 h2 => absurd (h1.trans h2) (by simp)).2
  · obtain ⟨h1, h2⟩ := mem_retainBelow.mp hq
    rw [hnext]
    exact lt_min h2 (h.below q h1)
  · rw [hnext]
    exact le_min hfrom h.pos
  · -- a barrier that stays lies below the truncation
    have hb' : (if s.activeBarrierSeq.any (fun barrierSeq => decide (fromSeq ≤ barrierSeq)) then none
        else s.activeBarrierSeq) = some b := hb
    split_ifs at hb' with hany
    obtain ⟨h1, h2⟩ := h.barrier b hb'
    have hlow : b < fromSeq := by
      rw [hb'] at hany
      simpa using hany
    refine ⟨?_, fun q hq => h2 q (mem_retainBelow.mp hq).1⟩
    rw [hnext]
    exact lt_min hlow h1

/-- **An operation** keeps all fields in line with the history. -/
theorem step_inv {op : Op} (hfit : Fits s op) (hvalid : ∀ f, op = .truncateFrom f → 1 ≤ f) :
    Inv (s.step op).1 (completedBy completed (op, (s.step op).2)) := by
  cases op with
  | submit =>
    have hwrap : wrap64 (s.nextSeq + 1) = s.nextSeq + 1 := Nat.mod_eq_of_lt hfit
    show Inv { s with nextSeq := wrap64 (s.nextSeq + 1) } fun q => completed q ∧ q ∉ [s.nextSeq]
    rw [hwrap]
    exact h.submitted (Nat.le_succ _) (by simp)
  | submitBatch count =>
    have hwrap : wrap64 (s.nextSeq + count) = s.nextSeq + count := Nat.mod_eq_of_lt hfit
    show Inv { s with nextSeq := wrap64 (s.nextSeq + count) }
      fun q => completed q ∧ q ∉ List.range' s.nextSeq (wrap64 (s.nextSeq + count) - s.nextSeq)
    rw [hwrap]
    exact h.submitted (Nat.le_add_right _ _) fun q hq => (mem_range'_1.mp hq).1
  | markDurable seq =>
    unfold step markDurable
    dsimp only
    split_ifs with h1 h2 h3
    · exact h
    · exact h
    · exact h
    · refine h.marked (not_le.mp h1) fun b hb => ⟨hb, ?_⟩
      have hb' : s.activeBarrierSeq = some b := hb
      rw [hb'] at h3
      simpa using h3
  | submitBarrier =>
    unfold step submitBarrier
    split_ifs with h1
    · exact h
    · have hwrap : wrap64 (s.nextSeq + 1) = s.nextSeq + 1 := Nat.mod_eq_of_lt hfit
      have hsub := h.submitted (Nat.le_succ s.nextSeq) (show ∀ q ∈ [s.nextSeq], s.nextSeq ≤ q by simp)
      rw [hwrap]
      refine ⟨hsub.durable, hsub.high, hsub.below, hsub.pos, fun b hb => ?_⟩
      obtain rfl := some.inj hb
      exact ⟨Nat.lt_succ_self _, fun q hq => (h.below q hq).le⟩
  | ackBarrier seq =>
    unfold step ackBarrier
    dsimp only
    split_ifs with h1 h2
    · exact h
    · exact h
    · exact h.marked (h.barrier seq (not_not.mp h1)).1 fun b hb => nomatch hb
  | truncateFrom fromSeq => exact h.truncated (hvalid fromSeq rfl)

omit h

theorem run_inv : ∀ {ops : List Op} {s : DurabilitySequence} {completed : ℕ → Prop}, Inv s completed →
    FitsRun s ops → (∀ f, .truncateFrom f ∈ ops → 1 ≤ f) → Inv (s.run ops).1 ((s.run ops).2.foldl completedBy completed)
  | [], _, _, h, _, _ => h
  | op :: ops, s, completed, h, hfit, hvalid => by
    have hstep := step_inv h hfit.1 fun f hf => hvalid f (hf ▸ mem_cons_self ..)
    have hrun := run_inv hstep hfit.2 (show ∀ f, .truncateFrom f ∈ ops → 1 ≤ f from fun f hf =>
      hvalid f (mem_cons_of_mem _ hf))
    exact hrun

/-! ### The prefix, the barrier and their order -/

variable (h : Inv s completed)
include h

theorem Inv.isGreatest : IsGreatest {high | ∀ q, 1 ≤ q → q ≤ high → completed q} s.durableHigh := by
  refine ⟨fun q h1 h2 => (h.durable q).mp (h.high.1 q h1 h2), fun high hhigh => ?_⟩
  by_contra hlt
  exact h.high.2 ((h.durable _).mpr (hhigh _ (Nat.succ_pos _) (not_le.mp hlt)))

/-- Only a truncation takes back what is durable. -/
theorem step_high_mono {op : Op} (hop : ∀ f, op ≠ .truncateFrom f) : s.durableHigh ≤ (s.step op).1.durableHigh := by
  have hmore : ∀ seq, ∀ q, 1 ≤ q → q ≤ s.durableHigh → q ∈ s.durable.insert seq := fun seq q h1 h2 =>
    OrdSet.mem_insert.mpr (Or.inr (h.high.1 q h1 h2))
  cases op with
  | submit => exact le_rfl
  | submitBatch count => exact le_rfl
  | markDurable seq =>
    unfold step markDurable
    dsimp only
    split_ifs
    · exact le_rfl
    · exact le_rfl
    · exact le_rfl
    · exact (@advance_spec { s with durable := s.durable.insert seq } (hmore seq)).1
  | submitBarrier =>
    unfold step submitBarrier
    split_ifs <;> exact le_rfl
  | ackBarrier seq =>
    unfold step ackBarrier
    dsimp only
    split_ifs
    · exact le_rfl
    · exact le_rfl
    · exact (@advance_spec ⟨_, s.durableHigh, s.durable.insert seq, none, _⟩ (hmore seq)).1
  | truncateFrom fromSeq => exact absurd rfl (hop fromSeq)

theorem Inv.high_mem {q : ℕ} (h1 : 1 ≤ q) (hq : s.isDurable q) : q ∈ s.durable := h.high.1 q h1 hq

omit h

/-- A barrier is acknowledged only behind all earlier numbers. -/
theorem ack_waits {seq : ℕ} {seqs : List ℕ} (hack : (s.step (.ackBarrier seq)).2 = .ok seqs) {q : ℕ} (hq : q < seq) :
    s.isDurable q := by
  unfold step ackBarrier at hack
  dsimp only at hack
  split_ifs at hack with h1 h2
  · cases hack
  · cases hack
  · show q ≤ s.durableHigh
    omega

/-- Behind a barrier nothing is durable, and nothing can be marked. -/
theorem Inv.held (h : Inv s completed) {b q : ℕ} (hb : s.activeBarrierSeq = some b) (hq : b < q) :
    q ∉ s.durable ∧ ¬ s.isDurable q ∧ ∃ e, s.step (.markDurable q) = (s, .error e) := by
  have hnot : q ∉ s.durable := fun hmem => absurd ((h.barrier b hb).2 q hmem) (not_le.mpr hq)
  refine ⟨hnot, fun hd => hnot (h.high_mem (by omega) hd), ?_⟩
  unfold step markDurable
  dsimp only
  split_ifs with h1 h2 h3
  · exact ⟨_, rfl⟩
  · exact ⟨_, rfl⟩
  · exact ⟨_, rfl⟩
  · rw [hb] at h3
    simp [hq] at h3

/-- **Durability is a prefix.** After any operations that do not make the counter wrap
around, `durable_high` ends the numbers complete by the history; only a truncation lowers
it; a barrier is acknowledged when all below it is durable; and nothing behind an active
barrier is durable, or becomes so by an operation that leaves the barrier active. -/
theorem durable_prefix (ops : List Op) (hfit : FitsRun new ops) (hvalid : ∀ f, .truncateFrom f ∈ ops → 1 ≤ f) :
    IsGreatest {high | ∀ q, 1 ≤ q → q ≤ high → Completed (new.run ops).2 q} (new.run ops).1.durableHigh ∧
    (∀ op, (∀ f, op ≠ .truncateFrom f) → (new.run ops).1.durableHigh ≤ ((new.run ops).1.step op).1.durableHigh) ∧
    (∀ b seqs, ((new.run ops).1.step (.ackBarrier b)).2 = .ok seqs → ∀ q, q < b → (new.run ops).1.isDurable q) ∧
    ∀ b, (new.run ops).1.activeBarrierSeq = some b → ∀ q, b < q →
      ¬ (new.run ops).1.isDurable q ∧ (∃ e, (new.run ops).1.step (.markDurable q) = ((new.run ops).1, .error e)) ∧
      ∀ op, Fits (new.run ops).1 op → (∀ f, op = .truncateFrom f → 1 ≤ f) →
        ((new.run ops).1.step op).1.activeBarrierSeq = some b → ¬ ((new.run ops).1.step op).1.isDurable q := by
  have h : Inv (new.run ops).1 (Completed (new.run ops).2) := run_inv inv_new hfit hvalid
  refine ⟨h.isGreatest, fun op hop => step_high_mono h hop, fun b seqs hack q hq => ack_waits hack hq, ?_⟩
  intro b hb q hq
  obtain ⟨-, h1, h2⟩ := h.held hb hq
  exact ⟨h1, h2, fun op hop hf hb' => ((step_inv h hop hf).held hb' hq).2.1⟩

/-- Three numbers, completed out of order around a barrier. -/
theorem durable_prefix_barrier : IsGreatest {high | ∀ q, 1 ≤ q → q ≤ high →
      Completed (new.run [.submitBatch 2, .submitBarrier, .markDurable 2, .markDurable 1, .ackBarrier 3]).2 q}
      (new.run [.submitBatch 2, .submitBarrier, .markDurable 2, .markDurable 1, .ackBarrier 3]).1.durableHigh :=
  ( durable_prefix [.submitBatch 2, .submitBarrier, .markDurable 2, .markDurable 1, .ackBarrier 3]
    ⟨by decide, by decide, trivial, trivial, trivial, trivial⟩ (by simp)).1

/-- **A counter that wraps around.** The first number is complete; a batch of all others
brings the counter back to it, and it is handed out again, and is durable. -/
theorem reissued_is_durable : let r := new.run [.submit, .markDurable 1, .submitBatch (2 ^ 64 - 1), .submit]
    r.1.durableHigh = 1 ∧ ¬ Completed r.2 1 ∧ ¬ IsGreatest {high | ∀ q, 1 ≤ q → q ≤ high → Completed r.2 q} r.1.durableHigh := by
  have hhigh : (new.run [.submit, .markDurable 1, .submitBatch (2 ^ 64 - 1), .submit]).1.durableHigh = 1 := by decide
  have hagain : ¬ Completed (new.run [.submit, .markDurable 1, .submitBatch (2 ^ 64 - 1), .submit]).2 1 := by
    intro h
    have hnot : (1 : ℕ) ∉ [1] := h.2
    exact hnot (mem_singleton_self 1)
  exact ⟨hhigh, hagain, fun h => hagain (h.1 1 le_rfl hhigh.ge)⟩

end DurabilitySequence
end Tidefs.CommitGroup
