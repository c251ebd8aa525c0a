/-
# Evacuation of a device

The extents of a device are moved away one by one: space is allocated on a remaining device,
the extent is read and written there, and its locator is updated. An entry leaves the plan
before the first of these steps, so the call that fails loses it and a later call reports
the device as evacuated (`failed_entry_lost`). As long as each call finds no device or is
granted what it asks for, `Ok(true)` means that every entry of the plan was moved
(`moved_of_ok_true`).
-/
import Tidefs.Lib.Word

namespace Tidefs.Reclaim
namespace Evacuation

open Word List

structure EvacuationEntry where
  extentId : ℕ
  inode : ℕ
  deviceId : ℕ
  physicalOffset : ℕ
  length : ℕ

/-- Why an evacuation stops. -/
inductive EvacuationError where
  | noRemainingDevices
  | allocationFailed (size : ℕ)
  | readFailed (deviceId physicalOffset length : ℕ)
  | writeFailed (deviceId physicalOffset : ℕ)
  | locatorUpdateFailed (inode extentId : ℕ)
  | extentPinned (inode extentId : ℕ)

/-- The allocator, the devices and the locator table; a call may fail and change the world `W` in any way. -/
structure Pool (W : Type*) where
  remainingDeviceIds : W → List ℕ
  allocateOnRemaining (excludeDeviceId length : ℕ) : W → W × Except EvacuationError (ℕ × ℕ)
  readExtent (deviceId physicalOffset length : ℕ) : W → W × Except EvacuationError (List UInt8)
  writeExtent (deviceId physicalOffset : ℕ) (data : List UInt8) : W → W × Except EvacuationError Unit
  updateEntry (inode extentId newDeviceId newPhysicalOffset : ℕ) : W → W × Except EvacuationError Unit

/-- A call that succeeded. -/
inductive Call where
  | allocated (length deviceId offset : ℕ)
  | read (deviceId offset length : ℕ) (data : List UInt8)
  | written (deviceId offset : ℕ) (data : List UInt8)
  | updated (inode extentId deviceId offset : ℕ)

/-- What calls of `evacuate_device` leave, and the calls they made. -/
structure State (W : Type*) where
  plan : List EvacuationEntry
  world : W
  log : List Call

variable {W : Type*} (pool : Pool W) (device : ℕ)

/-- The loop over the plan with the bytes processed so far. An entry is out of the plan before its first step. -/
def evacuateLoop (budget : ℕ) :
    List EvacuationEntry → ℕ → W → List Call → Except EvacuationError Bool × State W
  | [], _, w, log => (.ok true, ⟨[], w, log⟩)
  | e :: plan, processed, w, log =>
    if processed < budget ∧ satAdd processed e.length ≤ budget then
      match pool.allocateOnRemaining device e.length w with
      | (w, .error x) => (.error x, ⟨plan, w, log⟩)
      | (w, .ok (dev, off)) =>
        let log := log ++ [.allocated e.length dev off]
        match pool.readExtent e.deviceId e.physicalOffset e.length w with
        | (w, .error x) => (.error x, ⟨plan, w, log⟩)
        | (w, .ok data) =>
          let log := log ++ [.read e.deviceId e.physicalOffset e.length data]
          match pool.writeExtent dev off data w with
          | (w, .error x) => (.error x, ⟨plan, w, log⟩)
          | (w, .ok ()) =>
            let log := log ++ [.written dev off data]
            match pool.updateEntry e.inode e.extentId dev off w with
            | (w, .error x) => (.error x, ⟨plan, w, log⟩)
            | (w, .ok ()) =>
              evacuateLoop budget plan (satAdd processed e.length) w (log ++ [.updated e.inode e.extentId dev off])
    else (.ok false, ⟨e :: plan, w, log⟩)

def evacuateDevice (budget : ℕ) (s : State W) : Except EvacuationError Bool × State W :=
  if s.plan.isEmpty then (.ok true, s)
  else if (pool.remainingDeviceIds s.world).isEmpty then (.error .noRemainingDevices, s)
  else evacuateLoop pool device budget s.plan 0 s.world s.log

/-- The contents of the entry were written from its old place to one just allocated, and its locator updated. -/
def Moved (log : List Call) (e : EvacuationEntry) : Prop :=
  ∃ dev off data, [.allocated e.length dev off, .read e.deviceId e.physicalOffset e.length data,
    .written dev off data, .updated e.inode e.extentId dev off] <:+: log

variable {plan : List EvacuationEntry} {budget : ℕ} {done : Bool} {s t : State W}

theorem Moved.mono {log log' : List Call} {e : EvacuationEntry} (h : Moved log e) (hlog : log <+: log') :
    Moved log' e := by
  obtain ⟨dev, off, data, h⟩ := h
  exact ⟨dev, off, data, h.trans hlog.isInfix⟩

/-- A call that does not fail has moved what it took, and says `true` with an empty plan only. -/
theorem evacuateLoop_ok : ∀ {plan : List EvacuationEntry} {processed : ℕ}
    {w : W} {log : List Call}, evacuateLoop pool device budget plan processed w log = (.ok done, t) →
      log <+: t.log ∧ (∀ e ∈ plan, e ∈ t.plan ∨ Moved t.log e) ∧ (done = true → t.plan = [])
  | [], _, w, log, h => by
    cases h
    exact ⟨prefix_rfl, by simp, fun _ => rfl⟩
  | e :: plan, processed, w, log, h => by
    unfold evacuateLoop at h
    split_ifs at h
    · split at h
      · cases h
      split at h
      · cases h
      split at h
      · cases h
      split at h
      · cases h
      obtain ⟨hlog, hmoved, hdone⟩ := evacuateLoop_ok h
      simp only [append_assoc] at hlog
      refine ⟨(prefix_append _ _).trans hlog, forall_mem_cons.mpr ⟨.inr ?_, hmoved⟩, hdone⟩
      exact Moved.mono ⟨_, _, _, (suffix_append _ _).isInfix⟩ hlog
    · cases h
      exact ⟨prefix_rfl, fun _ => .inl, by simp⟩

theorem evacuateDevice_ok (h : evacuateDevice pool device budget s = (.ok done, t)) :
    s.log <+: t.log ∧ (∀ e ∈ s.plan, e ∈ t.plan ∨ Moved t.log e) ∧ (done = true → t.plan = []) := by
  unfold evacuateDevice at h
  split_ifs at h with hempty
  · cases h
    exact ⟨prefix_rfl, fun _ => .inl, fun _ => isEmpty_iff.mp hempty⟩
  · cases h
  · exact evacuateLoop_ok pool device h

/-- The pool grants what the entries within the budget ask for: space, the old contents, their place and the locator. -/
def Serves (budget : ℕ) : List EvacuationEntry → ℕ → W → Prop
  | [], _, _ => True
  | e :: plan, processed, w => processed < budget ∧ satAdd processed e.length ≤ budget →
    ∃ w₁ w₂ w₃ w₄ dev off data, pool.allocateOnRemaining device e.length w = (w₁, .ok (dev, off)) ∧
      pool.readExtent e.deviceId e.physicalOffset e.length w₁ = (w₂, .ok data) ∧
      pool.writeExtent dev off data w₂ = (w₃, .ok ()) ∧
      pool.updateEntry e.inode e.extentId dev off w₃ = (w₄, .ok ()) ∧
      Serves budget plan (satAdd processed e.length) w₄

theorem evacuateLoop_served : ∀ {plan : List EvacuationEntry} {processed : ℕ} {w : W} (log : List Call),
    Serves pool device budget plan processed w → ∃ done t, evacuateLoop pool device budget plan processed w log = (.ok done, t)
  | [], _, _, _, _ => ⟨_, _, rfl⟩
  | e :: plan, processed, w, log, h => by
    unfold evacuateLoop
    split_ifs with hbudget
    · obtain ⟨w₁, w₂, w₃, w₄, dev, off, data, h₁, h₂, h₃, h₄, hplan⟩ := h hbudget
      simp only [h₁, h₂, h₃, h₄]
      exact evacuateLoop_served _ hplan
    · exact ⟨_, _, rfl⟩

/-- Before a call no device remains, or the pool grants what the call will ask for. -/
def Answered (budget : ℕ) (s : State W) : Prop :=
  (pool.remainingDeviceIds s.world).isEmpty = true ∨ Serves pool device budget s.plan 0 s.world

/-- Such a call moves what it takes, or fails without taking anything. -/
theorem evacuateDevice_answered (h : Answered pool device budget s) :
    (∃ done t, evacuateDevice pool device budget s = (.ok done, t)) ∨
      evacuateDevice pool device budget s = (.error .noRemainingDevices, s) := by
  unfold evacuateDevice
  split_ifs with hempty hnone
  · exact .inl ⟨_, _, rfl⟩
  · exact .inr rfl
  · exact .inl (evacuateLoop_served pool device s.log (h.resolve_left hnone))

/-- Calls on a plan, with changes of the world in between. -/
inductive Run (plan : List EvacuationEntry) : State W → Prop
  | start (world : W) : Run plan ⟨plan, world, []⟩
  | world {s : State W} (world : W) : Run plan s → Run plan { s with world }
  | call {s : State W} (budget : ℕ) : Run plan s → Answered pool device budget s →
      Run plan (evacuateDevice pool device budget s).2

theorem Run.remaining_or_moved (h : Run pool device plan s) :
    ∀ e ∈ plan, e ∈ s.plan ∨ Moved s.log e := by
  induction h with
  | start => exact fun _ => .inl
  | world _ _ ih => exact ih
  | @call s budget _ hanswered ih =>
    rcases evacuateDevice_answered pool device hanswered with ⟨done, t, hcall⟩ | hcall
    · obtain ⟨hlog, hmoved, _⟩ := evacuateDevice_ok pool device hcall
      rw [hcall]
      exact fun e he => (ih e he).elim (hmoved e) fun h => .inr (h.mono hlog)
    · rw [hcall]
      exact ih

/-- **After calls that the pool has answered, `Ok(true)` means that every entry was moved.** -/
theorem moved_of_ok_true (h : Run pool device plan s) (budget : ℕ)
    (hcall : evacuateDevice pool device budget s = (.ok true, t)) : ∀ e ∈ plan, Moved t.log e := by
  obtain ⟨hlog, hmoved, hdone⟩ := evacuateDevice_ok pool device hcall
  rw [hdone rfl] at hmoved
  refine fun e he => (h.remaining_or_moved pool device e he).elim (fun hleft => ?_) fun hbefore => hbefore.mono hlog
  exact (hmoved e hleft).resolve_left not_mem_nil

/-- A device remains once the world is not at 0; each extent gets a place of its own. -/
def deviceLater : Pool ℕ :=
  ⟨fun w => if w = 0 then [] else [2], fun _ _ w => (w + 1, .ok (2, 100 * w)), fun _ _ n w => (w, .ok (replicate n 7)),
    fun _ _ _ w => (w, .ok ()), fun _ _ _ _ w => (w, .ok ())⟩

def twoExtents : List EvacuationEntry := [⟨5, 6, 1, 0, 4⟩, ⟨7, 8, 1, 4, 6⟩]

theorem deviceLater_serves (budget : ℕ) : ∀ (plan : List EvacuationEntry) (processed w : ℕ),
    Serves deviceLater 1 budget plan processed w
  | [], _, _ => trivial
  | _ :: plan, _, w => fun _ => ⟨_, _, _, _, _, _, _, rfl, rfl, rfl, rfl, deviceLater_serves budget plan _ (w + 1)⟩

/-- The first call finds no device, the second has a budget for one entry, and the third moves the other. -/
theorem moved_of_ok_true_third_call : ∃ t,
    evacuateDevice deviceLater 1 9 (evacuateDevice deviceLater 1 5
      { (evacuateDevice deviceLater 1 9 ⟨twoExtents, 0, []⟩).2 with world := 1 }).2 = (.ok true, t) ∧
      (∀ e ∈ twoExtents, Moved t.log e) := by
  have hfirst : Run deviceLater 1 twoExtents (evacuateDevice deviceLater 1 9 ⟨twoExtents, 0, []⟩).2 :=
    .call 9 (.start 0) (.inl rfl)
  have hsecond := (hfirst.world 1).call 5 (.inr (deviceLater_serves 5 _ _ _))
  exact ⟨_, rfl, moved_of_ok_true deviceLater 1 hsecond 9 rfl⟩

/-- An allocator that fails the first time; all else succeeds. -/
def failsOnce : Pool Bool :=
  ⟨fun _ => [2], fun _ n w => (true, if w then .ok (2, 0) else .error (.allocationFailed n)), fun _ _ _ w => (w, .ok [1]),
    fun _ _ _ w => (w, .ok ()), fun _ _ _ _ w => (w, .ok ())⟩

/-- The first call fails, the second reports the device as evacuated, and no locator was updated. -/
theorem failed_entry_lost :
    evacuateDevice failsOnce 1 9 ⟨[⟨5, 6, 1, 0, 4⟩], false, []⟩ = (.error (.allocationFailed 4), ⟨[], true, []⟩) ∧
      evacuateDevice failsOnce 1 9 ⟨[], true, []⟩ = (.ok true, ⟨[], true, []⟩) := ⟨rfl, rfl⟩

end Evacuation
end Tidefs.Reclaim
