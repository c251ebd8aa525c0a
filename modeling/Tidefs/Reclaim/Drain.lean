/-
# Freeing dead segments

What the drains of the reclaim queues have in common: the live counts of segments, the gate
every extent of a dead segment has to pass, and the walk over the dead segments that frees
those whose extents all pass. A segment with a denied extent is skipped; what the skip does
to its live count is the drain's own business (`restore`).
-/
import Tidefs.Lib.Word

namespace Tidefs.Reclaim

open Word List

/-- The live objects of each segment; a segment that is not tracked has none. -/
structure SegmentLiveCounts where
  liveCount : ℕ → ℕ

namespace SegmentLiveCounts

variable (c : SegmentLiveCounts)

def setLiveCount (segmentId count : ℕ) : SegmentLiveCounts :=
  ⟨Function.update c.liveCount segmentId count⟩

/-- Counts stop at zero and at 64 bits. -/
def applyDelta (segmentId : ℕ) (delta : ℤ) : SegmentLiveCounts :=
  c.setLiveCount segmentId
    (if 0 < delta then satAdd (c.liveCount segmentId) delta.natAbs else c.liveCount segmentId - delta.natAbs)

def isDead (segmentId : ℕ) : Bool := c.liveCount segmentId = 0

def remove (segmentId : ℕ) : SegmentLiveCounts := c.setLiveCount segmentId 0

theorem liveCount_setLiveCount (c : SegmentLiveCounts) (s n s' : ℕ) :
    (c.setLiveCount s n).liveCount s' = if s' = s then n else c.liveCount s' :=
  Function.update_apply ..

end SegmentLiveCounts

structure ReclaimConsumerConfig where
  maxEntriesPerDrain : ℕ
  maxFreeBatch : ℕ

structure ReclaimConsumerStats where
  entriesProcessed : ℕ
  segmentsReclaimed : ℕ
  blocksFreed : ℕ
  reclaimQueueDepth : ℕ
  gateSegmentsSkipped : ℕ
  gateExtentsDenied : ℕ
  checkpointBatches : ℕ
deriving DecidableEq

/-- Who takes over a drained segment. -/
inductive ReclaimHandoffTarget where
  | cleanerFullyDead
  | compactionPartialLive
deriving DecidableEq

structure ReclaimHandoffEntry where
  segmentId : ℕ
  liveCount : ℕ
  drainedExtents : ℕ
  target : ReclaimHandoffTarget
deriving DecidableEq

/-- What the gate allows a free on. -/
structure ClearanceEvidence where
  deadlistCommittedTxg : ℕ
  pinClearanceEpoch : ℕ
deriving DecidableEq

/-- Why an extent must not be freed yet. -/
inductive GateDenyReason where
  | deadlistReferenced
  | snapshotPinned
deriving DecidableEq

/-- The gate's answer for one extent. -/
inductive GateDecision where
  | allow (evidence : ClearanceEvidence)
  | deny (reason : GateDenyReason)
deriving DecidableEq

def GateDecision.isAllowed : GateDecision → Bool
  | .allow _ => true
  | .deny _ => false

/-- The resolver's or the freer's error, with what it was about. -/
inductive DrainError (Key R F : Type*) where
  | resolveError (key : Key) (error : R)
  | freeError (segmentId : ℕ) (error : F)

section

variable {Key R F : Type*}

/-- The segment of an object, if it has one and it is known. -/
def segmentOf (resolve : Key → Except R (Option ℕ)) (key : Key) : Option ℕ :=
  match resolve key with
  | .ok segment => segment
  | .error _ => none

/-- What was freed, and on which evidence. -/
structure ReclaimReceipt (Key : Type*) where
  freedExtents : List Key
  freedSegmentExtents : List (ℕ × Key)
  deadlistCommittedTxg : ℕ
  pinClearanceEpoch : ℕ

/-- The extents in order of segment and key. -/
def ReclaimReceipt.new [LinearOrder Key] (freed : List (ℕ × Key)) (deadlistTxg pinEpoch : ℕ) : ReclaimReceipt Key :=
  let sorted := freed.mergeSort fun a b => a.1 < b.1 || (a.1 = b.1 && a.2 ≤ b.2)
  ⟨sorted.map Prod.snd, sorted, deadlistTxg, pinEpoch⟩

/-- A receipt for what was freed, with the first evidence the gate gave. -/
def receiptOf [LinearOrder Key] (freed : List (ℕ × Key)) (evidence : Option ClearanceEvidence) :
    Option (ReclaimReceipt Key) :=
  if freed.isEmpty then none
  else some (.new freed ((evidence.map ClearanceEvidence.deadlistCommittedTxg).getD 0)
    ((evidence.map ClearanceEvidence.pinClearanceEpoch).getD 0))

/-! ### The gate -/

/-- Asks for each extent until one is denied, keeping the first evidence. -/
def gateExtents (gate : Key → GateDecision) : List Key → Option ClearanceEvidence → Bool × Option ClearanceEvidence
  | [], evidence => (true, evidence)
  | key :: keys, evidence =>
    match gate key with
    | .allow e => gateExtents gate keys (evidence.orElse fun _ => some e)
    | .deny _ => (false, evidence)

/-- The gate passes a segment if it allows all its extents. -/
theorem gateExtents_allowed (gate : Key → GateDecision) : ∀ (keys : List Key) (evidence : Option ClearanceEvidence),
    (gateExtents gate keys evidence).1 = keys.all fun key => (gate key).isAllowed
  | [], _ => rfl
  | key :: keys, evidence => by
    rw [gateExtents, all_cons]
    cases hkey : gate key with
    | allow e => exact gateExtents_allowed gate keys _
    | deny reason => rfl

/-! ### The walk -/

/-- What the walk has done: the calls to free a segment, those that succeeded, and the segments skipped. -/
structure FreePhase where
  counts : SegmentLiveCounts
  freeCalls : List ℕ
  reclaimed : List ℕ
  skipped : List ℕ
  evidence : Option ClearanceEvidence

def FreePhase.start (counts : SegmentLiveCounts) : FreePhase := ⟨counts, [], [], [], none⟩

/-- The dead segments in turn; a call to free that fails ends the walk. -/
def freeSegments (gate : Key → GateDecision) (free : ℕ → Except F Unit) (extents : ℕ → List Key)
    (restore : ℕ → SegmentLiveCounts → SegmentLiveCounts) : List ℕ → FreePhase → FreePhase × Option (ℕ × F)
  | [], st => (st, none)
  | s :: rest, st =>
    let gated := gateExtents gate (extents s) st.evidence
    if gated.1 then
      match free s with
      | .ok () =>
        freeSegments gate free extents restore rest
          { st with
            evidence := gated.2
            freeCalls := st.freeCalls ++ [s]
            reclaimed := st.reclaimed ++ [s]
            counts := st.counts.remove s }
      | .error e => ({ st with evidence := gated.2, freeCalls := st.freeCalls ++ [s] }, some (s, e))
    else
      freeSegments gate free extents restore rest
        { st with evidence := gated.2, skipped := st.skipped ++ [s], counts := restore s st.counts }

variable {gate : Key → GateDecision} {free : ℕ → Except F Unit} {extents : ℕ → List Key}
  {restore : ℕ → SegmentLiveCounts → SegmentLiveCounts}

/-- Every extent of the segment passes. -/
def Passes (gate : Key → GateDecision) (extents : ℕ → List Key) (s : ℕ) : Prop :=
  ∀ key ∈ extents s, (gate key).isAllowed = true

theorem gated_iff (s : ℕ) (evidence : Option ClearanceEvidence) :
    (gateExtents gate (extents s) evidence).1 = true ↔ Passes gate extents s := by
  rw [gateExtents_allowed, all_eq_true]
  rfl

/-- One turn of the walk, by what the gate and the call to free say. -/
theorem freeSegments_cons (s : ℕ) (rest : List ℕ) (st : FreePhase) : (Passes gate extents s ∧ ∃ evidence,
      ((∃ e, free s = .error e ∧ freeSegments gate free extents restore (s :: rest) st =
          ({ st with evidence := evidence, freeCalls := st.freeCalls ++ [s] }, some (s, e))) ∨
        free s = .ok () ∧ freeSegments gate free extents restore (s :: rest) st =
          freeSegments gate free extents restore rest
            { st with
              evidence := evidence
              freeCalls := st.freeCalls ++ [s]
              reclaimed := st.reclaimed ++ [s]
              counts := st.counts.remove s })) ∨
      (¬ Passes gate extents s ∧ ∃ evidence, freeSegments gate free extents restore (s :: rest) st =
        freeSegments gate free extents restore rest
          { st with evidence := evidence, skipped := st.skipped ++ [s], counts := restore s st.counts }) := by
  rw [freeSegments]
  split_ifs with hgate
  · refine .inl ⟨(gated_iff s _).mp hgate, (gateExtents gate (extents s) st.evidence).2, ?_⟩
    cases hfree : free s with
    | error e => exact .inl ⟨e, rfl, rfl⟩
    | ok u => exact .inr ⟨rfl, rfl⟩
  · exact .inr ⟨fun hpasses => hgate ((gated_iff s _).mpr hpasses), _, rfl⟩

/-- **Only segments that pass are freed.** -/
theorem mem_freeCalls {s : ℕ} : ∀ {dead : List ℕ} {st : FreePhase},
    s ∈ (freeSegments gate free extents restore dead st).1.freeCalls →
      s ∈ st.freeCalls ∨ (s ∈ dead ∧ Passes gate extents s)
  | [], _, hs => .inl hs
  | t :: rest, st, hs => by
    rcases @freeSegments_cons _ _ gate free extents restore t rest st with
      ⟨hpasses, evidence, ⟨e, -, heq⟩ | ⟨-, heq⟩⟩ | ⟨-, evidence, heq⟩
    · rw [heq] at hs
      rcases mem_append.mp hs with hs | hs
      · exact .inl hs
      · obtain rfl := mem_singleton.mp hs
        exact .inr ⟨mem_cons_self .., hpasses⟩
    · rw [heq] at hs
      rcases mem_freeCalls hs with hs | ⟨hs, hp⟩
      · rcases mem_append.mp hs with hs | hs
        · exact .inl hs
        · obtain rfl := mem_singleton.mp hs
          exact .inr ⟨mem_cons_self .., hpasses⟩
      · exact .inr ⟨mem_cons_of_mem _ hs, hp⟩
    · rw [heq] at hs
      rcases mem_freeCalls hs with hs | ⟨hs, hp⟩
      · exact .inl hs
      · exact .inr ⟨mem_cons_of_mem _ hs, hp⟩

/-- A walk ends early only if a call to free fails. -/
theorem freeSegments_end : ∀ {dead : List ℕ} {st : FreePhase},
    (∀ s ∈ (freeSegments gate free extents restore dead st).1.freeCalls, (free s).isOk) →
      (freeSegments gate free extents restore dead st).2 = none
  | [], _, _ => rfl
  | t :: rest, st, hok => by
    rcases @freeSegments_cons _ _ gate free extents restore t rest st with
      ⟨-, evidence, ⟨e, hfree, heq⟩ | ⟨-, heq⟩⟩ | ⟨-, evidence, heq⟩
    · rw [heq] at hok
      have ht := hok t (mem_append_right _ (mem_singleton_self t))
      rw [hfree] at ht
      cases ht
    · rw [heq] at hok ⊢
      exact freeSegments_end hok
    · rw [heq] at hok ⊢
      exact freeSegments_end hok

/-- A skip only touches the count of its own segment. -/
structure Local (restore : ℕ → SegmentLiveCounts → SegmentLiveCounts) : Prop where
  other : ∀ s c s', s' ≠ s → (restore s c).liveCount s' = c.liveCount s'
  own : ∀ s c c', c.liveCount s = c'.liveCount s → (restore s c).liveCount s = (restore s c').liveCount s

open Classical in
/-- **The counts after a walk to the end.** Segments that pass have none, the others what the skip leaves. -/
theorem freeSegments_counts (hlocal : Local restore) (s : ℕ) : ∀ {dead : List ℕ} {st : FreePhase}, dead.Nodup →
    (freeSegments gate free extents restore dead st).2 = none →
      (freeSegments gate free extents restore dead st).1.counts.liveCount s =
        if s ∈ dead then if Passes gate extents s then 0 else (restore s st.counts).liveCount s
        else st.counts.liveCount s
  | [], _, _, _ => rfl
  | t :: rest, st, hnd, hend => by
    obtain ⟨hnot, hnd⟩ := nodup_cons.mp hnd
    rcases @freeSegments_cons _ _ gate free extents restore t rest st with
      ⟨hpasses, evidence, ⟨e, -, heq⟩ | ⟨-, heq⟩⟩ | ⟨hdenied, evidence, heq⟩
    · rw [heq] at hend
      cases hend
    · rw [heq] at hend ⊢
      rw [freeSegments_counts hlocal s hnd hend]
      by_cases hs : s = t
      · subst hs
        rw [if_neg hnot, if_pos (mem_cons_self ..), if_pos hpasses]
        exact (st.counts.liveCount_setLiveCount ..).trans (if_pos rfl)
      · have hcount : (st.counts.remove t).liveCount s = st.counts.liveCount s :=
          (st.counts.liveCount_setLiveCount ..).trans (if_neg hs)
        simp only [mem_cons, hs, false_or, hlocal.own s _ _ hcount, hcount]
    · rw [heq] at hend ⊢
      rw [freeSegments_counts hlocal s hnd hend]
      by_cases hs : s = t
      · subst hs
        rw [if_neg hnot, if_pos (mem_cons_self ..), if_neg hdenied]
      · have hcount : (restore t st.counts).liveCount s = st.counts.liveCount s := hlocal.other t _ s hs
        simp only [mem_cons, hs, false_or, hlocal.own s _ _ hcount, hcount]

/-- **A walk to the end frees the segments that pass and skips the others**, each in its order. -/
theorem freeSegments_split [DecidablePred (Passes gate extents)] : ∀ {dead : List ℕ} {st : FreePhase},
    (freeSegments gate free extents restore dead st).2 = none →
      (freeSegments gate free extents restore dead st).1.reclaimed =
          st.reclaimed ++ dead.filter (Passes gate extents ·) ∧
        (freeSegments gate free extents restore dead st).1.freeCalls =
          st.freeCalls ++ dead.filter (Passes gate extents ·) ∧
        (freeSegments gate free extents restore dead st).1.skipped = st.skipped ++ dead.filter (¬ Passes gate extents ·)
  | [], st, _ => by simp [freeSegments]
  | t :: rest, st, hend => by
    rcases @freeSegments_cons _ _ gate free extents restore t rest st with
      ⟨hpasses, evidence, ⟨e, -, heq⟩ | ⟨-, heq⟩⟩ | ⟨hdenied, evidence, heq⟩
    · rw [heq] at hend
      cases hend
    · rw [heq] at hend ⊢
      obtain ⟨h1, h2, h3⟩ := freeSegments_split hend
      rw [h1, h2, h3]
      simp [hpasses]
    · rw [heq] at hend ⊢
      obtain ⟨h1, h2, h3⟩ := freeSegments_split hend
      rw [h1, h2, h3]
      simp [hdenied]

end

end Tidefs.Reclaim
