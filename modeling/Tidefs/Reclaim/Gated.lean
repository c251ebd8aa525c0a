/-
# The gated drain

Entries of the reclaim queue are resolved to segments and their deltas applied to the live
counts; segments that reach zero are gated and freed. The counts outlive the call: entries
of several calls add up, a call that fails has applied the deltas before the failure, and
only a segment skipped by the gate gets its count back.

So a segment can be freed on account of one object reported twice, or of an object that
was reported in an earlier call and never shown to the gate (`freed_too_early`). As long as
the resolver and the freer answer, a freed segment has had all its objects submitted; and a call that has
all objects of the segments it touches frees a segment only if the gate allows them all
(`freed_segments_are_dead`).
-/
import Tidefs.Reclaim.Drain

namespace Tidefs.Reclaim

open Word List Option SegmentLiveCounts

variable {Key R F : Type*} (resolve : Key → Except R (Option ℕ))

/-! ### The drain -/

/-- The deltas applied so far: the entries by segment, and the count each segment had before. -/
structure ResolvePhase (Key : Type*) where
  counts : SegmentLiveCounts
  entries : List (ℕ × Key × ℤ)
  prior : List (ℕ × ℕ)

/-- Phase 1: an entry that cannot be resolved ends it. -/
def resolveEntries : List (Key × ℤ) → ResolvePhase Key → ResolvePhase Key × Option (Key × R)
  | [], st => (st, none)
  | (key, delta) :: rest, st =>
    match resolve key with
    | .error e => (st, some (key, e))
    | .ok none => resolveEntries rest st
    | .ok (some s) =>
      resolveEntries rest
        { counts := st.counts.applyDelta s delta
          entries := st.entries ++ [(s, key, delta)]
          prior := if (st.prior.lookup s).isSome then st.prior else (s, st.counts.liveCount s) :: st.prior }

namespace ResolvePhase

variable (st : ResolvePhase Key)

/-- `segment_entries.get`. -/
def entriesOf (s : ℕ) : List (Key × ℤ) :=
  (st.entries.filter fun e => e.1 = s).map Prod.snd

def extentsOf (s : ℕ) : List Key := (st.entriesOf s).map Prod.fst

/-- The extents of a segment that were reported dead. -/
def freedOf (s : ℕ) : List Key :=
  ((st.entriesOf s).filter fun e => e.2 < 0).map Prod.fst

def segments : List ℕ := ((st.entries.map Prod.fst).dedup).mergeSort (· ≤ ·)

def deadSegments : List ℕ := st.segments.filter st.counts.isDead

/-- A skipped segment has its count again. -/
def restore (s : ℕ) (c : SegmentLiveCounts) : SegmentLiveCounts :=
  match st.prior.lookup s with
  | some previous => c.setLiveCount s previous
  | none => c

def handoff : List ReclaimHandoffEntry :=
  st.segments.filterMap fun s =>
    if (st.freedOf s).length = 0 then none
    else some ⟨s, st.counts.liveCount s, (st.freedOf s).length,
      if st.counts.liveCount s = 0 then .cleanerFullyDead else .compactionPartialLive⟩

end ResolvePhase

open ResolvePhase

structure GatedDrainResult (Key : Type*) where
  stats : ReclaimConsumerStats
  handoff : List ReclaimHandoffEntry
  receipt : Option (ReclaimReceipt Key)

/-- What a drain leaves: the counts, the calls to free a segment, the segments skipped, and what it returns. -/
structure Drained (Key R F α : Type*) where
  counts : SegmentLiveCounts
  freeCalls : List ℕ
  skipped : List ℕ
  result : Except (DrainError Key R F) α

/-- `none` is the panic of `chunks` on a batch of zero. -/
def drainReclaimQueueGated [LinearOrder Key] (entries : List (Key × ℤ)) (resolve : Key → Except R (Option ℕ))
    (free : ℕ → Except F Unit) (liveCounts : SegmentLiveCounts) (config : ReclaimConsumerConfig)
    (gate : Key → GateDecision) : Option (Drained Key R F (GatedDrainResult Key)) :=
  if entries.isEmpty then some ⟨liveCounts, [], [], .ok ⟨⟨0, 0, 0, 0, 0, 0, 0⟩, [], none⟩⟩
  else
    let resolved := resolveEntries resolve (entries.take config.maxEntriesPerDrain) ⟨liveCounts, [], []⟩
    let phase := resolved.1
    match resolved.2 with
    | some (key, e) => some ⟨phase.counts, [], [], .error (.resolveError key e)⟩
    | none =>
      if phase.deadSegments.isEmpty then
        some ⟨phase.counts, [], [], .ok ⟨⟨phase.entries.length, 0, 0, entries.length, 0, 0, 0⟩, phase.handoff, none⟩⟩
      else if config.maxFreeBatch = 0 then none
      else
        let walked := freeSegments gate free phase.extentsOf phase.restore phase.deadSegments (.start phase.counts)
        let freed := walked.1.reclaimed.flatMap fun s => (phase.freedOf s).map fun key => (s, key)
        match walked.2 with
        | some (s, e) => some ⟨walked.1.counts, walked.1.freeCalls, walked.1.skipped, .error (.freeError s e)⟩
        | none =>
          some ⟨walked.1.counts, walked.1.freeCalls, walked.1.skipped,
            .ok ⟨⟨phase.entries.length, walked.1.reclaimed.length, freed.length, entries.length,
                walked.1.skipped.length, walked.1.skipped.length,
                divCeil phase.deadSegments.length config.maxFreeBatch⟩,
              phase.handoff, receiptOf freed walked.1.evidence⟩⟩

/-! ### Phase 1 -/

/-- The entries of resolved objects, with their segments. -/
def resolvedEntries (entries : List (Key × ℤ)) : List (ℕ × Key × ℤ) :=
  entries.filterMap fun e => (segmentOf resolve e.1).map fun s => (s, e)

/-- How many of the objects are in the segment. -/
def reported (keys : List Key) (s : ℕ) : ℕ :=
  keys.countP fun key => segmentOf resolve key = some s

theorem reported_cons (key : Key) (keys : List Key) (s : ℕ) :
    reported resolve (key :: keys) s = reported resolve keys s + if segmentOf resolve key = some s then 1 else 0 := by
  unfold reported
  rw [countP_cons]
  simp only [decide_eq_true_eq]

theorem applyDelta_neg_one (c : SegmentLiveCounts) (t s : ℕ) :
    (c.applyDelta t (-1)).liveCount s = c.liveCount s - if t = s then 1 else 0 := by
  unfold applyDelta
  rw [if_neg (by decide), liveCount_setLiveCount]
  by_cases hs : s = t
  · subst hs
    rw [if_pos rfl, if_pos rfl]
    rfl
  · rw [if_neg hs, if_neg (Ne.symm hs), Nat.sub_zero]

/-- What phase 1 leaves when it gets to the end. -/
structure Resolved (keys : List Key) (st st' : ResolvePhase Key) : Prop where
  counts : ∀ s, st'.counts.liveCount s = st.counts.liveCount s - reported resolve keys s
  entries : st'.entries = st.entries ++ resolvedEntries resolve (keys.map fun key => (key, -1))
  prior : ∀ s, st'.prior.lookup s = if (st.prior.lookup s).isSome then st.prior.lookup s
    else if reported resolve keys s = 0 then none else some (st.counts.liveCount s)

theorem resolveEntries_ok : ∀ (keys : List Key) (st : ResolvePhase Key),
    (resolveEntries resolve (keys.map fun key => (key, -1)) st).2 = none →
      Resolved resolve keys st (resolveEntries resolve (keys.map fun key => (key, -1)) st).1
  | [], st, _ =>
    { counts := fun _ => rfl
      entries := (append_nil _).symm
      prior := fun s => by
        split_ifs with hs hr
        · rfl
        · exact not_isSome_iff_eq_none.mp hs
        · exact absurd rfl hr }
  | key :: keys, st, hend => by
    rw [map_cons, resolveEntries] at hend ⊢
    cases hkey : resolve key with
    | error e =>
      rw [hkey] at hend
      cases hend
    | ok segment =>
      rw [hkey] at hend
      cases segment with
      | none =>
        have hseg : segmentOf resolve key = none := by rw [segmentOf, hkey]
        have ih := resolveEntries_ok keys st hend
        have hcount : ∀ s, reported resolve (key :: keys) s = reported resolve keys s := by
          intro s
          rw [reported_cons, hseg, if_neg (by simp), add_zero]
        refine ⟨fun s => ?_, ?_, fun s => ?_⟩
        · rw [hcount]
          exact ih.counts s
        · rw [ih.entries]
          simp [resolvedEntries, hseg]
        · rw [hcount]
          exact ih.prior s
      | some t =>
        have hseg : segmentOf resolve key = some t := by rw [segmentOf, hkey]
        have ih := resolveEntries_ok keys _ hend
        refine ⟨fun s => ?_, ?_, fun s => ?_⟩
        · rw [ih.counts s, applyDelta_neg_one, reported_cons, hseg, Nat.sub_sub, add_comm]
          simp only [some.injEq]
        · rw [ih.entries]
          simp [resolvedEntries, hseg]
        · rw [ih.prior s, reported_cons, hseg]
          simp only [some.injEq]
          by_cases hts : t = s
          · subst hts
            by_cases hst : (st.prior.lookup t).isSome = true
            · rw [if_pos hst, if_pos hst, if_pos hst]
            · simp [hst]
          · rw [if_neg hts, add_zero, applyDelta_neg_one, if_neg hts, Nat.sub_zero]
            split_ifs <;> simp_all [lookup_cons, beq_false_of_ne (Ne.symm hts)]

/-- Phase 1 stops only at an object that the resolver does not answer for. -/
theorem resolveEntries_error : ∀ (keys : List Key) (st : ResolvePhase Key) {err : Key × R},
    (resolveEntries resolve (keys.map fun key => (key, -1)) st).2 = some err → ∃ key ∈ keys, ¬ (resolve key).isOk
  | key :: keys, st, _, herr => by
    rw [map_cons, resolveEntries] at herr
    cases hkey : resolve key with
    | error e => exact ⟨key, mem_cons_self .., by rw [hkey]; exact Bool.false_ne_true⟩
    | ok segment =>
      rw [hkey] at herr
      obtain ⟨k, hk, hbad⟩ : ∃ k ∈ keys, ¬ (resolve k).isOk := by
        cases segment with
        | none => exact resolveEntries_error keys _ herr
        | some s => exact resolveEntries_error keys _ herr
      exact ⟨k, mem_cons_of_mem _ hk, hbad⟩

section Phase

variable {resolve} {keys : List Key} {c : SegmentLiveCounts} {st : ResolvePhase Key}
  {s : ℕ}

theorem mem_resolvedEntries {key : Key} {d : ℤ} :
    (s, key, d) ∈ resolvedEntries resolve (keys.map fun key => (key, -1)) ↔
      key ∈ keys ∧ segmentOf resolve key = some s ∧ d = -1 := by
  unfold resolvedEntries
  rw [mem_filterMap]
  constructor
  · rintro ⟨e, he, heq⟩
    obtain ⟨key', hkey', rfl⟩ := mem_map.mp he
    obtain ⟨s', hs', heq⟩ := map_eq_some_iff.mp heq
    obtain ⟨rfl, rfl, rfl⟩ : s' = s ∧ key' = key ∧ (-1 : ℤ) = d := by simpa using heq
    exact ⟨hkey', hs', rfl⟩
  · rintro ⟨hkey, hseg, rfl⟩
    refine ⟨(key, -1), mem_map.mpr ⟨key, hkey, rfl⟩, ?_⟩
    rw [hseg]
    rfl

variable (h : Resolved resolve keys ⟨c, [], []⟩ st)
include h

theorem mem_extentsOf {key : Key} : key ∈ st.extentsOf s ↔ key ∈ keys ∧ segmentOf resolve key = some s := by
  unfold extentsOf entriesOf
  rw [h.entries, nil_append]
  constructor
  · intro hkey
    obtain ⟨e, he, rfl⟩ := mem_map.mp hkey
    obtain ⟨⟨s', key, d⟩, hfiltered, rfl⟩ := mem_map.mp he
    obtain ⟨hmem, hs⟩ := mem_filter.mp hfiltered
    obtain ⟨hkey, hseg, -⟩ := mem_resolvedEntries.mp hmem
    have hs : s' = s := by simpa using hs
    exact ⟨hkey, hs ▸ hseg⟩
  · rintro ⟨hkey, hseg⟩
    refine mem_map.mpr ⟨(key, -1), mem_map.mpr ⟨(s, key, -1), ?_, rfl⟩, rfl⟩
    exact mem_filter.mpr ⟨mem_resolvedEntries.mpr ⟨hkey, hseg, rfl⟩, by simp⟩

theorem mem_deadSegments :
    s ∈ st.deadSegments ↔ reported resolve keys s ≠ 0 ∧ c.liveCount s ≤ reported resolve keys s := by
  have hcount : st.counts.liveCount s = c.liveCount s - reported resolve keys s := h.counts s
  have hmem : s ∈ st.segments ↔ reported resolve keys s ≠ 0 := by
    unfold segments reported
    rw [mem_mergeSort, mem_dedup, h.entries, nil_append, ← Nat.pos_iff_ne_zero, countP_pos_iff]
    constructor
    · intro hs
      obtain ⟨⟨s', key, d⟩, hmem, rfl⟩ := mem_map.mp hs
      obtain ⟨hkey, hseg, -⟩ := mem_resolvedEntries.mp hmem
      exact ⟨key, hkey, by simpa using hseg⟩
    · rintro ⟨key, hkey, hseg⟩
      exact mem_map.mpr ⟨(s, key, -1), mem_resolvedEntries.mpr ⟨hkey, by simpa using hseg, rfl⟩, rfl⟩
  unfold deadSegments isDead
  rw [mem_filter, hmem, hcount, decide_eq_true_eq, Nat.sub_eq_zero_iff_le]

omit h

theorem deadSegments_nodup (st : ResolvePhase Key) : st.deadSegments.Nodup := by
  apply List.Nodup.filter
  exact (mergeSort_perm _ _).nodup_iff.mpr (nodup_dedup _)

theorem restore_local (st : ResolvePhase Key) : Local st.restore := by
  constructor
  · intro s c s' hs
    unfold restore
    split
    · rw [liveCount_setLiveCount, if_neg hs]
    · rfl
  · intro s c c' hc
    unfold restore
    split
    · rw [liveCount_setLiveCount, liveCount_setLiveCount, if_pos rfl, if_pos rfl]
    · exact hc

/-- A skipped segment that was touched has the count from before the call. -/
theorem restore_touched (h : Resolved resolve keys ⟨c, [], []⟩ st) (hs : reported resolve keys s ≠ 0)
    (c' : SegmentLiveCounts) : (st.restore s c').liveCount s = c.liveCount s := by
  have hprior : st.prior.lookup s = some (c.liveCount s) := by
    rw [h.prior s, if_neg (by simp), if_neg hs]
  unfold restore
  rw [hprior]
  exact (c'.liveCount_setLiveCount ..).trans (if_pos rfl)

end Phase

/-! ### Calls -/

/-- A call: objects reported dead, each by a delta of minus one, and the world it runs in. -/
structure Call (Key F : Type*) where
  keys : List Key
  config : ReclaimConsumerConfig
  free : ℕ → Except F Unit
  gate : Key → GateDecision

/-- The objects that are processed. -/
def Call.processed (call : Call Key F) : List Key := call.keys.take call.config.maxEntriesPerDrain

section Calls

variable [LinearOrder Key]

def Call.drain (call : Call Key F) (counts : SegmentLiveCounts) : Option (Drained Key R F (GatedDrainResult Key)) :=
  drainReclaimQueueGated (call.keys.map fun key => (key, -1)) resolve call.free counts call.config call.gate

variable {resolve} {counts : SegmentLiveCounts} {o : Drained Key R F (GatedDrainResult Key)} {call : Call Key F}
  (ho : call.drain resolve counts = some o)
include ho

/-- The ways a drain can go: nothing to walk over, or a walk over the dead segments. -/
theorem drain_cases : (o.freeCalls = [] ∧ (((∃ e, o.result = .error e) ∧ ∃ key ∈ call.processed, ¬ (resolve key).isOk) ∨
        ((∃ r, o.result = .ok r) ∧ o.skipped = [] ∧ ∃ st, Resolved resolve call.processed ⟨counts, [], []⟩ st ∧
          st.deadSegments = [] ∧ o.counts = st.counts))) ∨ ∃ st, Resolved resolve call.processed ⟨counts, [], []⟩ st ∧
        ∃ walked, walked = freeSegments call.gate call.free st.extentsOf st.restore st.deadSegments (.start st.counts) ∧
          o.freeCalls = walked.1.freeCalls ∧ o.skipped = walked.1.skipped ∧ o.counts = walked.1.counts ∧
          ((∃ r, o.result = .ok r) ↔ walked.2 = none) := by
  unfold Call.drain drainReclaimQueueGated at ho
  by_cases hempty : call.keys = []
  · rw [if_pos (by rw [hempty]; rfl)] at ho
    obtain rfl := some.inj ho
    have hprocessed : call.processed = [] := by rw [Call.processed, hempty, take_nil]
    refine .inl ⟨rfl, .inr ⟨⟨_, rfl⟩, rfl, ⟨counts, [], []⟩, ?_, ?_, rfl⟩⟩
    · rw [hprocessed]
      exact resolveEntries_ok resolve [] _ rfl
    · simp [deadSegments, segments]
  have htake : (call.keys.map fun key => (key, (-1 : ℤ))).take call.config.maxEntriesPerDrain =
      call.processed.map fun key => (key, -1) := map_take.symm
  rw [if_neg (by simpa using hempty), htake] at ho
  dsimp only at ho
  set r := resolveEntries resolve (call.processed.map fun key => (key, -1)) ⟨counts, [], []⟩
  cases hres : r.2 with
  | some err =>
    rw [hres] at ho
    obtain rfl := some.inj ho
    exact .inl ⟨rfl, .inl ⟨⟨_, rfl⟩, resolveEntries_error resolve _ _ hres⟩⟩
  | none =>
    have hresolved := resolveEntries_ok resolve call.processed ⟨counts, [], []⟩ hres
    rw [hres] at ho
    obtain ⟨st, hst⟩ : ∃ st, st = r.1 := ⟨_, rfl⟩
    rw [← hst] at hresolved ho
    dsimp only at ho
    by_cases hdead : st.deadSegments = []
    · rw [if_pos (by rw [hdead]; rfl)] at ho
      obtain rfl := some.inj ho
      exact .inl ⟨rfl, .inr ⟨⟨_, rfl⟩, rfl, st, hresolved, hdead, rfl⟩⟩
    rw [if_neg (by simpa using hdead)] at ho
    split_ifs at ho with hbatch
    refine .inr ⟨st, hresolved, _, rfl, ?_⟩
    split at ho
    next s e hwalk =>
      obtain rfl := some.inj ho
      exact ⟨rfl, rfl, rfl, by simp [hwalk]⟩
    next hwalk =>
      obtain rfl := some.inj ho
      exact ⟨rfl, rfl, rfl, iff_of_true ⟨_, rfl⟩ hwalk⟩

/-- **What a call to free a segment has seen**: the count was used up by the objects of this call, and the gate allows
each of them. -/
theorem drain_freeCalls {s : ℕ} (hs : s ∈ o.freeCalls) :
    counts.liveCount s ≤ reported resolve call.processed s ∧ (∃ key ∈ call.processed, segmentOf resolve key = some s) ∧
      ∀ key ∈ call.processed, segmentOf resolve key = some s → (call.gate key).isAllowed = true := by
  rcases drain_cases ho with ⟨hnone, -⟩ | ⟨st, hst, walked, rfl, hfree, -⟩
  · rw [hnone] at hs
    cases hs
  · rw [hfree] at hs
    rcases mem_freeCalls hs with hs | ⟨hdead, hpasses⟩
    · cases hs
    · obtain ⟨htouched, hcount⟩ := (mem_deadSegments hst).mp hdead
      refine ⟨hcount, ?_, fun key hkey hseg => hpasses key ((mem_extentsOf hst).mpr ⟨hkey, hseg⟩)⟩
      obtain ⟨key, hkey, hseg⟩ := countP_pos_iff.mp (pos_of_ne_zero htouched)
      exact ⟨key, hkey, by simpa using hseg⟩

open Classical in
/-- **The counts after a call that succeeds**: skipped segments keep theirs, the others lose what was reported. -/
theorem drain_counts {r : GatedDrainResult Key} (hr : o.result = .ok r) (s : ℕ) : o.counts.liveCount s =
      if s ∈ o.skipped then counts.liveCount s else counts.liveCount s - reported resolve call.processed s := by
  rcases drain_cases ho with ⟨-, ⟨⟨e, he⟩, -⟩ | ⟨-, hskipped, st, hst, -, hcounts⟩⟩ |
    ⟨st, hst, walked, rfl, -, hskipped, hcounts, hend⟩
  · rw [hr] at he
    cases he
  · rw [hskipped, hcounts, if_neg (by simp)]
    exact hst.counts s
  · have hwalk := hend.mp ⟨r, hr⟩
    have hsplit := (freeSegments_split hwalk).2.2
    rw [hcounts, freeSegments_counts (restore_local st) s (deadSegments_nodup st) hwalk, hskipped, hsplit]
    by_cases hdead : s ∈ st.deadSegments
    · obtain ⟨htouched, hcount⟩ := (mem_deadSegments hst).mp hdead
      rw [if_pos hdead]
      by_cases hpasses : Passes call.gate st.extentsOf s
      · rw [if_pos hpasses, if_neg (by simp [FreePhase.start, hpasses])]
        omega
      · rw [if_neg hpasses, if_pos (by simp [FreePhase.start, hpasses, hdead])]
        exact restore_touched hst htouched _
    · rw [if_neg hdead, if_neg (by simp [FreePhase.start, hdead])]
      exact hst.counts s

variable (resolve) in
omit ho in
/-- The resolver answers for every object that is processed, and every call to free a segment succeeds. -/
def Answered (call : Call Key F) (o : Drained Key R F (GatedDrainResult Key)) : Prop :=
  (∀ key ∈ call.processed, (resolve key).isOk) ∧ ∀ s ∈ o.freeCalls, (call.free s).isOk

theorem ok_of_answered (hanswered : Answered resolve call o) : ∃ r, o.result = .ok r := by
  rcases drain_cases ho with ⟨-, ⟨-, key, hkey, hbad⟩ | ⟨hok, -⟩⟩ | ⟨st, -, walked, rfl, hfree, -, -, hend⟩
  · exact absurd (hanswered.1 key hkey) hbad
  · exact hok
  · exact hend.mpr (freeSegments_end (hfree ▸ hanswered.2))

omit ho

/-! ### Runs -/

variable (resolve)

/-- The counts, the objects submitted so far, and those that are not to be submitted again. -/
structure History (Key : Type*) [DecidableEq Key] where
  counts : SegmentLiveCounts
  submitted : Finset Key
  consumed : Finset Key

/-- Entries of a call that failed, and of segments that were skipped, are submitted again. -/
def History.after (h : History Key) (call : Call Key F)
    (o : Drained Key R F (GatedDrainResult Key)) : History Key :=
  { counts := o.counts
    submitted := h.submitted ∪ call.processed.toFinset
    consumed := match o.result with
      | .error _ => h.consumed
      | .ok _ => h.consumed ∪
        (call.processed.filter fun key => ∀ s ∈ segmentOf resolve key, s ∉ o.skipped).toFinset }

/-- A run of calls that are answered, each with objects that are not consumed; none panics. -/
inductive Run (resolve : Key → Except R (Option ℕ)) (objects : Finset Key) :
    History Key → List (Call Key F) → History Key → Prop
  | nil (h : History Key) : Run resolve objects h [] h
  | cons {h h' : History Key} {call : Call Key F} {calls : List (Call Key F)}
      {o : Drained Key R F (GatedDrainResult Key)} (honce : call.keys.Nodup)
      (hobjects : ∀ key ∈ call.keys, key ∈ objects ∧ key ∉ h.consumed) (ho : call.drain resolve h.counts = some o)
      (hanswered : Answered resolve call o) (hrest : Run resolve objects (h.after resolve call o) calls h') :
      Run resolve objects h (call :: calls) h'

def History.start (counts : SegmentLiveCounts) : History Key := ⟨counts, ∅, ∅⟩

def objectsOf (objects : Finset Key) (s : ℕ) : Finset Key :=
  objects.filter fun key => segmentOf resolve key = some s

/-- The call has all the objects of the segments it touches. -/
def Call.Whole (objects : Finset Key) (call : Call Key F) : Prop :=
  ∀ key ∈ call.processed, ∀ s, segmentOf resolve key = some s → ∀ other ∈ objectsOf resolve objects s,
    other ∈ call.processed

/-- The counts are those of the objects not consumed. -/
structure Exact (objects : Finset Key) (h : History Key) : Prop where
  counts : ∀ s, h.counts.liveCount s = (objectsOf resolve objects s \ h.consumed).card
  consumed : h.consumed ⊆ h.submitted

/-- The objects of a segment that the call processes. -/
def Call.inSegment (call : Call Key F) (s : ℕ) : Finset Key :=
  (call.processed.filter fun key => segmentOf resolve key = some s).toFinset

variable {resolve}

theorem mem_inSegment {s : ℕ} {key : Key} :
    key ∈ call.inSegment resolve s ↔ key ∈ call.processed ∧ segmentOf resolve key = some s := by
  rw [Call.inSegment, List.mem_toFinset, List.mem_filter, decide_eq_true_eq]

variable {objects : Finset Key} {h : History Key} {call : Call Key F}

theorem card_inSegment (honce : call.keys.Nodup) (s : ℕ) :
    (call.inSegment resolve s).card = reported resolve call.processed s := by
  have hnodup : call.processed.Nodup := honce.sublist (take_sublist _ _)
  rw [Call.inSegment, toFinset_card_of_nodup (hnodup.filter _), reported, countP_eq_length_filter]

theorem inSegment_subset (hobjects : ∀ key ∈ call.keys, key ∈ objects ∧ key ∉ h.consumed) (s : ℕ) :
    call.inSegment resolve s ⊆ objectsOf resolve objects s \ h.consumed := by
  intro key hkey
  obtain ⟨hmem, hseg⟩ := mem_inSegment.mp hkey
  obtain ⟨hobject, hfresh⟩ := hobjects key (mem_of_mem_take hmem)
  exact Finset.mem_sdiff.mpr ⟨Finset.mem_filter.mpr ⟨hobject, hseg⟩, hfresh⟩

/-- **A call that is answered keeps the counts exact.** -/
theorem step_exact (he : Exact resolve objects h) (honce : call.keys.Nodup)
    (hobjects : ∀ key ∈ call.keys, key ∈ objects ∧ key ∉ h.consumed)
    (ho : call.drain resolve h.counts = some o) (hanswered : Answered resolve call o) :
    Exact resolve objects (h.after resolve call o) := by
  obtain ⟨r, hr⟩ := ok_of_answered ho hanswered
  have hconsumed : (h.after resolve call o).consumed = h.consumed ∪
      (call.processed.filter fun key => ∀ s ∈ segmentOf resolve key, s ∉ o.skipped).toFinset := by
    unfold History.after
    rw [hr]
  constructor
  · intro s
    show o.counts.liveCount s = _
    rw [drain_counts ho hr, he.counts, hconsumed]
    split_ifs with hs
    · congr 1
      ext key
      simp only [Finset.mem_sdiff, Finset.mem_union, List.mem_toFinset, List.mem_filter, decide_eq_true_eq]
      constructor
      · rintro ⟨hkey, hfresh⟩
        refine ⟨hkey, fun hmem => hmem.elim hfresh fun hmem => ?_⟩
        exact hmem.2 s (Finset.mem_filter.mp hkey).2 hs
      · rintro ⟨hkey, hfresh⟩
        exact ⟨hkey, fun hmem => hfresh (.inl hmem)⟩
    · rw [← card_inSegment honce, ← Finset.card_sdiff_of_subset (inSegment_subset hobjects s)]
      congr 1
      ext key
      simp only [Finset.mem_sdiff, Finset.mem_union, List.mem_toFinset, List.mem_filter, decide_eq_true_eq,
        mem_inSegment]
      constructor
      · rintro ⟨⟨hkey, hfresh⟩, hother⟩
        exact ⟨hkey, fun hmem => hmem.elim hfresh fun hmem => hother ⟨hmem.1, (Finset.mem_filter.mp hkey).2⟩⟩
      · rintro ⟨hkey, hfresh⟩
        refine ⟨⟨hkey, fun hmem => hfresh (.inl hmem)⟩, fun hmem => hfresh (.inr ⟨hmem.1, fun t ht => ?_⟩)⟩
        obtain rfl : s = t := Option.some.inj (hmem.2.symm.trans ht)
        exact hs
  · rw [hconsumed]
    refine Finset.union_subset_union he.consumed fun key hkey => ?_
    exact List.mem_toFinset.mpr (List.mem_filter.mp (List.mem_toFinset.mp hkey)).1

theorem run_exact {h' : History Key} {calls : List (Call Key F)} (he : Exact resolve objects h)
    (hrun : Run resolve objects h calls h') : Exact resolve objects h' := by
  induction hrun with
  | nil h => exact he
  | cons honce hobjects ho hanswered _ ih => exact ih (step_exact he honce hobjects ho hanswered)

/-- **Freed segments are dead.** From exact counts, after any run of answered calls, a segment freed by the
next call has had all its objects submitted. And whatever happened before, a call that has all the objects of the
segments it touches frees a segment only if it has submitted each of its objects and the gate allows it. -/
theorem freed_segments_are_dead (resolve : Key → Except R (Option ℕ)) (objects : Finset Key)
    (counts : SegmentLiveCounts) (hexact : ∀ s, counts.liveCount s = (objectsOf resolve objects s).card)
    (calls : List (Call Key F)) (h : History Key) (call : Call Key F) (honce : call.keys.Nodup)
    (hobjects : ∀ key ∈ call.keys, key ∈ objects ∧ key ∉ h.consumed) (o : Drained Key R F (GatedDrainResult Key))
    (ho : call.drain resolve h.counts = some o) (s : ℕ) (hs : s ∈ o.freeCalls) :
    (Run resolve objects (.start counts) calls h →
        ∀ key ∈ objectsOf resolve objects s, key ∈ h.submitted ∨ key ∈ call.processed) ∧ (call.Whole resolve objects →
        ∀ key ∈ objectsOf resolve objects s, key ∈ call.processed ∧ (call.gate key).isAllowed = true) := by
  obtain ⟨hcount, ⟨first, hfirst, hseg⟩, hallowed⟩ := drain_freeCalls ho hs
  constructor
  · intro hok key hkey
    have hstart : Exact resolve objects (.start counts) :=
      ⟨fun t => by rw [History.start, Finset.sdiff_empty]; exact hexact t, Finset.Subset.refl _⟩
    have he := run_exact hstart hok
    have hall : call.inSegment resolve s = objectsOf resolve objects s \ h.consumed := by
      refine Finset.eq_of_subset_of_card_le (inSegment_subset hobjects s) ?_
      rw [← he.counts, card_inSegment honce]
      exact hcount
    by_cases hold : key ∈ h.consumed
    · exact .inl (he.consumed hold)
    · have hmem : key ∈ call.inSegment resolve s := hall ▸ Finset.mem_sdiff.mpr ⟨hkey, hold⟩
      exact .inr (mem_inSegment.mp hmem).1
  · intro hwhole key hkey
    have hmem := hwhole first hfirst s hseg key hkey
    exact ⟨hmem, hallowed key hmem (Finset.mem_filter.mp hkey).2⟩

/-! ### Two objects in one segment -/

/-- Objects 1 and 2 are in segment 1; object 3 cannot be resolved. -/
def pair (key : ℕ) : Except Unit (Option ℕ) := if key = 3 then .error () else .ok (some 1)

def pairCounts : SegmentLiveCounts := ⟨fun s => if s = 1 then 2 else 0⟩

/-- A call with some objects, where the gate allows those given. -/
def report (keys allowed : List ℕ) : Call ℕ Unit :=
  ⟨keys, ⟨1024, 64⟩, fun _ => .ok (), fun key =>
    if key ∈ allowed then .allow ⟨1, 1⟩ else .deny .snapshotPinned⟩

def freedBy (counts : SegmentLiveCounts) : List (Call ℕ Unit) → Option (List (List ℕ))
  | [] => some []
  | call :: calls => (call.drain pair counts).bind fun o => (freedBy o.counts calls).map (o.freeCalls :: ·)

theorem pairCounts_exact (s : ℕ) : pairCounts.liveCount s = (objectsOf pair {1, 2} s).card := by
  by_cases hs : s = 1
  · subst hs
    decide
  · have hnone : objectsOf pair {1, 2} s = ∅ := by
      ext key
      simp only [objectsOf, Finset.mem_filter, Finset.mem_insert, Finset.mem_singleton, Finset.notMem_empty,
        iff_false, not_and]
      rintro (rfl | rfl) hseg
      · exact hs (some.inj hseg).symm
      · exact hs (some.inj hseg).symm
    rw [hnone]
    exact if_neg hs

theorem freed_segments_are_dead_pair :
    (1 ∈ (report [1, 2] [1, 2]).processed ∧ ((report [1, 2] [1, 2]).gate 1).isAllowed = true) ∧
      2 ∈ (report [1, 2] [1, 2]).processed ∧ ((report [1, 2] [1, 2]).gate 2).isAllowed = true := by
  have hfree : ((report [1, 2] [1, 2]).drain pair pairCounts).map (fun o => o.freeCalls) = some [1] := by
    decide +kernel
  obtain ⟨o, ho, hfree⟩ := map_eq_some_iff.mp hfree
  have hdead := (freed_segments_are_dead pair {1, 2} pairCounts pairCounts_exact [] (.start pairCounts)
    (report [1, 2] [1, 2]) (by decide) (by decide) o ho 1 (by rw [hfree]; decide)).2 fun key _ s _ other hother => ?_
  · exact ⟨hdead 1 (by decide), hdead 2 (by decide)⟩
  · have hmem : other = 1 ∨ other = 2 := by simpa using (Finset.mem_filter.mp hother).1
    rcases hmem with rfl | rfl <;> decide

/-- A call fails at the object that cannot be resolved, after object 1 was counted; object 1 is submitted again and the
segment is freed, although object 2 was never submitted. And where the objects come in two calls, the gate is only
asked about the second: the segment is freed although the gate does not allow object 1. -/
theorem freed_too_early : freedBy pairCounts [report [1, 3] [1, 2], report [1] [1, 2]] = some [[], [1]] ∧
      freedBy pairCounts [report [1] [2], report [2] [2]] = some [[], [1]] := by
  decide +kernel

end Calls

end Tidefs.Reclaim
