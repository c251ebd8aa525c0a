/-
# The receipt-bound drain

Dead objects wait in a queue until a replacement receipt of a stable generation authorizes
their reclaim. A drain selects such objects and frees a segment if those it selected are
all of the segment's objects in the queue and no fewer than its live count.

Three numbers are compared, not sets of objects. But the selected objects of a segment are
among those queued, and those among the objects not yet reclaimed: if the live count is the
number of the latter, it follows that they are all selected (`selected_eq_unreclaimed`), so
each is authorized and, since the gate is asked about every selected object, allowed
(`freed_segments_are_authorized`).
-/
import Tidefs.Lib.Ordered
import Tidefs.Reclaim.Gated

namespace Tidefs.Reclaim

open Word Ordered List Option

/-! ### The queue -/

/-- How the object was stored. -/
inductive DeadObjectReceiptPolicy where
  | replicated (copies : ℕ)
  | erasure (dataShards parityShards : ℕ)
deriving DecidableEq

namespace DeadObjectReceiptPolicy

def targetWidth : DeadObjectReceiptPolicy → ℕ
  | replicated copies => copies
  | erasure dataShards parityShards => dataShards + parityShards

def isWellFormed : DeadObjectReceiptPolicy → Bool
  | replicated copies => 0 < copies
  | erasure dataShards parityShards => 0 < dataShards && 0 < parityShards

end DeadObjectReceiptPolicy

structure DeadObjectReplacementReceipt (Key : Type*) where
  objectKey : Key
  receiptEpoch : ℕ
  receiptGeneration : ℕ
  redundancyPolicy : DeadObjectReceiptPolicy
  targetCount : ℕ

namespace DeadObjectReplacementReceipt

variable {Key : Type*} [DecidableEq Key] (r : DeadObjectReplacementReceipt Key)

def isSynthetic : Bool := r.receiptGeneration = 0

def authorizesReclaimFor (objectKey : Key) : Bool :=
  !r.isSynthetic && 0 < r.receiptEpoch && r.objectKey = objectKey && r.redundancyPolicy.isWellFormed &&
    r.redundancyPolicy.targetWidth ≤ r.targetCount

def authorizesReclaimForWithStableGeneration (objectKey : Key) (stableCommittedGeneration : ℕ) : Bool :=
  0 < r.receiptGeneration && 0 < r.receiptEpoch && r.receiptGeneration ≤ stableCommittedGeneration &&
    r.authorizesReclaimFor objectKey

end DeadObjectReplacementReceipt

structure DeadObjectEntry (Key : Type*) where
  objectId : Key
  deathCommitGroup : ℕ
  eligible : Bool
  replacementReceipt : Option (DeadObjectReplacementReceipt Key)

namespace DeadObjectEntry

variable {Key : Type*} [DecidableEq Key] (e : DeadObjectEntry Key)

def isReclaimable (stableCommittedTxg : ℕ) : Bool := e.eligible && e.deathCommitGroup < stableCommittedTxg

def isReceiptBoundReclaimableWithStableGeneration (stableCommittedTxg stableCommittedGeneration : ℕ) : Bool :=
  if !e.isReclaimable stableCommittedTxg then false
  else
    match e.replacementReceipt with
    | some receipt => receipt.authorizesReclaimForWithStableGeneration e.objectId stableCommittedGeneration
    | none => false

end DeadObjectEntry

open DeadObjectEntry

/-- The entries by object; each is of the object it is found under. -/
structure DeadObjectReclaimQueue (Key : Type*) [LinearOrder Key] where
  entries : OrdMap Key (DeadObjectEntry Key)
  keyed : ∀ e ∈ entries.entries, e.2.objectId = e.1

namespace DeadObjectReclaimQueue

variable {Key : Type*} [LinearOrder Key] (q : DeadObjectReclaimQueue Key)

def new : DeadObjectReclaimQueue Key := ⟨OrdMap.empty, fun _ he => nomatch he⟩

/-- An entry of an object that is there already is not taken. -/
def enqueue (e : DeadObjectEntry Key) : DeadObjectReclaimQueue Key × Bool :=
  match q.entries.get? e.objectId with
  | some _ => (q, false)
  | none => (⟨q.entries.insert e.objectId e, fun a ha => by
      have hget := OrdMap.get?_eq_some.mpr ha
      rw [OrdMap.get?_insert] at hget
      split_ifs at hget with hkey
      · rw [hkey, some.inj hget]
      · exact q.keyed a (OrdMap.get?_eq_some.mp hget)⟩, true)

def len : ℕ := q.entries.entries.length

def entry (objectId : Key) : Option (DeadObjectEntry Key) := q.entries.get? objectId

def allEntries : List (DeadObjectEntry Key) := q.entries.entries.map Prod.snd

def dequeueReceiptBoundBatchWithStableGeneration (maxCount stableCommittedTxg stableCommittedGeneration : ℕ) :
    List (DeadObjectEntry Key) :=
  (q.allEntries.filter fun e =>
    e.isReceiptBoundReclaimableWithStableGeneration stableCommittedTxg stableCommittedGeneration).take maxCount

/-- The objects in the queue, in order. -/
def keys : List Key := q.allEntries.map DeadObjectEntry.objectId

theorem keys_eq : q.keys = q.entries.entries.map Prod.fst := by
  unfold keys allEntries
  rw [List.map_map]
  exact map_congr_left fun e he => q.keyed e he

theorem keys_nodup : q.keys.Nodup := by
  rw [keys_eq]
  exact q.entries.keys_nodup

variable {e : DeadObjectEntry Key}

theorem entry_of_mem (he : e ∈ q.allEntries) : q.entry e.objectId = some e := by
  obtain ⟨⟨key, e⟩, hmem, rfl⟩ := mem_map.mp he
  have hkey : e.objectId = key := q.keyed _ hmem
  exact OrdMap.get?_eq_some.mpr (hkey ▸ hmem)

/-- Selected objects are queued, once each. -/
theorem dequeue_sublist (n txg gen : ℕ) :
    ((q.dequeueReceiptBoundBatchWithStableGeneration n txg gen).map objectId).Sublist q.keys :=
  ((take_sublist _ _).trans filter_sublist).map _

theorem mem_dequeue {n txg gen : ℕ} (he : e ∈ q.dequeueReceiptBoundBatchWithStableGeneration n txg gen) :
    q.entry e.objectId = some e ∧ e.isReceiptBoundReclaimableWithStableGeneration txg gen = true := by
  obtain ⟨hmem, hpass⟩ := mem_filter.mp (mem_of_mem_take he)
  exact ⟨q.entry_of_mem hmem, hpass⟩

end DeadObjectReclaimQueue

/-- What the release of an object needs: eligible, dead before the stable group, and a stable receipt for it. -/
def Authorized {Key : Type*} [DecidableEq Key] (e : DeadObjectEntry Key) (txg gen : ℕ) : Prop :=
  e.eligible = true ∧ e.deathCommitGroup < txg ∧ ∃ receipt, e.replacementReceipt = some receipt ∧
    receipt.receiptGeneration ≤ gen ∧ receipt.authorizesReclaimFor e.objectId = true

theorem authorized_of_reclaimable {Key : Type*} [DecidableEq Key] {e : DeadObjectEntry Key} {txg gen : ℕ}
    (h : e.isReceiptBoundReclaimableWithStableGeneration txg gen = true) : Authorized e txg gen := by
  unfold isReceiptBoundReclaimableWithStableGeneration at h
  by_cases hrec : e.isReclaimable txg = true
  · rw [hrec] at h
    rw [isReclaimable, Bool.and_eq_true, decide_eq_true_eq] at hrec
    cases hreceipt : e.replacementReceipt with
    | none =>
      rw [hreceipt] at h
      cases h
    | some receipt =>
      rw [hreceipt] at h
      simp only [Bool.not_true, Bool.false_eq_true, if_false,
        DeadObjectReplacementReceipt.authorizesReclaimForWithStableGeneration, Bool.and_eq_true,
        decide_eq_true_eq] at h
      exact ⟨hrec.1, hrec.2, receipt, hreceipt, h.1.2, h.2⟩
  · rw [Bool.eq_false_of_not_eq_true hrec] at h
    cases h

/-! ### The drain -/

section Drain

variable {Key R F : Type*} [LinearOrder Key]

/-- The segments of objects, leaving out those without one; the first that cannot be resolved ends it. -/
def resolveKeys (resolve : Key → Except R (Option ℕ)) : List Key → Except (Key × R) (List (ℕ × Key))
  | [] => .ok []
  | key :: keys =>
    match resolve key with
    | .error e => .error (key, e)
    | .ok none => resolveKeys resolve keys
    | .ok (some s) => (resolveKeys resolve keys).map ((s, key) :: ·)

/-- `segment_entries.get`, in the order of selection. -/
def extentsIn (selected : List (ℕ × Key)) (s : ℕ) : List Key := (selected.filter fun e => e.1 = s).map Prod.snd

/-- The selected objects cover the live ones, and are all that is queued. -/
def coversSegment (queued selected : List (ℕ × Key)) (counts : SegmentLiveCounts) (s : ℕ) : Bool :=
  let liveCount := counts.liveCount s
  let selectedEntries := (extentsIn selected s).length
  let queuedEntries := if (extentsIn queued s).length = 0 then selectedEntries else (extentsIn queued s).length
  (liveCount = 0 || liveCount ≤ selectedEntries) && selectedEntries = queuedEntries

def segmentsIn (selected : List (ℕ × Key)) : List ℕ := ((selected.map Prod.fst).dedup).mergeSort (· ≤ ·)

structure ReceiptBoundDeadObjectDrain (Key : Type*) where
  stats : ReclaimConsumerStats
  handoff : List ReclaimHandoffEntry
  ackObjectIds : List Key
  reclaimedSegmentIds : List ℕ
  receipt : Option (ReclaimReceipt Key)

/-- A drain without work. -/
def idleDrain (depth : ℕ) : ReceiptBoundDeadObjectDrain Key := ⟨⟨0, 0, 0, depth, 0, 0, 0⟩, [], [], [], none⟩

def receiptBoundHandoff (selected : List (ℕ × Key)) (dead : List ℕ) (counts : SegmentLiveCounts) :
    List ReclaimHandoffEntry :=
  (segmentsIn selected).map fun s =>
    if s ∈ dead then ⟨s, 0, (extentsIn selected s).length, .cleanerFullyDead⟩
    else ⟨s, counts.liveCount s, (extentsIn selected s).length, .compactionPartialLive⟩

/-- `none` is the panic of `chunks` on a batch of zero. -/
def drainReceiptBoundDeadObjects (queue : DeadObjectReclaimQueue Key)
    (stableCommittedTxg stableCommittedGeneration maxCount : ℕ) (resolve : Key → Except R (Option ℕ))
    (free : ℕ → Except F Unit) (liveCounts : SegmentLiveCounts) (config : ReclaimConsumerConfig)
    (gate : Key → GateDecision) : Option (Drained Key R F (ReceiptBoundDeadObjectDrain Key)) :=
  let limit := min maxCount config.maxEntriesPerDrain
  let entries :=
    queue.dequeueReceiptBoundBatchWithStableGeneration limit stableCommittedTxg stableCommittedGeneration
  if limit = 0 ∨ queue.len = 0 ∨ entries = [] then some ⟨liveCounts, [], [], .ok (idleDrain queue.len)⟩
  else
    match resolveKeys resolve queue.keys with
    | .error (key, e) => some ⟨liveCounts, [], [], .error (.resolveError key e)⟩
    | .ok queued =>
      match resolveKeys resolve (entries.map DeadObjectEntry.objectId) with
      | .error (key, e) => some ⟨liveCounts, [], [], .error (.resolveError key e)⟩
      | .ok selected =>
        let dead := (segmentsIn selected).filter (coversSegment queued selected liveCounts)
        if config.maxFreeBatch = 0 then none
        else
          let walked := freeSegments gate free (extentsIn selected) (fun _ c => c) dead (.start liveCounts)
          match walked.2 with
          | some (s, e) => some ⟨walked.1.counts, walked.1.freeCalls, walked.1.skipped, .error (.freeError s e)⟩
          | none =>
            let acks := walked.1.reclaimed.flatMap (extentsIn selected)
            let freed := walked.1.reclaimed.flatMap fun s => (extentsIn selected s).map fun key => (s, key)
            some ⟨walked.1.counts, walked.1.freeCalls, walked.1.skipped,
              .ok ⟨⟨selected.length, walked.1.reclaimed.length, acks.length, queue.len - acks.length,
                  walked.1.skipped.length, walked.1.skipped.length, divCeil dead.length config.maxFreeBatch⟩,
                receiptBoundHandoff selected dead liveCounts, acks, walked.1.reclaimed,
                receiptOf freed walked.1.evidence⟩⟩

/-! ### Selected objects -/

variable {resolve : Key → Except R (Option ℕ)}

omit [LinearOrder Key] in
theorem resolveKeys_ok : ∀ {keys : List Key} {resolved : List (ℕ × Key)}, resolveKeys resolve keys = .ok resolved →
    resolved = keys.filterMap fun key => (segmentOf resolve key).map fun s => (s, key)
  | [], _, h => (Except.ok.inj h).symm
  | key :: keys, resolved, h => by
    rw [resolveKeys] at h
    cases hkey : resolve key with
    | error e =>
      rw [hkey] at h
      cases h
    | ok segment =>
      rw [hkey] at h
      cases segment with
      | none =>
        rw [resolveKeys_ok h, filterMap_cons, segmentOf, hkey]
        rfl
      | some s =>
        cases hrest : resolveKeys resolve keys with
        | error e =>
          rw [hrest] at h
          cases h
        | ok rest =>
          rw [hrest] at h
          rw [← Except.ok.inj h, resolveKeys_ok hrest, filterMap_cons, segmentOf, hkey]
          rfl

omit [LinearOrder Key] in
/-- The objects of a segment among those resolved. -/
theorem extentsIn_eq (keys : List Key) (s : ℕ) :
    extentsIn (keys.filterMap fun key => (segmentOf resolve key).map fun s => (s, key)) s =
      keys.filter fun key => segmentOf resolve key = some s := by
  unfold extentsIn
  induction keys with
  | nil => rfl
  | cons key keys ih =>
    cases hseg : segmentOf resolve key with
    | none => simpa [hseg] using ih
    | some t =>
      by_cases hts : t = s
      · simpa [hseg, hts] using ih
      · simpa [hseg, hts] using ih

/-- The objects of a segment not yet reclaimed: those in the queue, and others. -/
def unreclaimed (resolve : Key → Except R (Option ℕ)) (queue : DeadObjectReclaimQueue Key) (others : Finset Key)
    (s : ℕ) : Finset Key :=
  (queue.keys.toFinset ∪ others).filter fun key => segmentOf resolve key = some s

variable {queue : DeadObjectReclaimQueue Key}

/-- **Numbers that agree leave no object out.** Where as many objects of a segment are selected as are not yet
reclaimed, all of them are selected. -/
theorem selected_eq_unreclaimed {others : Finset Key} {keys : List Key} {s : ℕ} (hsub : keys.Sublist queue.keys)
    (hcount : (unreclaimed resolve queue others s).card ≤ (keys.filter fun key => segmentOf resolve key = some s).length) :
    (keys.filter fun key => segmentOf resolve key = some s).toFinset = unreclaimed resolve queue others s := by
  apply Finset.eq_of_subset_of_card_le
  · intro key hkey
    obtain ⟨hmem, hseg⟩ := mem_filter.mp (mem_toFinset.mp hkey)
    refine Finset.mem_filter.mpr ⟨Finset.mem_union_left _ (mem_toFinset.mpr (hsub.subset hmem)), ?_⟩
    simpa using hseg
  · rw [toFinset_card_of_nodup ((queue.keys_nodup.sublist hsub).filter _)]
    exact hcount

variable {counts : SegmentLiveCounts}

omit [LinearOrder Key] in
theorem live_le_of_covers {queued selected : List (ℕ × Key)} {s : ℕ}
    (h : coversSegment queued selected counts s = true) : counts.liveCount s ≤ (extentsIn selected s).length := by
  unfold coversSegment at h
  simp only [Bool.and_eq_true, Bool.or_eq_true, decide_eq_true_eq] at h
  omega

/-- A drain that succeeds is idle, or walks over segments that the selection covers. -/
theorem drain_walk {txg gen maxCount : ℕ} {free : ℕ → Except F Unit}
    {config : ReclaimConsumerConfig} {gate : Key → GateDecision}
    {o : Drained Key R F (ReceiptBoundDeadObjectDrain Key)} {r : ReceiptBoundDeadObjectDrain Key}
    (ho : drainReceiptBoundDeadObjects queue txg gen maxCount resolve free counts config gate = some o)
    (hr : o.result = .ok r) :
    (o.freeCalls = [] ∧ r.reclaimedSegmentIds = [] ∧ r.ackObjectIds = [] ∧ o.counts = counts) ∨ ∃ selected dead,
        (∀ s ∈ dead, counts.liveCount s ≤ (extentsIn selected s).length) ∧ dead.Nodup ∧
        selected = ((queue.dequeueReceiptBoundBatchWithStableGeneration (min maxCount config.maxEntriesPerDrain) txg
          gen).map objectId).filterMap (fun key => (segmentOf resolve key).map fun s => (s, key)) ∧
        ∃ walked, walked = freeSegments gate free (extentsIn selected) (fun _ c => c) dead (.start counts) ∧
          walked.2 = none ∧ o.freeCalls = walked.1.freeCalls ∧ o.counts = walked.1.counts ∧
          r.reclaimedSegmentIds = walked.1.reclaimed ∧
          r.ackObjectIds = walked.1.reclaimed.flatMap (extentsIn selected) := by
  unfold drainReceiptBoundDeadObjects at ho
  dsimp only at ho
  split at ho
  · obtain rfl := some.inj ho
    obtain rfl := Except.ok.inj hr
    exact Or.inl ⟨rfl, rfl, rfl, rfl⟩
  split at ho
  · obtain rfl := some.inj ho
    cases hr
  next queued hqueued =>
  split at ho
  · obtain rfl := some.inj ho
    cases hr
  next selected hselected =>
  split_ifs at ho with hbatch
  refine Or.inr ⟨selected, (segmentsIn selected).filter (coversSegment queued selected counts), ?_, ?_,
    resolveKeys_ok hselected, _, rfl, ?_⟩
  · intro s hs
    exact live_le_of_covers (mem_filter.mp hs).2
  · exact ((mergeSort_perm _ _).nodup_iff.mpr (nodup_dedup _)).filter _
  split at ho
  · obtain rfl := some.inj ho
    cases hr
  next hwalk =>
    obtain rfl := some.inj ho
    obtain rfl := Except.ok.inj hr
    exact ⟨hwalk, rfl, rfl, rfl, rfl⟩

/-- **Freed segments are authorized.** A drain that succeeds frees a segment only if each of its objects not yet
reclaimed is in the queue, authorized there and allowed by the gate; it acknowledges exactly the objects of the freed
segments, once each, and leaves the counts of all other segments. -/
theorem freed_segments_are_authorized (queue : DeadObjectReclaimQueue Key) (txg gen maxCount : ℕ)
    (resolve : Key → Except R (Option ℕ)) (free : ℕ → Except F Unit) (counts : SegmentLiveCounts)
    (config : ReclaimConsumerConfig) (gate : Key → GateDecision) (others : Finset Key)
    (hexact : ∀ s, counts.liveCount s = (unreclaimed resolve queue others s).card)
    (o : Drained Key R F (ReceiptBoundDeadObjectDrain Key)) (r : ReceiptBoundDeadObjectDrain Key)
    (ho : drainReceiptBoundDeadObjects queue txg gen maxCount resolve free counts config gate = some o)
    (hr : o.result = .ok r) : o.freeCalls = r.reclaimedSegmentIds ∧
      (∀ s ∈ o.freeCalls, ∀ key ∈ unreclaimed resolve queue others s, ∃ e,
        queue.entry key = some e ∧ Authorized e txg gen ∧ (gate key).isAllowed = true) ∧
      (∀ key, key ∈ r.ackObjectIds ↔ ∃ s ∈ o.freeCalls, key ∈ unreclaimed resolve queue others s) ∧
      r.ackObjectIds.Nodup ∧ ∀ s, s ∉ o.freeCalls → o.counts.liveCount s = counts.liveCount s := by
  classical
  rcases drain_walk ho hr with ⟨hfree, hseg, hack, hcounts⟩ |
    ⟨selected, dead, hcovers, hnd, hselected, walked, rfl, hend, hfree, hcounts, hseg, hack⟩
  · rw [hfree, hseg, hack, hcounts]
    simp
  obtain ⟨hsplit, hcalls, -⟩ := freeSegments_split hend
  have hsub := queue.dequeue_sublist (min maxCount config.maxEntriesPerDrain) txg gen
  obtain ⟨keys, hkeys⟩ : ∃ keys, keys = (queue.dequeueReceiptBoundBatchWithStableGeneration
    (min maxCount config.maxEntriesPerDrain) txg gen).map DeadObjectEntry.objectId := ⟨_, rfl⟩
  rw [← hkeys] at hsub hselected
  have hextents : ∀ s, extentsIn selected s = keys.filter fun key => segmentOf resolve key = some s := by
    intro s
    rw [hselected]
    exact extentsIn_eq keys s
  have hall : ∀ s ∈ dead, (extentsIn selected s).toFinset = unreclaimed resolve queue others s := by
    intro s hs
    have hcount := hcovers s hs
    rw [hexact, hextents] at hcount
    rw [hextents]
    exact selected_eq_unreclaimed hsub hcount
  have hfreed : ∀ s, s ∈ o.freeCalls ↔ s ∈ dead ∧ Passes gate (extentsIn selected) s := by
    intro s
    rw [hfree, hcalls]
    simp [FreePhase.start]
  have hacks : r.ackObjectIds = o.freeCalls.flatMap (extentsIn selected) := by
    rw [hack, hsplit, hfree, hcalls]
    rfl
  refine ⟨?_, ?_, ?_, ?_, ?_⟩
  · rw [hfree, hseg, hsplit, hcalls]
    rfl
  · intro s hs key hkey
    obtain ⟨hdead, hpasses⟩ := (hfreed s).mp hs
    rw [← hall s hdead, List.mem_toFinset] at hkey
    have hmem : key ∈ keys := by
      rw [hextents] at hkey
      exact (mem_filter.mp hkey).1
    rw [hkeys] at hmem
    obtain ⟨e, he, rfl⟩ := mem_map.mp hmem
    obtain ⟨hentry, hpass⟩ := queue.mem_dequeue he
    exact ⟨e, hentry, authorized_of_reclaimable hpass, hpasses _ hkey⟩
  · intro key
    rw [hacks, mem_flatMap]
    constructor
    · rintro ⟨s, hs, hkey⟩
      refine ⟨s, hs, ?_⟩
      rw [← hall s ((hfreed s).mp hs).1]
      exact List.mem_toFinset.mpr hkey
    · rintro ⟨s, hs, hkey⟩
      rw [← hall s ((hfreed s).mp hs).1] at hkey
      exact ⟨s, hs, List.mem_toFinset.mp hkey⟩
  · rw [hacks]
    refine nodup_flatMap.mpr ⟨fun s _ => ?_, ?_⟩
    · rw [hextents]
      exact (queue.keys_nodup.sublist hsub).filter _
    · have hcallsnd : o.freeCalls.Nodup := by
        rw [hfree, hcalls]
        exact hnd.filter _
      refine hcallsnd.imp fun {s t} hne => ?_
      rw [Function.onFun, hextents, hextents]
      intro key hs ht
      have h1 : segmentOf resolve key = some s := by simpa using (mem_filter.mp hs).2
      have h2 : segmentOf resolve key = some t := by simpa using (mem_filter.mp ht).2
      exact hne (some.inj (h1.symm.trans h2))
  · intro s hs
    have hlocal : Local fun _ c => c := ⟨fun _ _ _ _ => rfl, fun _ _ _ h => h⟩
    rw [hcounts, freeSegments_counts hlocal s hnd hend]
    by_cases hdead : s ∈ dead
    · have hdenied : ¬ Passes gate (extentsIn selected) s := fun hp => hs ((hfreed s).mpr ⟨hdead, hp⟩)
      rw [if_pos hdead, if_neg hdenied]
      rfl
    · rw [if_neg hdead]
      rfl

/-- An object that may be released after group 5 and generation 3. -/
def ready (key : ℕ) : DeadObjectEntry ℕ := ⟨key, 4, true, some ⟨key, 1, 3, .replicated 1, 1⟩⟩

def twoReady : DeadObjectReclaimQueue ℕ := ((DeadObjectReclaimQueue.new.enqueue (ready 1)).1.enqueue (ready 2)).1

theorem freed_segments_are_authorized_pair :
    ∃ e, twoReady.entry 2 = some e ∧ Authorized e 5 3 ∧ ((report [] [1, 2]).gate 2).isAllowed = true := by
  have hdrain : (drainReceiptBoundDeadObjects twoReady 5 3 10 pair (report [] [1, 2]).free pairCounts ⟨1024, 64⟩
      (report [] [1, 2]).gate).map (fun o => (o.freeCalls, o.result.isOk)) = some ([1], true) := by
    decide +kernel
  obtain ⟨o, ho, hout⟩ := map_eq_some_iff.mp hdrain
  obtain ⟨hfree, hok⟩ := Prod.mk.inj hout
  cases hr : o.result with
  | error e =>
    rw [hr] at hok
    cases hok
  | ok r =>
    have hexact : ∀ s, pairCounts.liveCount s = (unreclaimed pair twoReady ∅ s).card := by
      intro s
      have hsame : unreclaimed pair twoReady ∅ s = objectsOf pair {1, 2} s := by
        rw [unreclaimed, show twoReady.keys = [1, 2] from rfl, Finset.union_empty]
        rfl
      rw [hsame]
      exact pairCounts_exact s
    have hall := freed_segments_are_authorized twoReady 5 3 10 pair (report [] [1, 2]).free pairCounts ⟨1024, 64⟩
      (report [] [1, 2]).gate ∅ hexact o r ho hr
    exact hall.2.1 1 (by rw [hfree]; decide) 2 (by decide)

end Drain

end Tidefs.Reclaim
