/-
# Epoch agreement

A coordinator proposes the epoch after the committed one, broadcasts the proposal, and
collects acks until enough peers accepted it; then the epoch is committed and dispatched
to the bus. An aborted round starts over.

With peers to ask and at least one acceptance to wait for, the dispatched epochs are those
of the committed rounds, one after the other, each accepted by a quorum of peers, and no
call panics (`agreement_dispatches`). Without peers the epoch is committed in `propose` and
never dispatched; and where no acceptance is needed, `commit` commits, takes the proposal
away, and then looks for it (`commit_panics_or_silent`).
-/
import Tidefs.Lib.Ballots

namespace Tidefs.Membership

open List Option

def sortDedup (ids : List ℕ) : List ℕ := (ids.mergeSort (· ≤ ·)).dedup

/-! ### The chain of epochs -/

/-- Why an epoch does not follow the committed one. -/
inductive ChainError where
  | notMonotonic (committed proposed : ℕ)
  | invalidTransition (committed proposed : ℕ)
  | forkDetected (conflictingPeer : ℕ) (ourView theirView : List ℕ)
deriving DecidableEq

structure ProposalRecord where
  proposerId : ℕ
  memberSet : List ℕ

/-- The proposals seen, by epoch. -/
structure EpochChainVerifier where
  seen : List (ℕ × ProposalRecord)

namespace EpochChainVerifier

def reset : EpochChainVerifier := ⟨[]⟩

def verifyProposal (v : EpochChainVerifier) (proposerId proposedEpoch : ℕ) (proposedMembers : List ℕ)
    (committedEpoch : ℕ) : EpochChainVerifier × Except ChainError Unit :=
  if proposedEpoch ≤ committedEpoch then (v, .error (.notMonotonic committedEpoch proposedEpoch))
  else if proposedEpoch ≠ committedEpoch + 1 then (v, .error (.invalidTransition committedEpoch proposedEpoch))
  else
    match v.seen.lookup proposedEpoch with
    | some existing =>
      if existing.memberSet = sortDedup proposedMembers then (v, .ok ())
      else (v, .error (.forkDetected existing.proposerId (sortDedup proposedMembers) existing.memberSet))
    | none => (⟨(proposedEpoch, ⟨proposerId, sortDedup proposedMembers⟩) :: v.seen⟩, .ok ())

/-- Only the next epoch passes. -/
theorem verifyProposal_ok {v : EpochChainVerifier} {proposer epoch committed : ℕ} {members : List ℕ}
    (h : (v.verifyProposal proposer epoch members committed).2 = .ok ()) : epoch = committed + 1 := by
  unfold verifyProposal at h
  by_contra hne
  rw [if_pos hne] at h
  split_ifs at h

end EpochChainVerifier

/-! ### The agreement -/

/-- The states of an agreement round. -/
inductive AgreementState where
  | idle
  | proposing
  | awaitingAcks
  | committed
deriving DecidableEq

/-- How many approvals a round needs. -/
inductive QuorumMode where
  | simpleMajority
  | unanimous
  | fixed (n : ℕ)
deriving DecidableEq

def QuorumMode.requiredApprovals : QuorumMode → ℕ → ℕ
  | .simpleMajority, peerCount => if peerCount = 0 then 0 else peerCount / 2 + 1
  | .unanimous, peerCount => peerCount
  | .fixed n, _ => n

structure EpochAgreementProposal where
  epochId : ℕ
  view : List ℕ
  coordinatorId : ℕ
deriving DecidableEq

structure EpochAgreementAck where
  epochId : ℕ
  peerId : ℕ
  accepted : Bool
deriving DecidableEq

structure EpochAgreementCommit where
  epochId : ℕ
deriving DecidableEq

/-- The errors of an agreement round. -/
inductive AgreementError where
  | alreadyInProgress
  | wrongState (expected actual : AgreementState)
  | epochIdMismatch (expected received : ℕ)
  | duplicateAck (peer : ℕ)
  | quorumNotReached (approvals required : ℕ)
  | emptyView
  | duplicateProposal (coordinatorId epochId : ℕ)
  | chainError (error : ChainError)
deriving DecidableEq

/-- What the subscribers of the bus are told: epochs and members, in order. -/
structure EpochCommitBus where
  dispatched : List (ℕ × List ℕ)

def EpochCommitBus.dispatchCommit (bus : EpochCommitBus) (epoch : ℕ) (memberIds : List ℕ) : EpochCommitBus :=
  ⟨bus.dispatched ++ [(epoch, sortDedup memberIds)]⟩

/-- One party of the agreement. -/
structure MembershipEpochAgreement where
  state : AgreementState
  currentProposal : Option EpochAgreementProposal
  ackSet : Finset ℕ
  approvals : ℕ
  quorumMode : QuorumMode
  peerCount : ℕ
  commitBus : Option EpochCommitBus
  seenProposals : Finset (ℕ × ℕ)
  committedEpoch : ℕ
  chainVerifier : EpochChainVerifier

namespace MembershipEpochAgreement

def new (quorumMode : QuorumMode) (peerCount : ℕ) : MembershipEpochAgreement :=
  ⟨.idle, none, ∅, 0, quorumMode, peerCount, none, ∅, 0, ⟨[]⟩⟩

variable (a : MembershipEpochAgreement)

def setCommitBus (bus : EpochCommitBus) : MembershipEpochAgreement :=
  { a with commitBus := some bus }

def setCommittedEpoch (epoch : ℕ) : MembershipEpochAgreement :=
  { a with committedEpoch := epoch, chainVerifier := .reset }

def quorumThreshold : ℕ := a.quorumMode.requiredApprovals a.peerCount

def quorumReached : Bool :=
  a.state = .awaitingAcks && a.quorumThreshold ≤ a.approvals

/-- The proposal is remembered as seen, and by the verifier, even where it is refused. -/
def propose (coordinatorId epochId : ℕ) (view : List ℕ) :
    MembershipEpochAgreement × Except AgreementError EpochAgreementProposal :=
  if a.state ≠ .idle then (a, .error .alreadyInProgress)
  else if view.isEmpty then (a, .error .emptyView)
  else if (coordinatorId, epochId) ∈ a.seenProposals then (a, .error (.duplicateProposal coordinatorId epochId))
  else
    let verified := a.chainVerifier.verifyProposal coordinatorId epochId view a.committedEpoch
    let seen := { a with
      seenProposals := insert (coordinatorId, epochId) a.seenProposals
      chainVerifier := verified.1 }
    match verified.2 with
    | .error e => (seen, .error (.chainError e))
    | .ok () =>
      let proposal : EpochAgreementProposal := ⟨epochId, sortDedup view, coordinatorId⟩
      ({ seen with
        currentProposal := some proposal
        state := if a.peerCount = 0 then .committed else .proposing
        ackSet := ∅
        approvals := 0 }, .ok proposal)

def broadcast : MembershipEpochAgreement × Except AgreementError Unit :=
  if a.state ≠ .proposing then (a, .error (.wrongState .proposing a.state))
  else ({ a with state := .awaitingAcks }, .ok ())

def commitInternal : MembershipEpochAgreement :=
  match a.currentProposal with
  | none => a
  | some proposal =>
    { a with
      currentProposal := none
      state := .committed
      commitBus := a.commitBus.map fun bus => bus.dispatchCommit proposal.epochId proposal.view }

/-- The peer has answered; only an acceptance counts. -/
def countAck (ack : EpochAgreementAck) : MembershipEpochAgreement :=
  { a with
    ackSet := insert ack.peerId a.ackSet
    approvals := if ack.accepted then a.approvals + 1 else a.approvals }

def receiveAck (ack : EpochAgreementAck) : MembershipEpochAgreement × Except AgreementError Bool :=
  if a.state ≠ .awaitingAcks then (a, .error (.wrongState .awaitingAcks a.state))
  else
    match a.currentProposal with
    | none => (a, .error (.wrongState .awaitingAcks a.state))
    | some proposal =>
      if ack.epochId ≠ proposal.epochId then (a, .error (.epochIdMismatch proposal.epochId ack.epochId))
      else if ack.peerId ∈ a.ackSet then (a, .error (.duplicateAck ack.peerId))
      else if (a.countAck ack).quorumReached then ((a.countAck ack).commitInternal, .ok true)
      else (a.countAck ack, .ok false)

/-- `none` is the panic of the `unwrap` that follows `commit_internal`. -/
def commit : Option (MembershipEpochAgreement × Except AgreementError EpochAgreementCommit) :=
  if a.state ≠ .awaitingAcks then some (a, .error (.wrongState .awaitingAcks a.state))
  else if ¬ a.quorumReached then some (a, .error (.quorumNotReached a.approvals a.quorumThreshold))
  else a.commitInternal.currentProposal.map fun proposal => (a.commitInternal, .ok ⟨proposal.epochId⟩)

def abort : MembershipEpochAgreement × Except AgreementError Unit :=
  if a.state = .proposing ∨ a.state = .awaitingAcks then
    ({ a with state := .idle, currentProposal := none, ackSet := ∅, approvals := 0, chainVerifier := .reset }, .ok ())
  else (a, .error (.wrongState .proposing a.state))

def reset : MembershipEpochAgreement × Except AgreementError Unit :=
  if a.state ≠ .committed then (a, .error (.wrongState .committed a.state))
  else ({ a with state := .idle, currentProposal := none, ackSet := ∅, approvals := 0 }, .ok ())

/-! ### One call -/

/-- A proposal changes nothing, is only remembered as seen, or is the next epoch and goes to the vote. -/
theorem propose_cases (coordinator epoch : ℕ) (view : List ℕ) :
    (propose a coordinator epoch view).1 = a ∨ a.state = .idle ∧ ∃ seen verifier,
        (propose a coordinator epoch view).1 = { a with seenProposals := seen, chainVerifier := verifier } ∨
        epoch = a.committedEpoch + 1 ∧ (propose a coordinator epoch view).1 = { a with
            seenProposals := seen
            chainVerifier := verifier
            currentProposal := some ⟨epoch, sortDedup view, coordinator⟩
            state := if a.peerCount = 0 then .committed else .proposing
            ackSet := ∅
            approvals := 0 } := by
  unfold propose
  by_cases h1 : a.state = .idle
  swap
  · rw [if_pos h1]
    exact .inl rfl
  rw [if_neg (not_not.mpr h1)]
  by_cases h2 : view.isEmpty = true
  · rw [if_pos h2]
    exact .inl rfl
  by_cases h3 : (coordinator, epoch) ∈ a.seenProposals
  · rw [if_neg h2, if_pos h3]
    exact .inl rfl
  rw [if_neg h2, if_neg h3]
  dsimp only
  refine .inr ⟨h1, insert (coordinator, epoch) a.seenProposals,
    (a.chainVerifier.verifyProposal coordinator epoch view a.committedEpoch).1, ?_⟩
  split
  · exact .inl rfl
  next hver => exact .inr ⟨EpochChainVerifier.verifyProposal_ok hver, rfl⟩

/-- An ack changes nothing, or is the first of its peer for the epoch under vote. -/
theorem receiveAck_cases (ack : EpochAgreementAck) : (receiveAck a ack).1 = a ∨
      ∃ proposal, a.state = .awaitingAcks ∧ a.currentProposal = some proposal ∧ ack.epochId = proposal.epochId ∧
        ack.peerId ∉ a.ackSet ∧ (receiveAck a ack).1 =
          if (a.countAck ack).quorumReached then (a.countAck ack).commitInternal else a.countAck ack := by
  unfold receiveAck
  by_cases h1 : a.state = .awaitingAcks
  swap
  · rw [if_pos h1]
    exact .inl rfl
  rw [if_neg (not_not.mpr h1)]
  cases h2 : a.currentProposal with
  | none => exact .inl rfl
  | some proposal =>
    dsimp only
    by_cases h3 : ack.epochId = proposal.epochId
    swap
    · rw [if_pos h3]
      exact .inl rfl
    rw [if_neg (not_not.mpr h3)]
    by_cases h4 : ack.peerId ∈ a.ackSet
    · rw [if_pos h4]
      exact .inl rfl
    rw [if_neg h4]
    refine .inr ⟨proposal, h1, rfl, h3, h4, ?_⟩
    split_ifs <;> rfl

end MembershipEpochAgreement

/-! ### Histories -/

namespace Agreement

open Ballots MembershipEpochAgreement

/-- A round that reached the committed state: its epoch and the acks delivered since its broadcast. -/
structure Round where
  epoch : ℕ
  delivered : List EpochAgreementAck

/-- The peers that accepted the epoch of the round. -/
def approvers (epoch : ℕ) (delivered : List EpochAgreementAck) : Finset ℕ :=
  ((delivered.filter fun ack => ack.accepted && ack.epochId = epoch).map EpochAgreementAck.peerId).toFinset

/-- The agreement, the acks since the last broadcast, the rounds committed, and the epoch the caller has yet to set. -/
structure History where
  machine : MembershipEpochAgreement
  delivered : List EpochAgreementAck
  rounds : List Round
  pending : Option ℕ

/-- The calls that change an agreement. -/
inductive Op where
  | propose (coordinatorId epochId : ℕ) (view : List ℕ)
  | broadcast
  | receiveAck (ack : EpochAgreementAck)
  | commit
  | abort
  | reset
  | setCommittedEpoch (epoch : ℕ)

/-- A new agreement with a bus, over a committed epoch. -/
def start (quorumMode : QuorumMode) (peerCount committedEpoch : ℕ) : History :=
  ⟨((new quorumMode peerCount).setCommitBus ⟨[]⟩).setCommittedEpoch committedEpoch, [], [], none⟩

/-- A call that reaches the committed state ends a round. -/
def close (h : History) (epoch : ℕ) (machine : MembershipEpochAgreement) : History :=
  if h.machine.state ≠ .committed ∧ machine.state = .committed then
    ⟨machine, h.delivered, h.rounds ++ [⟨epoch, h.delivered⟩], some epoch⟩
  else { h with machine := machine }

def voted (h : History) : ℕ := (h.machine.currentProposal.map EpochAgreementProposal.epochId).getD 0

/-- `none` if the call panics. -/
def step (h : History) : Op → Option History
  | .propose coordinatorId epochId view => some (close h epochId (propose h.machine coordinatorId epochId view).1)
  | .broadcast =>
    some (if h.machine.state = .proposing then ⟨h.machine.broadcast.1, [], h.rounds, h.pending⟩
      else { h with machine := h.machine.broadcast.1 })
  | .receiveAck ack =>
    some (close { h with delivered := h.delivered ++ [ack] } (voted h) (receiveAck h.machine ack).1)
  | .commit => h.machine.commit.map fun r => close h (voted h) r.1
  | .abort => some { h with machine := h.machine.abort.1 }
  | .reset => some { h with machine := h.machine.reset.1 }
  | .setCommittedEpoch epoch => some { h with machine := h.machine.setCommittedEpoch epoch, pending := none }

def run (h : History) (ops : List Op) : Option History := ops.foldlM step h

/-- The caller sets the epoch of a committed round, and before the next proposal. -/
def Disciplined (h : History) : Op → Prop
  | .propose _ _ _ => h.pending = none
  | .setCommittedEpoch epoch => h.pending = some epoch
  | _ => True

def DisciplinedRun : History → List Op → Prop
  | _, [] => True
  | h, op :: ops => Disciplined h op ∧ ∀ h', step h op = some h' → DisciplinedRun h' ops

/-- Peers that accepted and were counted: as many as the approvals, each with an ack delivered. -/
def Backed (epoch : ℕ) (m : MembershipEpochAgreement) (delivered : List EpochAgreementAck) : Prop :=
  ∃ peers ⊆ m.ackSet, peers.card = m.approvals ∧ peers ⊆ approvers epoch delivered

structure Inv (first : ℕ) (h : History) : Prop where
  asksPeers : h.machine.peerCount ≠ 0
  needsOne : h.machine.quorumThreshold ≠ 0
  voting : h.machine.state = .proposing ∨ h.machine.state = .awaitingAcks →
    h.pending = none ∧ ∃ p, h.machine.currentProposal = some p ∧ p.epochId = h.machine.committedEpoch + 1
  fresh : h.machine.state = .proposing → h.machine.approvals = 0
  short : h.machine.state = .awaitingAcks → h.machine.approvals < h.machine.quorumThreshold
  backed : h.machine.state = .awaitingAcks → Backed (h.machine.committedEpoch + 1) h.machine h.delivered
  epochs : h.rounds.map Round.epoch = List.range' (first + 1) h.rounds.length
  current : h.pending = none → h.machine.committedEpoch = first + h.rounds.length
  last : ∀ e, h.pending = some e → e = first + h.rounds.length
  dispatched : ∃ bus, h.machine.commitBus = some bus ∧ bus.dispatched.map Prod.fst = h.rounds.map Round.epoch
  quorum : ∀ r ∈ h.rounds, h.machine.quorumThreshold ≤ (approvers r.epoch r.delivered).card

/-! ### What a call keeps -/

theorem approvers_append (epoch : ℕ) (delivered : List EpochAgreementAck) (ack : EpochAgreementAck) :
    approvers epoch (delivered ++ [ack]) =
      if ack.accepted = true ∧ ack.epochId = epoch then insert ack.peerId (approvers epoch delivered)
      else approvers epoch delivered := by
  have hvoters := voters_append (fun ack => ack.accepted && decide (ack.epochId = epoch)) EpochAgreementAck.peerId
    delivered ack
  simp only [Bool.and_eq_true, decide_eq_true_eq] at hvoters
  exact hvoters

theorem subset_approvers_append (epoch : ℕ) (delivered : List EpochAgreementAck) (ack : EpochAgreementAck) :
    approvers epoch delivered ⊆ approvers epoch (delivered ++ [ack]) :=
  voters_subset_append _ _ _ _

variable {first : ℕ} {h : History} (hi : Inv first h)
include hi

variable {m : MembershipEpochAgreement}

/-- Where the agreement is idle or committed nothing about a vote is asked. -/
theorem Inv.rest (hstate : m.state = .idle ∨ m.state = .committed) (hpeers : m.peerCount = h.machine.peerCount)
    (hmode : m.quorumMode = h.machine.quorumMode) (hepoch : m.committedEpoch = h.machine.committedEpoch)
    (hbus : m.commitBus = h.machine.commitBus) : Inv first { h with machine := m } := by
  have hthreshold : m.quorumThreshold = h.machine.quorumThreshold := by
    unfold quorumThreshold
    rw [hpeers, hmode]
  have hno : ¬ (m.state = .proposing ∨ m.state = .awaitingAcks) := by
    rcases hstate with hs | hs <;> rw [hs] <;> decide
  exact
    { asksPeers := hpeers ▸ hi.asksPeers
      needsOne := by show m.quorumThreshold ≠ 0; rw [hthreshold]; exact hi.needsOne
      voting := fun hs => absurd hs hno
      fresh := fun hs => absurd (.inl hs) hno
      short := fun hs => absurd (.inr hs) hno
      backed := fun hs => absurd (.inr hs) hno
      epochs := hi.epochs
      current := fun hp => hepoch.trans (hi.current hp)
      last := hi.last
      dispatched := by show ∃ bus, m.commitBus = some bus ∧ _; rw [hbus]; exact hi.dispatched
      quorum := fun r hr => by show m.quorumThreshold ≤ _; rw [hthreshold]; exact hi.quorum r hr }

theorem propose_inv (coordinator epoch : ℕ) (view : List ℕ)
    (hpending : h.pending = none) : Inv first (close h epoch (propose h.machine coordinator epoch view).1) := by
  rcases propose_cases h.machine coordinator epoch view with hm | ⟨hidle, seen, verifier, hm | ⟨hepoch, hm⟩⟩
  · rw [hm, close, if_neg fun hc => hc.1 hc.2]
    exact hi
  · rw [hm, close, if_neg fun hc => absurd (hidle.symm.trans hc.2) (by decide)]
    exact hi.rest (.inl hidle) rfl rfl rfl rfl
  · rw [if_neg hi.asksPeers] at hm
    rw [hm, close, if_neg fun hc => absurd hc.2 (show AgreementState.proposing ≠ .committed by decide)]
    exact
      { hi with
        voting := fun _ => ⟨hpending, _, rfl, hepoch⟩
        fresh := fun _ => rfl
        short := fun hs => by cases hs
        backed := fun hs => by cases hs }

theorem broadcast_inv {h' : History} (hstep : step h .broadcast = some h') : Inv first h' := by
  obtain rfl := some.inj hstep
  split_ifs with hstate
  · rw [broadcast, if_neg (not_not.mpr hstate)]
    have hzero := hi.fresh hstate
    exact
      { hi with
        voting := fun _ => hi.voting (.inl hstate)
        fresh := fun _ => hzero
        short := fun _ => by
          rw [hzero]
          exact pos_of_ne_zero hi.needsOne
        backed := fun _ => ⟨∅, Finset.empty_subset _, hzero.symm, Finset.empty_subset _⟩ }
  · rw [broadcast, if_pos hstate]
    exact hi

/-- An ack that changes nothing in the agreement. -/
theorem deliver_inv (ack : EpochAgreementAck) : Inv first { h with delivered := h.delivered ++ [ack] } :=
  { hi with
    backed := fun hs => by
      obtain ⟨peers, h1, h2, h3⟩ := hi.backed hs
      exact ⟨peers, h1, h2, h3.trans (subset_approvers_append _ _ _)⟩ }

omit hi

/-- One more ack of the epoch under vote is backed by what was delivered. -/
theorem backed_insert {ack : EpochAgreementAck} {epoch : ℕ}
    (hb : Backed epoch h.machine h.delivered) (hepoch : ack.epochId = epoch) (hnew : ack.peerId ∉ h.machine.ackSet) :
    Backed epoch (h.machine.countAck ack) (h.delivered ++ [ack]) := by
  obtain ⟨peers, hsub, hcard, happ⟩ := hb
  cases haccepted : ack.accepted with
  | true =>
    refine ⟨insert ack.peerId peers, Finset.insert_subset_insert _ hsub, ?_, ?_⟩
    · rw [Finset.card_insert_of_notMem fun hmem => hnew (hsub hmem), hcard, countAck, if_pos haccepted]
    · rw [approvers_append, if_pos ⟨haccepted, hepoch⟩]
      exact Finset.insert_subset_insert _ happ
  | false =>
    refine ⟨peers, hsub.trans (Finset.subset_insert _ _), ?_, happ.trans (subset_approvers_append _ _ _)⟩
    rw [hcard, countAck, haccepted]
    rfl

variable (hi : Inv first h)
include hi

/-- The ack that completes the quorum: the round is committed and dispatched. -/
theorem commitInternal_inv {ack : EpochAgreementAck} {delivered : List EpochAgreementAck}
    {proposal : EpochAgreementProposal} (hpending : h.pending = none)
    (hproposal : h.machine.currentProposal = some proposal) (hepoch : proposal.epochId = h.machine.committedEpoch + 1)
    (hquorum : h.machine.quorumThreshold ≤ (h.machine.countAck ack).approvals)
    (hbacked : Backed (h.machine.committedEpoch + 1) (h.machine.countAck ack) delivered) :
    Inv first ⟨(h.machine.countAck ack).commitInternal, delivered,
      h.rounds ++ [⟨h.machine.committedEpoch + 1, delivered⟩], some (h.machine.committedEpoch + 1)⟩ := by
  obtain ⟨bus, hbus, hdispatched⟩ := hi.dispatched
  have hint : (h.machine.countAck ack).commitInternal = { h.machine.countAck ack with
      currentProposal := none
      state := .committed
      commitBus := some (bus.dispatchCommit proposal.epochId proposal.view) } := by
    rw [commitInternal, show (h.machine.countAck ack).currentProposal = some proposal from hproposal,
      show (h.machine.countAck ack).commitBus = some bus from hbus]
    rfl
  have hlength := hi.current hpending
  rw [hint]
  exact
    { asksPeers := hi.asksPeers
      needsOne := hi.needsOne
      voting := fun hs => by rcases hs with hs | hs <;> cases hs
      fresh := fun hs => by cases hs
      short := fun hs => by cases hs
      backed := fun hs => by cases hs
      epochs := by
        rw [map_append, hi.epochs, length_append, length_singleton, List.range'_concat, hlength]
        simp only [map_cons, map_nil, one_mul]
        rw [add_right_comm]
      current := fun hp => by cases hp
      last := fun e he => by
        obtain rfl := some.inj he
        rw [length_append, length_singleton, hlength]
        omega
      dispatched := by
        refine ⟨_, rfl, ?_⟩
        show (bus.dispatched ++ [_]).map Prod.fst = (h.rounds ++ [_]).map Round.epoch
        rw [map_append, map_append, hdispatched]
        simp only [map_cons, map_nil, hepoch]
      quorum := fun r hr => by
        rcases mem_append.mp hr with hr | hr
        · exact hi.quorum r hr
        · obtain rfl := mem_singleton.mp hr
          obtain ⟨peers, -, hcard, happ⟩ := hbacked
          calc h.machine.quorumThreshold ≤ (h.machine.countAck ack).approvals := hquorum
            _ = peers.card := hcard.symm
            _ ≤ _ := Finset.card_le_card happ }

theorem receiveAck_inv (ack : EpochAgreementAck) :
    Inv first (close { h with delivered := h.delivered ++ [ack] } (voted h) (receiveAck h.machine ack).1) := by
  rcases receiveAck_cases h.machine ack with hm | ⟨proposal, hstate, hproposal, hack, hnew, hm⟩
  · rw [hm, close, if_neg fun hc => hc.1 hc.2]
    exact deliver_inv hi ack
  obtain ⟨hpending, p, hp, hepoch⟩ := hi.voting (.inr hstate)
  obtain rfl : proposal = p := some.inj (hproposal.symm.trans hp)
  have hbacked := backed_insert (hi.backed hstate) (hack.trans hepoch) hnew
  have hvoted : voted h = h.machine.committedEpoch + 1 := by
    rw [voted, hproposal]
    exact hepoch
  rw [hm, hvoted]
  set m := h.machine.countAck ack
  by_cases hreached : m.quorumReached = true
  · have hquorum : m.quorumThreshold ≤ m.approvals := by
      rw [quorumReached, Bool.and_eq_true] at hreached
      exact of_decide_eq_true hreached.2
    have hcommitted : m.commitInternal.state = .committed := by
      rw [commitInternal, show m.currentProposal = some proposal from hproposal]
    rw [if_pos hreached, close, if_pos ⟨fun hc => absurd (hstate.symm.trans hc) (by decide), hcommitted⟩]
    exact commitInternal_inv hi hpending hproposal hepoch hquorum hbacked
  · have hshort : m.approvals < m.quorumThreshold := by
      by_contra hlong
      refine hreached ?_
      rw [quorumReached, show m.state = .awaitingAcks from hstate]
      simpa using hlong
    rw [if_neg hreached, close, if_neg fun hc => absurd (hstate.symm.trans hc.2) (by decide)]
    exact
      { hi with
        voting := fun _ => ⟨hpending, proposal, hproposal, hepoch⟩
        fresh := fun hs => absurd (hstate.symm.trans hs) (by decide)
        short := fun _ => hshort
        backed := fun _ => hbacked }

/-- Between calls the quorum is not reached: the ack that reaches it commits. -/
theorem Inv.not_reached : h.machine.quorumReached = false := by
  rw [quorumReached, Bool.and_eq_false_iff]
  by_cases hstate : h.machine.state = .awaitingAcks
  · exact .inr (decide_eq_false (not_le.mpr (hi.short hstate)))
  · exact .inl (decide_eq_false hstate)

theorem commit_eq : ∃ e, h.machine.commit = some (h.machine, .error e) := by
  unfold commit
  rw [hi.not_reached]
  by_cases hstate : h.machine.state = .awaitingAcks
  · rw [if_neg (not_not.mpr hstate), if_pos (by decide)]
    exact ⟨_, rfl⟩
  · rw [if_pos hstate]
    exact ⟨_, rfl⟩

/-- **A disciplined call does not panic and keeps the invariant.** -/
theorem step_inv : ∀ op, Disciplined h op → ∃ h', step h op = some h' ∧ Inv first h'
  | .propose coordinator epoch view, hop => ⟨_, rfl, propose_inv hi coordinator epoch view hop⟩
  | .broadcast, _ => ⟨_, rfl, broadcast_inv hi rfl⟩
  | .receiveAck ack, _ => ⟨_, rfl, receiveAck_inv hi ack⟩
  | .commit, _ => by
    obtain ⟨e, he⟩ := commit_eq hi
    refine ⟨h, ?_, hi⟩
    simp only [step, he, map_some]
    rw [close, if_neg fun hc => hc.1 hc.2]
  | .abort, _ => by
    refine ⟨_, rfl, ?_⟩
    unfold abort
    split_ifs with hs
    · exact hi.rest (.inl rfl) rfl rfl rfl rfl
    · exact hi
  | .reset, _ => by
    refine ⟨_, rfl, ?_⟩
    unfold reset
    split_ifs with hs
    · exact hi
    · exact hi.rest (.inl rfl) rfl rfl rfl rfl
  | .setCommittedEpoch epoch, hop => by
    have hno : ¬ (h.machine.state = .proposing ∨ h.machine.state = .awaitingAcks) := by
      intro hs
      have hnone := (hi.voting hs).1
      rw [hop] at hnone
      cases hnone
    refine ⟨_, rfl, ?_⟩
    exact
      { hi with
        voting := fun hs => absurd hs hno
        fresh := fun hs => absurd (.inl hs) hno
        short := fun hs => absurd (.inr hs) hno
        backed := fun hs => absurd (.inr hs) hno
        current := fun _ => hi.last epoch hop
        last := fun e he => by cases he }

omit hi

theorem run_inv : ∀ (ops : List Op) {h : History}, Inv first h → DisciplinedRun h ops →
    ∃ h', run h ops = some h' ∧ Inv first h'
  | [], h, hi, _ => ⟨h, rfl, hi⟩
  | op :: ops, h, hi, hrun => by
    obtain ⟨h₁, hstep, hi₁⟩ := step_inv hi op hrun.1
    obtain ⟨h₂, hrest, hi₂⟩ := run_inv ops hi₁ (hrun.2 h₁ hstep)
    refine ⟨h₂, ?_, hi₂⟩
    rw [run, foldlM_cons, hstep]
    exact hrest

theorem start_inv (quorumMode : QuorumMode) (peerCount first : ℕ) (hpeers : peerCount ≠ 0)
    (hthreshold : quorumMode.requiredApprovals peerCount ≠ 0) : Inv first (start quorumMode peerCount first) :=
  { asksPeers := hpeers
    needsOne := hthreshold
    voting := fun hs => by rcases hs with hs | hs <;> cases hs
    fresh := fun hs => by cases hs
    short := fun hs => by cases hs
    backed := fun hs => by cases hs
    epochs := rfl
    current := fun _ => rfl
    last := fun e he => by cases he
    dispatched := ⟨_, rfl, rfl⟩
    quorum := fun r hr => by cases hr }

/-- The epochs told to the subscribers. -/
def dispatchedEpochs (m : MembershipEpochAgreement) : List ℕ :=
  (m.commitBus.map fun bus => bus.dispatched.map Prod.fst).getD []

/-- **Committed rounds are dispatched, once and in order.** Where there are peers to ask and at least one acceptance is
needed, a disciplined run does not panic; the dispatched epochs are those of the committed rounds, the successors of
the first epoch one by one; each was accepted by a quorum of peers; and a commit with its quorum succeeds. -/
theorem agreement_dispatches (quorumMode : QuorumMode) (peerCount first : ℕ) (ops : List Op) (hpeers : peerCount ≠ 0)
    (hthreshold : quorumMode.requiredApprovals peerCount ≠ 0)
    (hrun : DisciplinedRun (start quorumMode peerCount first) ops) :
    ∃ h, run (start quorumMode peerCount first) ops = some h ∧ dispatchedEpochs h.machine = h.rounds.map Round.epoch ∧
      h.rounds.map Round.epoch = List.range' (first + 1) h.rounds.length ∧
      (∀ r ∈ h.rounds, h.machine.quorumThreshold ≤ (approvers r.epoch r.delivered).card) ∧
      (h.machine.quorumReached = true → ∃ m c, h.machine.commit = some (m, .ok c)) := by
  obtain ⟨h, hh, hi⟩ := run_inv ops (start_inv quorumMode peerCount first hpeers hthreshold) hrun
  refine ⟨h, hh, ?_, hi.epochs, hi.quorum, fun hreached => ?_⟩
  · obtain ⟨bus, hbus, hdispatched⟩ := hi.dispatched
    rw [dispatchedEpochs, hbus]
    exact hdispatched
  · rw [hi.not_reached] at hreached
    cases hreached

/-- A round of node 1 for the epoch after 4 that two peers accept. -/
def accepted : List Op := [.propose 1 5 [1, 2], .broadcast, .receiveAck ⟨5, 2, true⟩, .receiveAck ⟨5, 3, true⟩]

theorem agreement_dispatches_two : ∃ h, run (start .simpleMajority 2 4) accepted = some h ∧
      dispatchedEpochs h.machine = h.rounds.map Round.epoch ∧ h.rounds.map Round.epoch = [5] := by
  have hdisciplined : DisciplinedRun (start .simpleMajority 2 4) accepted :=
    ⟨rfl, fun _ _ => ⟨trivial, fun _ _ => ⟨trivial, fun _ _ => ⟨trivial, fun _ _ => trivial⟩⟩⟩⟩
  obtain ⟨h, hrun, hdispatched, hepochs, -⟩ :=
    agreement_dispatches .simpleMajority 2 4 accepted (by decide) (by decide) hdisciplined
  have hone : (run (start .simpleMajority 2 4) accepted).map (fun h => h.rounds.length) = some 1 := rfl
  rw [hrun] at hone
  have hlength : h.rounds.length = 1 := some.inj hone
  refine ⟨h, hrun, hdispatched, ?_⟩
  rw [hepochs, hlength]
  rfl

/-- With a threshold of zero an explicit commit panics; without peers a committed epoch is never dispatched. -/
theorem commit_panics_or_silent : run (start (.fixed 0) 1 4) [.propose 1 5 [1, 2], .broadcast, .commit] = none ∧
      (run (start .simpleMajority 0 4) [.propose 1 5 [1, 2]]).map
        (fun h => (h.rounds.map Round.epoch, dispatchedEpochs h.machine)) = some ([5], []) := by
  constructor
  · rfl
  · rfl

end Agreement
end Tidefs.Membership
