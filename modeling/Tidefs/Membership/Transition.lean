/-
# Epoch transitions

A proposal for the next epoch is broadcast to the peers, which answer with acks that carry
the hash of the proposal and say whether they approve. The machine remembers who answered
and commits when enough did.

What it remembers is the answer, not what was answered: a rejection counts like an
approval (`rejection_commits`). As long as no peer rejects, a commit has its quorum of
approving peers and reports their number (`commit_has_approvals`).
-/
import Tidefs.Lib.Ballots
import Tidefs.Lib.Codec
import Tidefs.Lib.Word

namespace Tidefs.Membership

open Ballots Codec Word

abbrev Hash := Vector UInt8 32

/-! ### Messages -/

/-- One change of the membership. -/
inductive MembershipDelta where
  | nodeJoined (id : ℕ)
  | nodeDrained (id : ℕ)
  | nodeFailed (id : ℕ)
  | nodeSuspected (id : ℕ)
deriving DecidableEq

namespace MembershipDelta

def nodeId : MembershipDelta → ℕ
  | nodeJoined id => id
  | nodeDrained id => id
  | nodeFailed id => id
  | nodeSuspected id => id

def discriminant : MembershipDelta → UInt8
  | nodeJoined _ => 1
  | nodeDrained _ => 2
  | nodeFailed _ => 3
  | nodeSuspected _ => 4

end MembershipDelta

structure EpochProposalMessage where
  proposerId : ℕ
  currentEpoch : ℕ
  proposedEpoch : ℕ
  delta : MembershipDelta
  resultingMembers : List ℕ
  blake3Hash : Hash

structure EpochAckMessage where
  ackerId : ℕ
  proposalHash : Hash
  approved : Bool
  blake3Hash : Hash

section Messages

variable (blake3 : List UInt8 → Hash)

namespace EpochProposalMessage

def domainTag : List UInt8 := "tidefs-membership-epoch-proposal-v1".toUTF8.toList

def computeHash (proposerId currentEpoch proposedEpoch : ℕ) (delta : MembershipDelta) (members : List ℕ) : Hash :=
  blake3 (domainTag ++ toLe 8 proposerId ++ toLe 8 currentEpoch ++ toLe 8 proposedEpoch ++ [delta.discriminant] ++
    toLe 8 delta.nodeId ++ "|members|".toUTF8.toList ++ members.flatMap (toLe 8))

def new (proposerId currentEpoch proposedEpoch : ℕ) (delta : MembershipDelta) (members : List ℕ) :
    EpochProposalMessage :=
  ⟨proposerId, currentEpoch, proposedEpoch, delta, members,
    computeHash blake3 proposerId currentEpoch proposedEpoch delta members⟩

end EpochProposalMessage

namespace EpochAckMessage

def domainTag : List UInt8 := "tidefs-membership-epoch-ack-v1".toUTF8.toList

def computeHash (ackerId : ℕ) (proposalHash : Hash) (approved : Bool) : Hash :=
  blake3 (domainTag ++ toLe 8 ackerId ++ proposalHash.toList ++ [if approved then 1 else 0])

def approve (ackerId : ℕ) (proposalHash : Hash) : EpochAckMessage :=
  ⟨ackerId, proposalHash, true, computeHash blake3 ackerId proposalHash true⟩

def reject (ackerId : ℕ) (proposalHash : Hash) : EpochAckMessage :=
  ⟨ackerId, proposalHash, false, computeHash blake3 ackerId proposalHash false⟩

def verify (ack : EpochAckMessage) : Bool :=
  computeHash blake3 ack.ackerId ack.proposalHash ack.approved = ack.blake3Hash

end EpochAckMessage

end Messages

/-! ### The machine -/

/-- The states of an epoch transition. -/
inductive EpochState where
  | stable
  | proposing
  | awaitingAcks
  | committed
deriving DecidableEq

structure InvalidStateTransition where
  current : EpochState
  next : EpochState
deriving DecidableEq

/-- The edges of the life of a transition. -/
def EpochState.validateTransition : EpochState → EpochState → Except InvalidStateTransition Unit
  | .stable, .proposing => .ok ()
  | .proposing, .awaitingAcks => .ok ()
  | .proposing, .stable => .ok ()
  | .awaitingAcks, .committed => .ok ()
  | .awaitingAcks, .stable => .ok ()
  | .committed, .stable => .ok ()
  | current, next => .error ⟨current, next⟩

/-- How many approvals a transition needs. -/
inductive QuorumThreshold where
  | simpleMajority
  | superMajority
  | fixed (n : ℕ)
deriving DecidableEq

def QuorumThreshold.requiredApprovals : QuorumThreshold → ℕ → ℕ
  | .simpleMajority, peerCount => peerCount / 2 + 1
  | .superMajority, peerCount => wrap64 (2 * peerCount) / 3 + 1
  | .fixed n, _ => n

/-- Why an ack is not counted. -/
inductive ProposalError where
  | ackVerificationFailed
  | proposalHashMismatch
  | duplicateAck (acker : ℕ)
deriving DecidableEq

/-- The errors of an epoch transition. -/
inductive TransitionError where
  | invalidState (expected actual : EpochState)
  | emptyMemberSet
  | noCurrentProposal
  | quorumNotReached (required received : ℕ)
  | proposal (error : ProposalError)
  | stateTransition (error : InvalidStateTransition)
deriving DecidableEq

structure EpochTransitionResult where
  proposal : EpochProposalMessage
  approvals : ℕ
  responses : ℕ

/-- One party of a transition. -/
structure EpochTransitionStateMachine where
  state : EpochState
  currentProposal : Option EpochProposalMessage
  ackSet : Finset ℕ
  quorumThreshold : QuorumThreshold
  peerCount : ℕ

namespace EpochTransitionStateMachine

def new (quorumThreshold : QuorumThreshold) (peerCount : ℕ) : EpochTransitionStateMachine :=
  ⟨.stable, none, ∅, quorumThreshold, peerCount⟩

variable (m : EpochTransitionStateMachine)

def required : ℕ := m.quorumThreshold.requiredApprovals m.peerCount

def quorumReached : Bool :=
  if m.state ≠ .awaitingAcks then false else decide (m.required ≤ m.ackSet.card)

def validate (next : EpochState) : Except TransitionError Unit :=
  (m.state.validateTransition next).mapError .stateTransition

/-- A failing call leaves the machine as it was. -/
def propose (blake3 : List UInt8 → Hash) (m : EpochTransitionStateMachine) (proposerId currentEpoch : ℕ)
    (delta : MembershipDelta) (resultingMembers : List ℕ) :
    Except TransitionError (EpochTransitionStateMachine × EpochProposalMessage) := do
  m.validate .proposing
  let sorted := (resultingMembers.mergeSort (· ≤ ·)).dedup
  if sorted.isEmpty then throw .emptyMemberSet
  let proposal := EpochProposalMessage.new blake3 proposerId currentEpoch (wrap64 (currentEpoch + 1)) delta sorted
  return ({ m with
    currentProposal := some proposal
    state := if m.peerCount = 0 then .committed else .proposing
    ackSet := ∅ }, proposal)

def broadcast : Except TransitionError EpochTransitionStateMachine := do
  m.validate .awaitingAcks
  return { m with state := .awaitingAcks }

def receiveAck (blake3 : List UInt8 → Hash) (m : EpochTransitionStateMachine) (ack : EpochAckMessage) :
    Except TransitionError EpochTransitionStateMachine :=
  if m.state ≠ .awaitingAcks then .error (.invalidState .awaitingAcks m.state)
  else if ¬ ack.verify blake3 then .error (.proposal .ackVerificationFailed)
  else
    match m.currentProposal with
    | none => .error .noCurrentProposal
    | some proposal =>
      if ack.proposalHash ≠ proposal.blake3Hash then .error (.proposal .proposalHashMismatch)
      else if ack.ackerId ∈ m.ackSet then .error (.proposal (.duplicateAck ack.ackerId))
      else .ok { m with ackSet := insert ack.ackerId m.ackSet }

def commit : Except TransitionError (EpochTransitionStateMachine × EpochTransitionResult) :=
  if m.state ≠ .awaitingAcks then .error (.invalidState .awaitingAcks m.state)
  else if ¬ m.quorumReached then .error (.quorumNotReached m.required m.ackSet.card)
  else
    match m.currentProposal with
    | none => .error .noCurrentProposal
    | some proposal =>
      .ok ({ m with state := .committed, currentProposal := none }, ⟨proposal, m.ackSet.card, m.ackSet.card⟩)

def abort : Except TransitionError EpochTransitionStateMachine :=
  if m.state = .stable then .error (.invalidState .proposing .stable)
  else if m.state = .committed then .error (.invalidState .proposing .committed)
  else .ok { m with state := .stable, currentProposal := none, ackSet := ∅ }

def reset : Except TransitionError EpochTransitionStateMachine := do
  m.validate .stable
  return { m with state := .stable, currentProposal := none, ackSet := ∅ }

end EpochTransitionStateMachine

/-! ### Histories -/

namespace Transition

open EpochTransitionStateMachine EpochAckMessage

variable (blake3 : List UInt8 → Hash)

/-- The machine, and the acks delivered since the last broadcast. -/
structure History where
  machine : EpochTransitionStateMachine
  delivered : List EpochAckMessage

/-- The calls that change the state machine. -/
inductive Op where
  | propose (proposerId currentEpoch : ℕ) (delta : MembershipDelta) (resultingMembers : List ℕ)
  | broadcast
  | receiveAck (ack : EpochAckMessage)
  | commit
  | abort
  | reset

def start (quorumThreshold : QuorumThreshold) (peerCount : ℕ) : History := ⟨.new quorumThreshold peerCount, []⟩

/-- The machine after a call, which is the one before if the call failed. -/
def after {ε : Type*} (m : EpochTransitionStateMachine) : Except ε EpochTransitionStateMachine →
    EpochTransitionStateMachine
  | .ok m' => m'
  | .error _ => m

def step (h : History) : Op → History
  | .propose proposerId currentEpoch delta members =>
    { h with machine := after h.machine ((propose blake3 h.machine proposerId currentEpoch delta members).map Prod.fst) }
  | .broadcast =>
    match h.machine.broadcast with
    | .ok m => ⟨m, []⟩
    | .error _ => h
  | .receiveAck ack => ⟨after h.machine (receiveAck blake3 h.machine ack), h.delivered ++ [ack]⟩
  | .commit => { h with machine := after h.machine (h.machine.commit.map Prod.fst) }
  | .abort => { h with machine := after h.machine h.machine.abort }
  | .reset => { h with machine := after h.machine h.machine.reset }

def Valid (proposal : EpochProposalMessage) (ack : EpochAckMessage) : Prop :=
  ack.verify blake3 = true ∧ ack.proposalHash = proposal.blake3Hash

instance (proposal : EpochProposalMessage) (ack : EpochAckMessage) : Decidable (Valid blake3 proposal ack) :=
  inferInstanceAs (Decidable (_ ∧ _))

/-- Those who delivered an approval of the proposal. -/
def approvers (proposal : EpochProposalMessage) (delivered : List EpochAckMessage) : Finset ℕ :=
  ((delivered.filter fun ack => Valid blake3 proposal ack ∧ ack.approved = true).map EpochAckMessage.ackerId).toFinset

/-- No rejection of the proposal under vote is delivered. -/
def NoRejection (h : History) : Op → Prop
  | .receiveAck ack => h.machine.state = .awaitingAcks →
      ∀ proposal, h.machine.currentProposal = some proposal → Valid blake3 proposal ack → ack.approved = true
  | _ => True

def NoRejectionRun : History → List Op → Prop
  | _, [] => True
  | h, op :: ops => NoRejection blake3 h op ∧ NoRejectionRun (step blake3 h op) ops

/-- Before the broadcast nobody has answered; after it those who answered are those who approved. -/
structure Counts (h : History) : Prop where
  proposing : h.machine.state = .proposing → h.machine.ackSet = ∅ ∧ h.machine.currentProposal.isSome
  awaiting : h.machine.state = .awaitingAcks →
    ∃ proposal, h.machine.currentProposal = some proposal ∧ h.machine.ackSet = approvers blake3 proposal h.delivered

variable {blake3}

theorem approvers_append (proposal : EpochProposalMessage) (delivered : List EpochAckMessage) (ack : EpochAckMessage) :
    approvers blake3 proposal (delivered ++ [ack]) =
      if Valid blake3 proposal ack ∧ ack.approved = true then insert ack.ackerId (approvers blake3 proposal delivered)
      else approvers blake3 proposal delivered := by
  have hvoters := voters_append (fun ack => decide (Valid blake3 proposal ack ∧ ack.approved = true))
    ackerId delivered ack
  simp only [decide_eq_true_eq] at hvoters
  exact hvoters

variable {m m' : EpochTransitionStateMachine}

/-- When an ack is taken, and what for. -/
theorem receiveAck_cases {proposal : EpochProposalMessage} (ack : EpochAckMessage)
    (hstate : m.state = .awaitingAcks) (hproposal : m.currentProposal = some proposal) : (Valid blake3 proposal ack ∧
        after m (receiveAck blake3 m ack) = { m with ackSet := insert ack.ackerId m.ackSet }) ∨
      (¬ Valid blake3 proposal ack ∧ after m (receiveAck blake3 m ack) = m) := by
  unfold receiveAck
  rw [if_neg (not_not.mpr hstate), hproposal]
  by_cases hverify : ack.verify blake3 = true
  · rw [if_neg (not_not.mpr hverify)]
    dsimp only
    by_cases hhash : ack.proposalHash = proposal.blake3Hash
    · rw [if_neg (not_not.mpr hhash)]
      refine .inl ⟨⟨hverify, hhash⟩, ?_⟩
      split_ifs with hseen
      · -- a duplicate: the set already has the acker
        rw [Finset.insert_eq_of_mem hseen, ← hproposal]
        rfl
      · rfl
    · rw [if_pos hhash]
      exact .inr ⟨fun h => hhash h.2, rfl⟩
  · rw [if_pos hverify]
    exact .inr ⟨fun h => hverify h.1, rfl⟩

theorem receiveAck_other (ack : EpochAckMessage) (hstate : m.state ≠ .awaitingAcks) :
    after m (receiveAck blake3 m ack) = m := by
  rw [receiveAck, if_pos hstate]
  rfl

theorem commit_ok {result : EpochTransitionResult} (h : m.commit = .ok (m', result)) :
    m.state = .awaitingAcks ∧ m.required ≤ m.ackSet.card ∧ m.currentProposal = some result.proposal ∧
      result.approvals = m.ackSet.card ∧ m'.state = .committed := by
  unfold commit at h
  split_ifs at h with hstate hquorum
  rw [not_not] at hstate
  have hcard : m.required ≤ m.ackSet.card := by simpa [quorumReached, hstate] using hquorum
  split at h
  · cases h
  next proposal hproposal =>
    obtain ⟨rfl, rfl⟩ := Prod.mk.inj (Except.ok.inj h)
    exact ⟨hstate, hcard, hproposal, rfl, rfl⟩

theorem propose_ok {proposer epoch : ℕ} {delta : MembershipDelta} {members : List ℕ} {proposal : EpochProposalMessage}
    (h : propose blake3 m proposer epoch delta members = .ok (m', proposal)) :
    m'.currentProposal = some proposal ∧ m'.ackSet = ∅ ∧ m'.state ≠ .awaitingAcks := by
  unfold propose at h
  cases hv : m.validate .proposing with
  | error e =>
    rw [hv] at h
    cases h
  | ok u =>
    rw [hv] at h
    by_cases hempty : (members.mergeSort (· ≤ ·)).dedup.isEmpty = true
    · simp [hempty, bind, Except.bind, throw, throwThe, MonadExceptOf.throw] at h
    · simp only [bind, Except.bind, hempty, Bool.false_eq_true, if_false, pure, Except.pure, Except.ok.injEq,
        Prod.mk.injEq] at h
      obtain ⟨rfl, rfl⟩ := h
      refine ⟨rfl, rfl, ?_⟩
      dsimp only
      split_ifs <;> decide

theorem broadcast_ok (h : m.broadcast = .ok m') : m.state = .proposing ∧ m' = { m with state := .awaitingAcks } := by
  unfold broadcast validate at h
  cases hstate : m.state <;> rw [hstate] at h <;> cases h
  exact ⟨rfl, rfl⟩

/-- The calls that end a vote leave no vote. -/
theorem abort_state (m : EpochTransitionStateMachine) : after m m.abort = m ∨ (after m m.abort).state = .stable := by
  unfold abort
  split_ifs
  · exact .inl rfl
  · exact .inl rfl
  · exact .inr rfl

theorem reset_state (m : EpochTransitionStateMachine) : after m m.reset = m ∨ (after m m.reset).state = .stable := by
  unfold reset
  cases m.validate .stable with
  | error e => exact .inl rfl
  | ok u => exact .inr rfl

theorem Counts.of_no_vote {h : History} (hstate : h.machine.state = .committed ∨ h.machine.state = .stable) :
    Counts blake3 h := by
  constructor
  · intro hproposing
    rw [hproposing] at hstate
    rcases hstate with h1 | h1 <;> cases h1
  · intro hawaiting
    rw [hawaiting] at hstate
    rcases hstate with h1 | h1 <;> cases h1

/-- **A call without a rejection keeps the count.** -/
theorem step_counts {h : History} (hc : Counts blake3 h) :
    ∀ op, NoRejection blake3 h op → Counts blake3 (step blake3 h op)
  | .propose proposer epoch delta members, _ => by
    simp only [step]
    cases hres : propose blake3 h.machine proposer epoch delta members with
    | error e => exact hc
    | ok res =>
      obtain ⟨h1, h2, h3⟩ := propose_ok hres
      exact ⟨fun _ => ⟨h2, by show res.1.currentProposal.isSome = true; rw [h1]; rfl⟩, fun hstate => absurd hstate h3⟩
  | .broadcast, _ => by
    simp only [step]
    split
    next m hres =>
      obtain ⟨hstate, rfl⟩ := broadcast_ok hres
      obtain ⟨hempty, hsome⟩ := hc.proposing hstate
      obtain ⟨proposal, hproposal⟩ := Option.isSome_iff_exists.mp hsome
      exact ⟨fun h => (by cases h), fun _ => ⟨proposal, hproposal, hempty⟩⟩
    · exact hc
  | .receiveAck ack, hop => by
    simp only [step]
    by_cases hstate : h.machine.state = .awaitingAcks
    · obtain ⟨proposal, hproposal, hset⟩ := hc.awaiting hstate
      rcases @receiveAck_cases blake3 _ _ ack hstate hproposal with ⟨hvalid, hm⟩ | ⟨hinvalid, hm⟩
      · have happroved := hop hstate proposal hproposal hvalid
        rw [hm]
        refine ⟨fun h => absurd (hstate.symm.trans h) (by decide), fun _ => ⟨proposal, hproposal, ?_⟩⟩
        rw [approvers_append, if_pos ⟨hvalid, happroved⟩, ← hset]
      · rw [hm]
        refine ⟨fun h => absurd (hstate.symm.trans h) (by decide), fun _ => ⟨proposal, hproposal, ?_⟩⟩
        rw [approvers_append, if_neg fun h => hinvalid h.1]
        exact hset
    · rw [receiveAck_other ack hstate]
      exact ⟨hc.proposing, fun h => absurd h hstate⟩
  | .commit, _ => by
    simp only [step]
    cases hres : h.machine.commit with
    | error e => exact hc
    | ok res =>
      have hcommitted : res.1.state = .committed := (commit_ok hres).2.2.2.2
      exact .of_no_vote (.inl hcommitted)
  | .abort, _ => by
    simp only [step]
    rcases abort_state h.machine with hsame | hstable
    · rw [hsame]
      exact hc
    · exact .of_no_vote (.inr hstable)
  | .reset, _ => by
    simp only [step]
    rcases reset_state h.machine with hsame | hstable
    · rw [hsame]
      exact hc
    · exact .of_no_vote (.inr hstable)

theorem run_counts : ∀ (ops : List Op) {h : History}, Counts blake3 h → NoRejectionRun blake3 h ops →
    Counts blake3 (ops.foldl (step blake3) h)
  | [], _, hc, _ => hc
  | op :: ops, _, hc, hrun => run_counts ops (step_counts hc op hrun.1) hrun.2

/-- **A commit has its approvals.** After any run in which no peer rejects the proposal under vote, a commit that
succeeds has as many approving peers as are required, all heard since the broadcast, and reports their number. -/
theorem commit_has_approvals (blake3 : List UInt8 → Hash) (quorumThreshold : QuorumThreshold) (peerCount : ℕ)
    (ops : List Op) (hrun : NoRejectionRun blake3 (start quorumThreshold peerCount) ops)
    (m : EpochTransitionStateMachine) (result : EpochTransitionResult)
    (hcommit : (ops.foldl (step blake3) (start quorumThreshold peerCount)).machine.commit = .ok (m, result)) :
    (ops.foldl (step blake3) (start quorumThreshold peerCount)).machine.required ≤
        (approvers blake3 result.proposal (ops.foldl (step blake3) (start quorumThreshold peerCount)).delivered).card ∧
      result.approvals =
        (approvers blake3 result.proposal (ops.foldl (step blake3) (start quorumThreshold peerCount)).delivered).card := by
  have hstart : Counts blake3 (start quorumThreshold peerCount) := .of_no_vote (.inr rfl)
  have hc := run_counts ops hstart hrun
  obtain ⟨hstate, hquorum, hproposal, happrovals, -⟩ := commit_ok hcommit
  obtain ⟨proposal, hproposal', hset⟩ := hc.awaiting hstate
  obtain rfl : result.proposal = proposal := Option.some.inj (hproposal.symm.trans hproposal')
  rw [← hset]
  exact ⟨hquorum, happrovals⟩

/-! ### Votes on one proposal -/

section Votes

/-- The proposal that node 2 joins node 1 after epoch 4. -/
def joined (blake3 : List UInt8 → Hash) : EpochProposalMessage :=
  .new blake3 1 4 5 (.nodeJoined 2) [1]

/-- The machine that waits for acks of this proposal. -/
def voting (blake3 : List UInt8 → Hash) (peerCount : ℕ) (acks : Finset ℕ) : EpochTransitionStateMachine :=
  ⟨.awaitingAcks, some (joined blake3), acks, .simpleMajority, peerCount⟩

/-- The proposal is made and broadcast. -/
def opening : List Op := [.propose 1 4 (.nodeJoined 2) [1], .broadcast]

theorem opening_votes (blake3 : List UInt8 → Hash) (proposal : Option EpochProposalMessage) (acks : Finset ℕ)
    (peers : ℕ) (delivered : List EpochAckMessage) :
    opening.foldl (step blake3) ⟨⟨.stable, proposal, acks, .simpleMajority, peers + 1⟩, delivered⟩ =
      ⟨voting blake3 (peers + 1) ∅, []⟩ := by
  have hsorted : (([1] : List ℕ).mergeSort (· ≤ ·)).dedup = [1] := by simp
  have hpropose : step blake3 ⟨⟨.stable, proposal, acks, .simpleMajority, peers + 1⟩, delivered⟩
      (.propose 1 4 (.nodeJoined 2) [1]) =
        ⟨⟨.proposing, some (joined blake3), ∅, .simpleMajority, peers + 1⟩, delivered⟩ := by
    simp only [step, propose, validate, EpochState.validateTransition, Except.mapError, hsorted]
    rfl
  rw [opening, List.foldl_cons, List.foldl_cons, List.foldl_nil, hpropose]
  rfl

/-- Whatever a peer answers, it is counted. -/
theorem step_counted (blake3 : List UInt8 → Hash) (peerCount : ℕ) (acks : Finset ℕ) (delivered : List EpochAckMessage)
    {ack : EpochAckMessage} (hvalid : Valid blake3 (joined blake3) ack) :
    step blake3 ⟨voting blake3 peerCount acks, delivered⟩ (.receiveAck ack) =
      ⟨voting blake3 peerCount (insert ack.ackerId acks), delivered ++ [ack]⟩ := by
  simp only [step]
  rcases receiveAck_cases (m := voting blake3 peerCount acks) ack rfl rfl with ⟨-, hm⟩ | ⟨hinvalid, -⟩
  · rw [hm]
    rfl
  · exact absurd hvalid hinvalid

theorem step_abort (blake3 : List UInt8 → Hash) (peerCount : ℕ) (acks : Finset ℕ) (delivered : List EpochAckMessage) :
    step blake3 ⟨voting blake3 peerCount acks, delivered⟩ .abort =
      ⟨⟨.stable, none, ∅, .simpleMajority, peerCount⟩, delivered⟩ := rfl

theorem valid_approve (blake3 : List UInt8 → Hash) (acker : ℕ) :
    Valid blake3 (joined blake3) (.approve blake3 acker (joined blake3).blake3Hash) :=
  ⟨by simp [verify, approve], rfl⟩

theorem valid_reject (blake3 : List UInt8 → Hash) (acker : ℕ) :
    Valid blake3 (joined blake3) (.reject blake3 acker (joined blake3).blake3Hash) :=
  ⟨by simp [verify, reject], rfl⟩

def lastBytes (bytes : List UInt8) : Hash := Vector.ofFn fun i => bytes.reverse.getD i 0

def approval (acker : ℕ) : EpochAckMessage := .approve lastBytes acker (joined lastBytes).blake3Hash

/-- The vote of peer 7. -/
def rejection : EpochAckMessage := .reject lastBytes 7 (joined lastBytes).blake3Hash

/-- Peer 9 approves and the round is aborted; in the second round peer 7 approves twice and peer 8 once. -/
def twoRounds : List Op :=
  opening ++ [.receiveAck (approval 9), .abort] ++ opening ++
    [.receiveAck (approval 7), .receiveAck (approval 7), .receiveAck (approval 8)]

theorem twoRounds_state : twoRounds.foldl (step lastBytes) (start .simpleMajority 3) =
    ⟨voting lastBytes 3 {8, 7}, [approval 7, approval 7, approval 8]⟩ := by
  have hvalid : ∀ acker, Valid lastBytes (joined lastBytes) (approval acker) := valid_approve lastBytes
  simp only [twoRounds, List.foldl_append, List.foldl_cons, List.foldl_nil]
  rw [start, new, opening_votes, step_counted _ _ _ _ (hvalid 9)]
  rw [step_abort, opening_votes, step_counted _ _ _ _ (hvalid 7), step_counted _ _ _ _ (hvalid 7), step_counted _ _ _ _ (hvalid 8)]
  congr 2

/-- A run in which every ack is an approval has no rejection. -/
theorem noRejectionRun_of_approved {blake3 : List UInt8 → Hash} : ∀ (ops : List Op) (h : History),
    (∀ ack, .receiveAck ack ∈ ops → ack.approved = true) → NoRejectionRun blake3 h ops
  | [], _, _ => trivial
  | op :: ops, _, happroved => by
    refine ⟨?_, noRejectionRun_of_approved ops _ fun ack hack => happroved ack (List.mem_cons_of_mem _ hack)⟩
    cases op with
    | receiveAck ack => exact fun _ _ _ _ => happroved ack List.mem_cons_self
    | _ => trivial

theorem commit_has_approvals_two :
    (approvers lastBytes (joined lastBytes) (twoRounds.foldl (step lastBytes) (start .simpleMajority 3)).delivered).card = 2 := by
  have hrun : NoRejectionRun lastBytes (start .simpleMajority 3) twoRounds := by
    refine noRejectionRun_of_approved _ _ fun ack hack => ?_
    simp only [twoRounds, opening, List.mem_append, List.mem_cons, List.not_mem_nil, reduceCtorEq, or_false, false_or,
      Op.receiveAck.injEq] at hack
    rcases hack with rfl | rfl | rfl | rfl <;> rfl
  have h := commit_has_approvals lastBytes .simpleMajority 3 twoRounds hrun
    ⟨.committed, none, {8, 7}, .simpleMajority, 3⟩ ⟨joined lastBytes, 2, 2⟩
    (by rw [twoRounds_state]; rfl)
  exact h.2.symm

/-- The proposal is made and broadcast, and a peer's ack is delivered. -/
def vote (ack : EpochAckMessage) : List Op := opening ++ [.receiveAck ack]

/-- The only peer rejects, and the epoch is committed with one approval. -/
theorem rejection_commits : (((vote rejection).foldl (step lastBytes) (start .simpleMajority 1)).machine.commit.map
        fun r => r.2.approvals) = .ok 1 ∧ approvers lastBytes (joined lastBytes)
        ((vote rejection).foldl (step lastBytes) (start .simpleMajority 1)).delivered = ∅ := by
  rw [vote, List.foldl_append, start, new, opening_votes, List.foldl_cons, List.foldl_nil, rejection,
    step_counted _ _ _ _ (valid_reject lastBytes 7)]
  constructor
  · rfl
  · rw [approvers, List.nil_append, List.filter_cons_of_neg]
    · rfl
    · simp [EpochAckMessage.reject]

end Votes

end Transition
end Tidefs.Membership
