/-
# The partition runtime and its guard

A member takes the connected components of who reaches whom for the sides of a partition.
A division suspected for enough ticks is confirmed, and the guard lets the member accept
writes if its component has a majority of the voters.

The matrix only ever gets the member's own row, so it has one component and no division
is ever seen: whatever its detector reports, a member goes on accepting writes
(`Unaware.ticks`), and so do the members on all sides of every division
(`every_side_accepts`, `both_sides_accept`).

The healing protocol is a parameter. The fence, the audit trail, the clock and what the
states carry are left out: no decision of a tick reads them.
-/
import Mathlib.Data.List.Sort
import Tidefs.Lib.Assoc

namespace Tidefs.Partition

open Ordered

abbrev MemberId := ℕ

/-- The role of a member. -/
inductive MemberClass where
  | voter
  | learner
  | witnessOnly
  | dataOnly
  | shadowOnly
  | quarantined
deriving DecidableEq

def MemberClass.canVote (c : MemberClass) : Bool := c == .voter

/-- The health of a member. -/
inductive HealthClass where
  | healthy
  | suspect
  | down
deriving DecidableEq

structure ClusterMemberRecord where
  memberId : MemberId
  memberClass : MemberClass
  health : HealthClass

abbrev FailureDetector := OrdMap MemberId HealthClass

def HealthClass.isAlive (h : HealthClass) : Bool := h == .healthy || h == .suspect

/-! ### Components -/

abbrev ReachabilityMatrix := OrdMap MemberId (OrdSet MemberId)

namespace ReachabilityMatrix

variable (matrix : ReachabilityMatrix)

def neighbors (id : MemberId) : List MemberId := ((matrix.get? id).map (·.toList)).getD []

/-- The loop over the stack, with the top in front: what is visited, and the component. -/
def visit : ℕ → List MemberId → List MemberId → List MemberId → List MemberId × List MemberId
  | fuel + 1, current :: stack, visited, component =>
    if current ∈ visited then visit fuel stack visited component
    else
      let visited := current :: visited
      visit fuel (((matrix.neighbors current).filter (· ∉ visited)).reverse ++ stack) visited (component ++ [current])
  | _, _, visited, component => (visited, component)

/-- Each node is expanded once, so no more is pushed than stands in the rows. -/
def fuel : ℕ := 1 + (matrix.entries.map fun e => e.2.toList.length).sum

def componentsFrom : List MemberId → List MemberId → List (List MemberId)
  | [], _ => []
  | node :: nodes, visited =>
    if node ∈ visited then componentsFrom nodes visited
    else
      let (visited, component) := matrix.visit matrix.fuel [node] visited []
      component.insertionSort (· ≤ ·) :: componentsFrom nodes visited

/-- The largest first. -/
def connectedComponents : List (List MemberId) :=
  ((matrix.componentsFrom (matrix.entries.map Prod.fst) []).insertionSort fun c d => c.length ≤ d.length).reverse

end ReachabilityMatrix

/-! ### The guard -/

/-- What the detector takes the cluster for. -/
inductive PartitionState where
  | connected
  | suspecting
  | quorumSideActive
  | minorityFenced
  | ambiguousHalted
  | healing

def PartitionState.canAcceptWrites : PartitionState → Bool
  | .connected | .quorumSideActive => true
  | _ => false

def isVoter (m : ClusterMemberRecord) : Bool := m.memberClass.canVote && m.memberClass != .quarantined

def countTotalVoters (members : List ClusterMemberRecord) : ℕ := members.countP isVoter

def countVotersIn (component : List MemberId) (members : List ClusterMemberRecord) : ℕ :=
  members.countP fun m => decide (m.memberId ∈ component) && m.health != .down && isVoter m

def findMyComponent (myId : MemberId) (components : List (List MemberId)) : List MemberId :=
  (components.find? (myId ∈ ·)).getD [myId]

def evaluate (myId : MemberId) (state : PartitionState) (matrix : ReachabilityMatrix)
    (members : List ClusterMemberRecord) : PartitionState :=
  let components := matrix.connectedComponents
  if components.length ≤ 1 then state
  else
    let quorumThreshold := countTotalVoters members / 2 + 1
    if quorumThreshold ≤ countVotersIn (findMyComponent myId components) members then .quorumSideActive
    else if 0 < components.countP fun c => quorumThreshold ≤ countVotersIn c members then .minorityFenced
    else .ambiguousHalted

/-! ### The runtime -/

/-- What one member has seen of the others. -/
structure PartitionDetector where
  suspicionRoundsBeforePartition : ℕ
  myId : MemberId
  reachability : ReachabilityMatrix
  suspicionRounds : OrdMap MemberId ℕ
  partitionConfirmed : Bool

namespace PartitionDetector

variable (x : PartitionDetector)

def reachable (d : FailureDetector) : OrdSet MemberId :=
  OrdSet.empty.extend ((d.entries.filter (·.2.isAlive)).map Prod.fst ++ [x.myId])

def absorbFailureDetectorState (d : FailureDetector) : PartitionDetector :=
  { x with
    reachability := x.reachability.insert x.myId (x.reachable d)
    suspicionRounds := (d.entries.map Prod.fst).foldl (fun rounds id => rounds.insert id
      (if id ∈ x.reachable d then 0 else ((rounds.get? id).getD 0 + 1) % 2 ^ 32)) x.suspicionRounds }

def isPartitionSuspected : Bool :=
  x.suspicionRounds.entries.any (x.suspicionRoundsBeforePartition ≤ ·.2)

def reset : PartitionDetector :=
  { x with partitionConfirmed := false, suspicionRounds := OrdMap.empty }

end PartitionDetector

structure PartitionRuntime (H : Type) where
  detector : PartitionDetector
  state : PartitionState
  healing : H
  members : List ClusterMemberRecord

/-- What the runtime reads of the healing protocol, and the two calls that change it. -/
structure HealingProtocol (H : Type) where
  inProgress : H → Bool
  allCaughtUp : H → Bool
  complete : H → Bool
  initiateHealing : PartitionRuntime H → FailureDetector → PartitionRuntime H
  completeHealing : PartitionRuntime H → PartitionRuntime H

variable {H : Type} (P : HealingProtocol H)

namespace PartitionRuntime

def bootstrap (rounds : ℕ) (myId : MemberId) (healing : H) (members : List ClusterMemberRecord) : PartitionRuntime H :=
  ⟨⟨rounds, myId, OrdMap.empty, OrdMap.empty, false⟩, .connected, healing, members⟩

variable (r : PartitionRuntime H)

/-- A division that is suspected is confirmed, and the guard evaluates it. -/
def confirm : PartitionRuntime H :=
  if !r.detector.partitionConfirmed && r.detector.isPartitionSuspected then
    { r with
      detector := { r.detector with partitionConfirmed := true }
      state := evaluate r.detector.myId r.state r.detector.reachability r.members }
  else r

def checkHealed (d : FailureDetector) : PartitionRuntime H :=
  if (r.detector.partitionConfirmed && !P.inProgress r.healing) && (d.entries.all (·.2.isAlive) && !d.entries.isEmpty) then
    P.initiateHealing r d
  else r

def restore : PartitionRuntime H :=
  let r := if P.inProgress r.healing then P.completeHealing r else r
  if r.detector.partitionConfirmed then { r with detector := r.detector.reset, state := .connected } else r

def tick (d : FailureDetector) (r : PartitionRuntime H) : PartitionRuntime H :=
  let r := { r with detector := r.detector.absorbFailureDetectorState d }
  let r := if 1 < r.detector.reachability.connectedComponents.length then r.confirm.checkHealed P d else r.restore P
  if P.inProgress r.healing && (P.allCaughtUp r.healing && !P.complete r.healing) then P.completeHealing r else r

def ticks (d : FailureDetector) (n : ℕ) (r : PartitionRuntime H) : PartitionRuntime H := (tick P d)^[n] r

def canAcceptWrites : Bool := r.state.canAcceptWrites

end PartitionRuntime

open PartitionRuntime

/-! ### What a runtime sees -/

/-- One row has one component. -/
theorem components_of_row (myId : MemberId) (row : OrdSet MemberId) :
    (ReachabilityMatrix.connectedComponents (OrdMap.empty.insert myId row)).length = 1 := by
  unfold ReachabilityMatrix.connectedComponents
  rw [List.length_reverse, List.length_insertionSort]
  rfl

theorem insert_row (myId : MemberId) (row row' : OrdSet MemberId) :
    (OrdMap.empty.insert myId row).insert myId row' = OrdMap.empty.insert myId row' := by
  show OrdMap.mk (OrdMap.insertList myId row' [(myId, row)]) _ = OrdMap.mk [(myId, row')] _
  simp [OrdMap.insertList]

/-- A runtime that knows at most its own row, has confirmed nothing and is not healing. -/
structure Unaware (myId : MemberId) (r : PartitionRuntime H) : Prop where
  self : r.detector.myId = myId
  row : r.detector.reachability = OrdMap.empty ∨ ∃ row, r.detector.reachability = OrdMap.empty.insert myId row
  fresh : r.detector.partitionConfirmed = false
  state : r.state = .connected
  idle : P.inProgress r.healing = false

variable {P} {myId : MemberId} {r : PartitionRuntime H}

theorem Unaware.bootstrap (rounds : ℕ) (myId : MemberId) {healing : H} (hidle : P.inProgress healing = false)
    (members : List ClusterMemberRecord) : Unaware P myId (PartitionRuntime.bootstrap rounds myId healing members) :=
  ⟨rfl, .inl rfl, rfl, rfl, hidle⟩

/-- **A tick sees no division**, whatever the detector reports. -/
theorem Unaware.tick (h : Unaware P myId r) (d : FailureDetector) : Unaware P myId (r.tick P d) := by
  obtain ⟨row, hrow⟩ : ∃ row, (r.detector.absorbFailureDetectorState d).reachability = OrdMap.empty.insert myId row := by
    refine ⟨r.detector.reachable d, ?_⟩
    show r.detector.reachability.insert r.detector.myId _ = _
    rw [h.self]
    obtain hempty | ⟨row, hrow⟩ := h.row
    · rw [hempty]
    · rw [hrow, insert_row]
  have hone : ¬ 1 < (r.detector.absorbFailureDetectorState d).reachability.connectedComponents.length := by
    rw [hrow, components_of_row]
    exact lt_irrefl 1
  have hfresh : (r.detector.absorbFailureDetectorState d).partitionConfirmed = false := h.fresh
  have hrestore : restore P { r with detector := r.detector.absorbFailureDetectorState d } =
      { r with detector := r.detector.absorbFailureDetectorState d } := by
    unfold restore
    simp only [h.idle, hfresh, Bool.false_eq_true, if_false]
  have htick : r.tick P d = { r with detector := r.detector.absorbFailureDetectorState d } := by
    unfold PartitionRuntime.tick
    simp only [if_neg hone, hrestore, h.idle, Bool.false_and, Bool.false_eq_true, if_false]
  rw [htick]
  exact ⟨h.self, .inr ⟨row, hrow⟩, hfresh, h.state, h.idle⟩

theorem Unaware.ticks (h : Unaware P myId r) (d : FailureDetector) (n : ℕ) : Unaware P myId (r.ticks P d n) := by
  unfold PartitionRuntime.ticks
  induction n with
  | zero => exact h
  | succ n ih =>
    rw [Function.iterate_succ_apply']
    exact ih.tick d

/-- A division of the members into groups, at least two, as the failure detector of each
member reports it: exactly the members of other groups are down. -/
structure Division (members : List ClusterMemberRecord) (group : MemberId → ℕ)
    (detector : MemberId → FailureDetector) : Prop where
  distinct : (members.map ClusterMemberRecord.memberId).Nodup
  down : ∀ m ∈ members, ∀ id, (detector m.memberId).get? id = some .down ↔
    (∃ m' ∈ members, m'.memberId = id) ∧ group id ≠ group m.memberId
  sides : ∃ m ∈ members, ∃ m' ∈ members, group m.memberId ≠ group m'.memberId

variable (P) in
/-- **Every side accepts writes.** For every division of the members and every number of ticks, it is not the case that
no two members of different groups accept writes. -/
theorem every_side_accepts {healing : H} (hidle : P.inProgress healing = false) (rounds ticks : ℕ)
    {members : List ClusterMemberRecord} {group : MemberId → ℕ} {detector : MemberId → FailureDetector}
    (hdivision : Division members group detector) :
    let accepts := fun m : ClusterMemberRecord => ((PartitionRuntime.bootstrap rounds m.memberId healing members).ticks P
      (detector m.memberId) ticks).canAcceptWrites = true
    ¬ ∀ m ∈ members, ∀ m' ∈ members, group m.memberId ≠ group m'.memberId → ¬ (accepts m ∧ accepts m') := by
  intro accepts hproperty
  have haccepts : ∀ m, accepts m := fun m => by
    have hunaware := (Unaware.bootstrap rounds m.memberId hidle members).ticks (detector m.memberId) ticks
    show PartitionState.canAcceptWrites _ = true
    rw [hunaware.state]
    rfl
  obtain ⟨m, hm, m', hm', hgroup⟩ := hdivision.sides
  exact hproperty m hm m' hm' hgroup ⟨haccepts m, haccepts m'⟩

def voters (n : ℕ) : List ClusterMemberRecord := (List.range n).map fun id => ⟨id, .voter, .healthy⟩

/-- Healing that was not begun. -/
def notHealing : HealingProtocol Unit := ⟨fun _ => false, fun _ => false, fun _ => false, fun r _ => r, fun r => r⟩

/-- What the three voters report when the third is cut off. -/
def cutOff (id : MemberId) : FailureDetector :=
  if id = 2 then (OrdMap.empty.insert 0 .down).insert 1 .down else (OrdMap.empty.insert (1 - id) .healthy).insert 2 .down

theorem cutOff_division : Division (voters 3) (· / 2) cutOff := by
  refine ⟨by decide, fun m hm id => ?_, by decide⟩
  obtain rfl | rfl | rfl : m = ⟨0, .voter, .healthy⟩ ∨ m = ⟨1, .voter, .healthy⟩ ∨ m = ⟨2, .voter, .healthy⟩ := by
    simpa [voters, List.range, List.range.loop] using hm
  all_goals
    rcases id with _ | _ | _ | id
    · decide
    · decide
    · decide
    · simp [cutOff, OrdMap.get?_insert, voters]

theorem every_side_accepts_three : ¬ ∀ m ∈ voters 3, ∀ m' ∈ voters 3, m.memberId / 2 ≠ m'.memberId / 2 →
    ¬ (((bootstrap 3 m.memberId () (voters 3)).ticks notHealing (cutOff m.memberId) 5).canAcceptWrites = true ∧
      ((bootstrap 3 m'.memberId () (voters 3)).ticks notHealing (cutOff m'.memberId) 5).canAcceptWrites = true) :=
  every_side_accepts notHealing rfl 3 5 cutOff_division

/-- **Both sides accept writes**: two voters that report each other down, three ticks long. -/
theorem both_sides_accept : ∃ d d' : FailureDetector, d.entries = [(1, .down)] ∧ d'.entries = [(0, .down)] ∧
    ((PartitionRuntime.bootstrap 3 0 () (voters 2)).ticks notHealing d 3).canAcceptWrites = true ∧
    ((PartitionRuntime.bootstrap 3 1 () (voters 2)).ticks notHealing d' 3).canAcceptWrites = true :=
  ⟨OrdMap.empty.insert 1 .down, OrdMap.empty.insert 0 .down, by decide, by decide, by decide, by decide⟩

end Tidefs.Partition
