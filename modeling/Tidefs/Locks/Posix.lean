/-
# The POSIX lock table

`PosixLockTable` has, for each inode, the locks that are granted and the requests that are
parked. A request with no lock in its way is granted; otherwise it is refused or, if it may
block and would not wait for itself, parked. A release takes one lock away, merges the locks
of that owner that are now next to each other, and grants the parked requests that have
nothing left in their way.

A release looks at the locks from before it grants, so it can grant two requests that
conflict with each other; and `releaseAllForOwner` looks at no parked request at all. Where
no release wakes two conflicting requests, and nobody is left waiting for the owner that
releases everything (`Careful`), granted locks exclude each other and each parked request
has a lock in its way, after any run (`locks_exclude`).
-/
import Tidefs.Lib.Coalesce
import Tidefs.Lib.Ordered
import Tidefs.Lib.Word

namespace Tidefs.PosixLock

open Coalesce Ordered Word List Option

/-! ### Ranges -/

structure LockRange where
  start : ℕ
  len : ℕ
  startFits : start ≤ u64Max
  lenFits : len ≤ u64Max
deriving DecidableEq

namespace LockRange

/-- The end, not in the range; a range without a length goes to the end of the file. -/
def stop (r : LockRange) : ℕ := if r.len = 0 then u64Max else satAdd r.start r.len

def overlaps (a b : LockRange) : Bool := a.start < b.stop && b.start < a.stop

def adjacentTo (a b : LockRange) : Bool := a.stop = b.start || b.stop = a.start

theorem stop_le (r : LockRange) : r.stop ≤ u64Max := by
  unfold stop satAdd
  split_ifs <;> omega

theorem start_le_stop (r : LockRange) : r.start ≤ r.stop := by
  have := r.startFits
  unfold stop satAdd
  split_ifs <;> omega

/-- Only a range at the very end is empty. -/
theorem start_lt_stop {r : LockRange} (h : r.start < u64Max) : r.start < r.stop := by
  unfold stop satAdd
  split_ifs <;> omega

def mergeWith (a b : LockRange) : Option LockRange :=
  if !a.overlaps b && !a.adjacentTo b then none
  else
    some {
      start := min a.start b.start
      len := if max a.stop b.stop = u64Max then 0 else max a.stop b.stop - min a.start b.start
      startFits := (min_le_left _ _).trans a.startFits
      lenFits := by
        have := a.stop_le
        have := b.stop_le
        split_ifs <;> omega }

def Has (r : LockRange) (byte : ℕ) : Prop := r.start ≤ byte ∧ byte < r.stop

theorem overlaps_iff {a b : LockRange} : a.overlaps b = true ↔ ∃ byte, a.Has byte ∧ b.Has byte := by
  simp only [overlaps, Bool.and_eq_true, decide_eq_true_eq, Has]
  constructor
  · rintro ⟨hab, hba⟩
    have ha : a.start < a.stop := start_lt_stop (hab.trans_le b.stop_le)
    have hb : b.start < b.stop := start_lt_stop (hba.trans_le a.stop_le)
    exact ⟨max a.start b.start, ⟨le_max_left _ _, max_lt ha hba⟩, le_max_right _ _, max_lt hab hb⟩
  · rintro ⟨byte, ha, hb⟩
    omega

theorem overlaps_comm (a b : LockRange) : a.overlaps b = b.overlaps a := by
  rw [Bool.eq_iff_iff, overlaps_iff, overlaps_iff]
  simp only [and_comm]

theorem mergeWith_bounds {a b c : LockRange} (h : a.mergeWith b = some c) :
    c.start = min a.start b.start ∧ c.stop = max a.stop b.stop := by
  unfold mergeWith at h
  split_ifs at h with hfar hend
  · obtain rfl := some.inj h
    exact ⟨rfl, hend.symm⟩
  · -- short of the end of the file the merged range has a length
    obtain rfl := some.inj h
    refine ⟨rfl, ?_⟩
    have ha := a.stop_le
    have hb := b.stop_le
    have hstart := a.start_le_stop
    have hpos := start_lt_stop (show a.start < u64Max by omega)
    rw [stop, if_neg (by dsimp only; omega), satAdd]
    dsimp only
    omega

/-- **Two ranges next to each other** merge into one with the bytes of both. -/
theorem mergeWith_has {a b c : LockRange} (hnext : a.adjacentTo b = true) (h : a.mergeWith b = some c) (byte : ℕ) :
    c.Has byte ↔ a.Has byte ∨ b.Has byte := by
  obtain ⟨hstart, hstop⟩ := mergeWith_bounds h
  have ha := a.start_le_stop
  have hb := b.start_le_stop
  simp only [adjacentTo, Bool.or_eq_true, decide_eq_true_eq] at hnext
  simp only [Has, hstart, hstop]
  omega

end LockRange

/-! ### Locks -/

/-- The kinds of record locks. -/
inductive LockType where
  | read
  | write
  | unlock
deriving DecidableEq

def LockType.conflictsWith : LockType → LockType → Bool
  | .write, _ => true
  | _, .write => true
  | _, _ => false

theorem LockType.conflictsWith_comm (a b : LockType) : a.conflictsWith b = b.conflictsWith a := by
  cases a <;> cases b <;> rfl

/-- A lock that is held. -/
structure LockEntry where
  range : LockRange
  lockType : LockType
  ownerPid : ℕ
deriving DecidableEq

/-- A lock is in the way of a request: they overlap, and one of them is for writing. -/
def LockEntry.blocks (existing entry : LockEntry) : Bool :=
  existing.range.overlaps entry.range && entry.lockType.conflictsWith existing.lockType

theorem LockEntry.blocks_comm (a b : LockEntry) : a.blocks b = b.blocks a := by
  rw [blocks, blocks, a.range.overlaps_comm, b.lockType.conflictsWith_comm]

/-- A parked request, and when it is woken the answer to it. -/
structure Waiter where
  entry : LockEntry
  opaqueId : ℕ
deriving DecidableEq

/-- Why a lock is not granted or released. -/
inductive PosixLockError where
  | wouldBlock
  | deadlock
  | notFound

structure InodeState where
  locks : List LockEntry
  waiters : List Waiter
deriving DecidableEq

/-- The locks of every inode. -/
structure PosixLockTable where
  inodes : OrdMap ℕ InodeState

/-! ### Deadlocks -/

section Deadlock

/-- The edges out of a node, in turn, until a cycle is found. -/
def dfsEdges (dfs : ℕ → Finset ℕ → Finset ℕ → Option (Bool × Finset ℕ × Finset ℕ)) (node : ℕ) :
    List (ℕ × ℕ) → Finset ℕ → Finset ℕ → Option (Bool × Finset ℕ × Finset ℕ)
  | [], visited, stack => some (false, visited, stack)
  | (src, dst) :: edges, visited, stack =>
    if src = node then
      match dfs dst visited stack with
      | some (false, visited, stack) => dfsEdges dfs node edges visited stack
      | found => found
    else dfsEdges dfs node edges visited stack

/-- Whether a cycle is found from a node, and the nodes visited and on the stack then.
Without fuel there is no result. -/
def dfsCycle (edges : List (ℕ × ℕ)) : ℕ → ℕ → Finset ℕ → Finset ℕ → Option (Bool × Finset ℕ × Finset ℕ)
  | 0, _, _, _ => none
  | fuel + 1, node, visited, stack =>
    if node ∈ stack then some (true, visited, stack)
    else if node ∈ visited then some (false, visited, stack)
    else
      match dfsEdges (dfsCycle edges fuel) node edges (insert node visited) (insert node stack) with
      | some (false, visited, stack) => some (false, visited, stack.erase node)
      | found => found

/-- The search returns, and without a cycle the stack is as it was. -/
def Returns (stack : Finset ℕ) (result : Option (Bool × Finset ℕ × Finset ℕ)) : Prop :=
  ∃ found visited stack', result = some (found, visited, stack') ∧ (found = false → stack' = stack)

theorem dfsEdges_returns {nodes stack : Finset ℕ} {node : ℕ}
    {dfs : ℕ → Finset ℕ → Finset ℕ → Option (Bool × Finset ℕ × Finset ℕ)}
    (hdfs : ∀ dst ∈ nodes, ∀ visited, Returns stack (dfs dst visited stack)) (edges : List (ℕ × ℕ)) :
    ∀ visited, (∀ e ∈ edges, e.2 ∈ nodes) → Returns stack (dfsEdges dfs node edges visited stack) := by
  induction edges with
  | nil => exact fun visited _ => ⟨false, visited, stack, rfl, fun _ => rfl⟩
  | cons e edges ih =>
    intro visited hnodes
    obtain ⟨he, hedges⟩ := forall_mem_cons.mp hnodes
    rw [dfsEdges]
    split_ifs with hsrc
    · obtain ⟨found, visited', stack', hres, hstack⟩ := hdfs e.2 he visited
      rw [hres]
      cases found with
      | true => exact ⟨true, visited', stack', rfl, fun h => by cases h⟩
      | false =>
        rw [hstack rfl]
        exact ih visited' hedges
    · exact ih visited hedges

/-- **The search ends.** The nodes on the stack are distinct, so it is no deeper than there are nodes. -/
theorem dfsCycle_returns {edges : List (ℕ × ℕ)} {nodes : Finset ℕ} (hnodes : ∀ e ∈ edges, e.2 ∈ nodes) (fuel : ℕ) :
    ∀ {node : ℕ} {visited stack : Finset ℕ}, node ∈ nodes → stack ⊆ nodes → nodes.card < fuel + stack.card →
      Returns stack (dfsCycle edges fuel node visited stack) := by
  induction fuel with
  | zero =>
    intro node visited stack _ hstack hfuel
    have := Finset.card_le_card hstack
    omega
  | succ fuel ih =>
    intro node visited stack hnode hstack hfuel
    rw [dfsCycle]
    split_ifs with hon hvisited
    · exact ⟨true, visited, stack, rfl, fun h => by cases h⟩
    · exact ⟨false, visited, stack, rfl, fun _ => rfl⟩
    · have hcard : (insert node stack).card = stack.card + 1 := Finset.card_insert_of_notMem hon
      have hdfs : ∀ dst ∈ nodes, ∀ visited, Returns (insert node stack)
          (dfsCycle edges fuel dst visited (insert node stack)) := by
        intro dst hdst visited
        exact ih hdst (Finset.insert_subset hnode hstack) (by omega)
      obtain ⟨found, visited', stack', hres, hback⟩ :=
        @dfsEdges_returns nodes (insert node stack) node _ hdfs edges (insert node visited) hnodes
      rw [hres]
      cases found with
      | true => exact ⟨true, visited', stack', rfl, fun h => by cases h⟩
      | false =>
        refine ⟨false, visited', stack'.erase node, rfl, fun _ => ?_⟩
        rw [hback rfl]
        exact Finset.erase_insert hon

end Deadlock

namespace PosixLockTable

def new : PosixLockTable := ⟨.empty⟩

variable (t : PosixLockTable)

def state (ino : ℕ) : InodeState := (t.inodes.get? ino).getD ⟨[], []⟩

/-- Who would wait for whom. -/
def waitEdges (waiterPid : ℕ) (holders : List ℕ) : List (ℕ × ℕ) :=
  ((holders.filter (· ≠ waiterPid)).map fun holder => (waiterPid, holder)) ++
    t.inodes.entries.flatMap fun e => e.2.waiters.flatMap fun waiter =>
      (e.2.locks.filter fun existing => existing.blocks waiter.entry && existing.ownerPid ≠ waiter.entry.ownerPid).map
        fun existing => (waiter.entry.ownerPid, existing.ownerPid)

def wouldDeadlock (waiterPid : ℕ) (holders : List ℕ) : Option Bool :=
  (dfsCycle (t.waitEdges waiterPid holders) ((t.waitEdges waiterPid holders).length + 2) waiterPid ∅ ∅).map Prod.fst

theorem wouldDeadlock_returns (t : PosixLockTable) (waiterPid : ℕ) (holders : List ℕ) :
    ∃ deadlock, t.wouldDeadlock waiterPid holders = some deadlock := by
  unfold wouldDeadlock
  set edges := t.waitEdges waiterPid holders
  have hnodes : ∀ e ∈ edges,
      e.2 ∈ insert waiterPid (edges.map Prod.snd).toFinset := by
    intro e he
    apply Finset.mem_insert_of_mem
    exact mem_toFinset.mpr (mem_map_of_mem he)
  have hcard : (insert waiterPid (edges.map Prod.snd).toFinset).card ≤
      edges.length + 1 := by
    apply (Finset.card_insert_le _ _).trans
    apply Nat.succ_le_succ
    simpa using toFinset_card_le (edges.map Prod.snd)
  have hreturns : Returns ∅ (dfsCycle edges (edges.length + 2)
      waiterPid ∅ ∅) := by
    apply dfsCycle_returns hnodes _ (Finset.mem_insert_self _ _) (Finset.empty_subset _)
    omega
  obtain ⟨found, visited, stack, hres, -⟩ := hreturns
  exact ⟨found, by rw [hres]; rfl⟩

/-! ### The table -/

def sortByStart (locks : List LockEntry) : List LockEntry :=
  locks.insertionSort fun a b => a.range.start ≤ b.range.start

def insertLock (ino : ℕ) (entry : LockEntry) : PosixLockTable :=
  ⟨t.inodes.insert ino { t.state ino with locks := sortByStart ((t.state ino).locks ++ [entry]) }⟩

/-- Nothing is returned only if the search for a deadlock does not end. -/
def acquireLock (ino : ℕ) (entry : LockEntry) (blocking : Bool) (opaqueId : ℕ) :
    Option (PosixLockTable × Except PosixLockError Unit) :=
  if entry.lockType = .unlock then some (t, .ok ())
  else
    let conflictingPids := ((t.state ino).locks.filter fun existing => existing.blocks entry).map LockEntry.ownerPid
    if conflictingPids.isEmpty then some (t.insertLock ino entry, .ok ())
    else if !blocking then some (t, .error .wouldBlock)
    else
      (t.wouldDeadlock entry.ownerPid conflictingPids).map fun deadlock =>
        if deadlock then (t, .error .deadlock)
        else
          (⟨t.inodes.insert ino { t.state ino with waiters := (t.state ino).waiters ++ [⟨entry, opaqueId⟩] }⟩, .ok ())

/-- A lock of the owner that is next to the one kept last, and of its type, is merged into it. -/
def mergeInto (ownerPid : ℕ) (last entry : LockEntry) : Option LockEntry :=
  if entry.ownerPid ≠ ownerPid then none
  else if last.ownerPid = ownerPid ∧ last.lockType = entry.lockType ∧ last.range.adjacentTo entry.range = true then
    (last.range.mergeWith entry.range).map fun combined => { last with range := combined }
  else none

def mergeAdjacent (ino ownerPid : ℕ) : PosixLockTable :=
  match t.inodes.get? ino with
  | none => t
  | some st => ⟨t.inodes.insert ino { st with locks := coalesce (mergeInto ownerPid) (sortByStart st.locks) }⟩

/-- The requests are checked against the locks from before any of them is granted. -/
def drainSatisfiedWaiters (ino : ℕ) : PosixLockTable × List Waiter :=
  match t.inodes.get? ino with
  | none => (t, [])
  | some st =>
    let stillConflicts (waiter : Waiter) : Bool := st.locks.any fun existing => existing.blocks waiter.entry
    let toGrant := st.waiters.filter fun waiter => !stillConflicts waiter
    (toGrant.foldl (fun t waiter => t.insertLock ino waiter.entry)
      ⟨t.inodes.insert ino { st with waiters := st.waiters.filter stillConflicts }⟩, toGrant)

/-- The state of an inode without locks and requests is dropped. -/
def gc (ino : ℕ) : PosixLockTable :=
  match t.inodes.get? ino with
  | none => t
  | some st => if st.locks.isEmpty && st.waiters.isEmpty then ⟨t.inodes.erase ino⟩ else t

def releaseLock (ino : ℕ) (range : LockRange) (ownerPid : ℕ) : PosixLockTable × Except PosixLockError (List Waiter) :=
  match t.inodes.get? ino with
  | none => (t, .error .notFound)
  | some st =>
    match st.locks.findIdx? fun e => e.ownerPid = ownerPid ∧ e.range.start = range.start ∧ e.range.stop = range.stop with
    | none => (t, .error .notFound)
    | some idx =>
      let removed : PosixLockTable := ⟨t.inodes.insert ino { st with locks := st.locks.eraseIdx idx }⟩
      let drained := (removed.mergeAdjacent ino ownerPid).drainSatisfiedWaiters ino
      (drained.1.gc ino, .ok drained.2)

/-- The locks of an owner on one inode; requests that waited for them are not looked at. -/
def releaseInode (ownerPid : ℕ) (acc : PosixLockTable × ℕ) (ino : ℕ) : PosixLockTable × ℕ :=
  match acc.1.inodes.get? ino with
  | none => acc
  | some st =>
    let locks := st.locks.filter fun e => e.ownerPid ≠ ownerPid
    let kept : OrdMap ℕ InodeState :=
      if locks.isEmpty && st.waiters.isEmpty then acc.1.inodes.erase ino
      else acc.1.inodes.insert ino { st with locks := locks }
    (⟨kept⟩, acc.2 + (st.locks.length - locks.length))

/-- The table, and how many locks are released. -/
def releaseAllForOwner (ownerPid : ℕ) : PosixLockTable × ℕ :=
  (t.inodes.entries.map Prod.fst).foldl (releaseInode ownerPid) (t, 0)

end PosixLockTable

/-! ### Runs -/

/-- The calls that change the lock table. -/
inductive Call where
  | acquireLock (ino : ℕ) (entry : LockEntry) (blocking : Bool) (opaqueId : ℕ)
  | releaseLock (ino : ℕ) (range : LockRange) (ownerPid : ℕ)
  | releaseAllForOwner (ownerPid : ℕ)

def call (t : PosixLockTable) : Call → Option PosixLockTable
  | .acquireLock ino entry blocking opaqueId => (t.acquireLock ino entry blocking opaqueId).map Prod.fst
  | .releaseLock ino range ownerPid => some (t.releaseLock ino range ownerPid).1
  | .releaseAllForOwner ownerPid => some (t.releaseAllForOwner ownerPid).1

def run : PosixLockTable → List Call → Option PosixLockTable
  | t, [] => some t
  | t, c :: calls =>
    match call t c with
    | none => none
    | some t' => run t' calls

/-- No two locks conflict, and each parked request has a lock in its way. -/
structure Fine (st : InodeState) : Prop where
  exclusive : st.locks.Pairwise fun a b => a.blocks b = false
  waits : ∀ waiter ∈ st.waiters, ∃ existing ∈ st.locks, existing.blocks waiter.entry = true

def Safe (t : PosixLockTable) : Prop := ∀ ino st, t.inodes.get? ino = some st → Fine st

/-- The lock that a release takes away is the first of this kind. -/
def isReleased (range : LockRange) (ownerPid : ℕ) (e : LockEntry) : Bool :=
  e.ownerPid = ownerPid ∧ e.range.start = range.start ∧ e.range.stop = range.stop

/-- The parked requests that no other lock than the released one is in the way of. -/
def freed (t : PosixLockTable) (ino : ℕ) (range : LockRange) (ownerPid : ℕ) : List Waiter :=
  (t.state ino).waiters.filter fun waiter =>
    !(((t.state ino).locks.eraseP (isReleased range ownerPid)).any fun existing => existing.blocks waiter.entry)

/-- The requests that wait for nothing but the released lock do not conflict with each other; and each parked request
waits for another owner than the one that releases everything. -/
def Careful (t : PosixLockTable) : Call → Prop
  | .acquireLock _ _ _ _ => True
  | .releaseLock ino range ownerPid =>
    (freed t ino range ownerPid).Pairwise fun a b => a.entry.blocks b.entry = false
  | .releaseAllForOwner ownerPid => ∀ e ∈ t.inodes.entries, ∀ waiter ∈ e.2.waiters,
    ∃ existing ∈ e.2.locks, existing.ownerPid ≠ ownerPid ∧ existing.blocks waiter.entry = true

def CarefulRun : PosixLockTable → List Call → Prop
  | _, [] => True
  | t, c :: calls => Careful t c ∧ ∀ t' ∈ call t c, CarefulRun t' calls

instance (t : PosixLockTable) : ∀ c, Decidable (Careful t c)
  | .acquireLock _ _ _ _ => instDecidableTrue
  | .releaseLock ino range ownerPid => inferInstanceAs (Decidable ((freed t ino range ownerPid).Pairwise _))
  | .releaseAllForOwner ownerPid => inferInstanceAs (Decidable (∀ e ∈ t.inodes.entries, ∀ waiter ∈ e.2.waiters,
    ∃ existing ∈ e.2.locks, existing.ownerPid ≠ ownerPid ∧ existing.blocks waiter.entry = true))

instance : ∀ (t : PosixLockTable) (calls : List Call), Decidable (CarefulRun t calls)
  | _, [] => instDecidableTrue
  | t, c :: calls =>
    have : DecidablePred fun t' => CarefulRun t' calls := fun t' => instDecidableCarefulRun t' calls
    inferInstanceAs (Decidable (Careful t c ∧ ∀ t' ∈ call t c, CarefulRun t' calls))

/-! ### What a call keeps -/

namespace PosixLockTable

variable {t : PosixLockTable} {ino ownerPid : ℕ} {st : InodeState}

theorem get?_state (h : t.inodes.get? ino = some st) : t.state ino = st := by
  rw [state, h]
  rfl

theorem fine_state (h : Safe t) (ino : ℕ) : Fine (t.state ino) := by
  cases hget : t.inodes.get? ino with
  | none =>
    rw [state, hget]
    exact ⟨List.Pairwise.nil, by simp⟩
  | some st =>
    rw [get?_state hget]
    exact h ino st hget

theorem safe_insert (h : Safe t) (ino : ℕ) (hst : Fine st) : Safe ⟨t.inodes.insert ino st⟩ := by
  intro k st' hget
  rw [OrdMap.get?_insert] at hget
  split_ifs at hget with hk
  · obtain rfl := some.inj hget
    exact hst
  · exact h k st' hget

theorem safe_erase (h : Safe t) (ino : ℕ) : Safe ⟨t.inodes.erase ino⟩ := by
  intro k st hget
  rw [OrdMap.get?_erase] at hget
  split_ifs at hget
  exact h k st hget

theorem perm_sortByStart (locks : List LockEntry) : (sortByStart locks).Perm locks :=
  perm_insertionSort _ _

theorem blocks_symm {a b : LockEntry} (h : a.blocks b = false) : b.blocks a = false := by
  rw [LockEntry.blocks_comm]
  exact h

/-- A lock more, with none in its way. -/
theorem fine_locked (h : Fine st) {entry : LockEntry} (hfree : ∀ existing ∈ st.locks, existing.blocks entry = false) :
    Fine { st with locks := sortByStart (st.locks ++ [entry]) } := by
  have hperm : (sortByStart (st.locks ++ [entry])).Perm (entry :: st.locks) :=
    (perm_sortByStart _).trans (perm_append_singleton entry st.locks)
  constructor
  · apply (hperm.pairwise_iff blocks_symm).mpr
    apply pairwise_cons.mpr
    exact ⟨fun existing hmem => blocks_symm (hfree existing hmem), h.exclusive⟩
  · intro waiter hwaiter
    obtain ⟨existing, hmem, hblocks⟩ := h.waits waiter hwaiter
    exact ⟨existing, hperm.mem_iff.mpr (mem_cons_of_mem _ hmem), hblocks⟩

theorem acquireLock_safe (h : Safe t) (ino : ℕ) (entry : LockEntry) (blocking : Bool) (opaqueId : ℕ) :
    ∃ t' res, t.acquireLock ino entry blocking opaqueId = some (t', res) ∧ Safe t' := by
  have hst := fine_state h ino
  unfold acquireLock
  dsimp only
  split_ifs with hunlock hfree hblocking
  · exact ⟨t, .ok (), rfl, h⟩
  · refine ⟨_, .ok (), rfl, safe_insert h ino (fine_locked hst ?_)⟩
    simpa using hfree
  · exact ⟨t, .error .wouldBlock, rfl, h⟩
  · obtain ⟨deadlock, hdeadlock⟩ := t.wouldDeadlock_returns entry.ownerPid
      (((t.state ino).locks.filter fun existing => existing.blocks entry).map LockEntry.ownerPid)
    rw [hdeadlock]
    cases deadlock with
    | true => exact ⟨t, .error .deadlock, rfl, h⟩
    | false =>
      -- the request that is parked has a lock in its way
      have hblocked : ∃ existing ∈ (t.state ino).locks, existing.blocks entry = true := by
        simpa using hfree
      exact ⟨_, .ok (), rfl, safe_insert h ino ⟨hst.exclusive,
        forall_mem_append.mpr ⟨hst.waits, forall_mem_singleton.mpr hblocked⟩⟩⟩

/-- A merged lock is in the way of what either of the two was. -/
theorem mergeInto_blocks {last entry both : LockEntry} (h : mergeInto ownerPid last entry = some both)
    (x : LockEntry) : both.blocks x = true ↔ last.blocks x = true ∨ entry.blocks x = true := by
  unfold mergeInto at h
  split_ifs at h with howner hmerge
  obtain ⟨-, htype, hnext⟩ := hmerge
  obtain ⟨combined, hcombined, rfl⟩ := map_eq_some_iff.mp h
  simp only [LockEntry.blocks, Bool.and_eq_true, LockRange.overlaps_iff, LockRange.mergeWith_has hnext hcombined, htype]
  rw [← or_and_right]
  simp only [or_and_right, exists_or]

/-- Merging changes nothing for others. -/
theorem fine_merged {locks : List LockEntry} (h : locks.Pairwise fun a b => a.blocks b = false) :
    (coalesce (mergeInto ownerPid) (sortByStart locks)).Pairwise fun a b => a.blocks b = false := by
  apply pairwise_coalesce blocks_symm
  · intro a b both x hmerge ha hb
    have hblocks := mergeInto_blocks hmerge x
    rw [ha, hb] at hblocks
    simpa using hblocks
  · exact ((perm_sortByStart locks).pairwise_iff blocks_symm).mpr h

/-- The requests that are granted, one after the other. -/
theorem grant_spec (waiters : List Waiter) : ∀ {t : PosixLockTable} {st : InodeState}, t.inodes.get? ino = some st →
    ∃ locks, (waiters.foldl (fun t waiter => t.insertLock ino waiter.entry) t).inodes.get? ino =
        some { st with locks := locks } ∧ locks.Perm (waiters.map Waiter.entry ++ st.locks) ∧
      ∀ k, k ≠ ino → (waiters.foldl (fun t waiter => t.insertLock ino waiter.entry) t).inodes.get? k =
        t.inodes.get? k := by
  induction waiters with
  | nil => exact fun {t st} hget => ⟨st.locks, hget, List.Perm.refl _, fun _ _ => rfl⟩
  | cons waiter waiters ih =>
    intro t st hget
    have hinsert : (t.insertLock ino waiter.entry).inodes.get? ino =
        some { st with locks := sortByStart (st.locks ++ [waiter.entry]) } := by
      rw [insertLock, OrdMap.get?_insert, if_pos rfl, get?_state hget]
    obtain ⟨locks, hlocks, hperm, hrest⟩ := ih hinsert
    refine ⟨locks, hlocks, ?_, fun k hk => ?_⟩
    · calc
        List.Perm locks (waiters.map Waiter.entry ++ sortByStart (st.locks ++ [waiter.entry])) := hperm
        List.Perm _ (waiters.map Waiter.entry ++ waiter.entry :: st.locks) :=
          ((perm_sortByStart _).trans (perm_append_singleton _ _)).append_left _
        List.Perm _ (waiter.entry :: (waiters.map Waiter.entry ++ st.locks)) := perm_middle
    · rw [foldl_cons, hrest k hk, insertLock, OrdMap.get?_insert, if_neg hk]

/-- **What a release leaves**, where those it wakes do not conflict. -/
theorem drain_safe (h : ∀ k st', k ≠ ino → t.inodes.get? k = some st' → Fine st')
    (hget : t.inodes.get? ino = some st) (hexclusive : st.locks.Pairwise fun a b => a.blocks b = false)
    (hwoken : (t.drainSatisfiedWaiters ino).2.Pairwise fun a b => a.entry.blocks b.entry = false) :
    Safe (t.drainSatisfiedWaiters ino).1 := by
  unfold drainSatisfiedWaiters at hwoken ⊢
  rw [hget] at hwoken ⊢
  obtain ⟨locks, hlocks, hperm, hrest⟩ := grant_spec
    (st.waiters.filter fun waiter => !(st.locks.any fun existing => existing.blocks waiter.entry))
    (t := ⟨t.inodes.insert ino { st with
      waiters := st.waiters.filter fun waiter => st.locks.any fun existing => existing.blocks waiter.entry }⟩)
    (by rw [OrdMap.get?_insert, if_pos rfl])
  intro k st' hk
  by_cases hino : k = ino
  · subst hino
    obtain rfl := some.inj (hlocks.symm.trans hk)
    constructor
    · -- those granted against each other, and each against the locks that were there
      apply (hperm.pairwise_iff blocks_symm).mpr
      refine pairwise_append.mpr ⟨pairwise_map.mpr hwoken, hexclusive, ?_⟩
      intro entry hentry existing hexisting
      obtain ⟨waiter, hwaiter, rfl⟩ := mem_map.mp hentry
      have hfree := (mem_filter.mp hwaiter).2
      rw [Bool.not_eq_true', List.any_eq_false] at hfree
      exact blocks_symm (by simpa using hfree existing hexisting)
    · intro waiter hwaiter
      obtain ⟨existing, hmem, hblocks⟩ := any_eq_true.mp (mem_filter.mp hwaiter).2
      exact ⟨existing, hperm.mem_iff.mpr (mem_append_right _ hmem), hblocks⟩
  · rw [hrest k hino, OrdMap.get?_insert, if_neg hino] at hk
    exact h k st' hino hk

theorem gc_safe (h : Safe t) (ino : ℕ) : Safe (t.gc ino) := by
  unfold gc
  cases t.inodes.get? ino with
  | none => exact h
  | some st =>
    dsimp only
    split_ifs
    · exact safe_erase h ino
    · exact h

/-- A release fails and changes nothing, or takes one lock away, merges and wakes. -/
theorem releaseLock_cases (t : PosixLockTable) (ino : ℕ) (range : LockRange) (ownerPid : ℕ) :
    (∃ e, t.releaseLock ino range ownerPid = (t, .error e)) ∨ ∃ st drained, t.inodes.get? ino = some st ∧
        drained = (mergeAdjacent ⟨t.inodes.insert ino { st with locks := st.locks.eraseP (isReleased range ownerPid) }⟩ ino
          ownerPid).drainSatisfiedWaiters ino ∧
        t.releaseLock ino range ownerPid = (drained.1.gc ino, .ok drained.2) := by
  unfold releaseLock
  cases hget : t.inodes.get? ino with
  | none => exact Or.inl ⟨.notFound, rfl⟩
  | some st =>
    dsimp only
    split
    · exact Or.inl ⟨.notFound, rfl⟩
    next idx hidx =>
      have herase : st.locks.eraseP (isReleased range ownerPid) = st.locks.eraseIdx idx := by
        rw [eraseP_eq_eraseIdx]
        unfold isReleased
        rw [hidx]
      exact Or.inr ⟨st, _, rfl, by rw [herase], rfl⟩

/-- Merged locks are in the way of the same requests. -/
theorem any_blocks_merged (locks : List LockEntry) (x : LockEntry) :
    ((coalesce (mergeInto ownerPid) (sortByStart locks)).any fun e => e.blocks x) = locks.any fun e => e.blocks x := by
  rw [any_coalesce fun hmerge => Bool.eq_iff_iff.mpr ((mergeInto_blocks hmerge x).trans Bool.or_eq_true_iff.symm)]
  exact (perm_sortByStart locks).any_eq

theorem releaseLock_safe (h : Safe t) {range : LockRange}
    (hfreed : (freed t ino range ownerPid).Pairwise fun a b => a.entry.blocks b.entry = false) :
    Safe (t.releaseLock ino range ownerPid).1 := by
  rcases releaseLock_cases t ino range ownerPid with ⟨e, hres⟩ | ⟨st, drained, hget, hdrained, hres⟩
  · rw [hres]
    exact h
  · rw [hres]
    apply gc_safe
    rw [freed, get?_state hget] at hfreed
    have hexclusive : (st.locks.eraseP (isReleased range ownerPid)).Pairwise fun a b => a.blocks b = false :=
      (h ino st hget).exclusive.sublist eraseP_sublist
    generalize st.locks.eraseP (isReleased range ownerPid) = kept at hfreed hexclusive hdrained
    have hmerged : (mergeAdjacent ⟨t.inodes.insert ino { st with locks := kept }⟩ ino ownerPid).inodes.get? ino =
        some { st with locks := coalesce (mergeInto ownerPid) (sortByStart kept) } := by
      simp [mergeAdjacent, OrdMap.get?_insert]
    subst hdrained
    refine drain_safe (fun k st' hk hst' => ?_) hmerged (fine_merged hexclusive) ?_
    · have hold : t.inodes.get? k = some st' := by
        simpa [mergeAdjacent, OrdMap.get?_insert, hk] using hst'
      exact h k st' hold
    · -- those that are woken are those that the released lock alone was in the way of
      simp only [drainSatisfiedWaiters, hmerged, any_blocks_merged]
      exact hfreed

/-- Each parked request also waits for someone else. -/
def WaitsBeside (ownerPid : ℕ) (st : InodeState) : Prop :=
  Fine st ∧ ∀ waiter ∈ st.waiters, ∃ existing ∈ st.locks,
    existing.ownerPid ≠ ownerPid ∧ existing.blocks waiter.entry = true

theorem waitsBeside_filter (h : WaitsBeside ownerPid st) :
    WaitsBeside ownerPid { st with locks := st.locks.filter fun e => e.ownerPid ≠ ownerPid } := by
  have hwaits : ∀ waiter ∈ st.waiters, ∃ existing ∈ st.locks.filter fun e => e.ownerPid ≠ ownerPid,
      existing.ownerPid ≠ ownerPid ∧ existing.blocks waiter.entry = true := by
    intro waiter hwaiter
    obtain ⟨existing, hmem, hother, hblocks⟩ := h.2 waiter hwaiter
    exact ⟨existing, mem_filter.mpr ⟨hmem, by simpa using hother⟩, hother, hblocks⟩
  refine ⟨⟨h.1.exclusive.filter _, fun waiter hwaiter => ?_⟩, hwaits⟩
  obtain ⟨existing, hmem, -, hblocks⟩ := hwaits waiter hwaiter
  exact ⟨existing, hmem, hblocks⟩

theorem releaseInode_waits {acc : PosixLockTable × ℕ}
    (h : ∀ ino st, acc.1.inodes.get? ino = some st → WaitsBeside ownerPid st) (ino : ℕ) :
    ∀ k st, (releaseInode ownerPid acc ino).1.inodes.get? k = some st → WaitsBeside ownerPid st := by
  intro k st hk
  unfold releaseInode at hk
  cases hget : acc.1.inodes.get? ino with
  | none =>
    rw [hget] at hk
    exact h k st hk
  | some st' =>
    rw [hget] at hk
    dsimp only at hk
    split_ifs at hk with hempty
    · rw [OrdMap.get?_erase] at hk
      split_ifs at hk
      exact h k st hk
    · rw [OrdMap.get?_insert] at hk
      split_ifs at hk with hino
      · obtain rfl := some.inj hk
        exact waitsBeside_filter (h ino st' hget)
      · exact h k st hk

theorem releaseAllForOwner_safe (h : Safe t) (hcareful : Careful t (.releaseAllForOwner ownerPid)) :
    Safe (t.releaseAllForOwner ownerPid).1 := by
  have hloop : ∀ (inos : List ℕ) (acc : PosixLockTable × ℕ),
      (∀ ino st, acc.1.inodes.get? ino = some st → WaitsBeside ownerPid st) →
      ∀ ino st, (inos.foldl (releaseInode ownerPid) acc).1.inodes.get? ino = some st → WaitsBeside ownerPid st := by
    intro inos
    induction inos with
    | nil => exact fun acc hacc => hacc
    | cons ino inos ih => exact fun acc hacc => ih _ (releaseInode_waits hacc ino)
  intro ino st hst
  refine (hloop _ (t, 0) (fun k st' hget => ?_) ino st hst).1
  exact ⟨h k st' hget, hcareful (k, st') (OrdMap.get?_eq_some.mp hget)⟩

end PosixLockTable

open PosixLockTable

/-- **A careful call** returns and keeps the table safe. -/
theorem call_safe {t : PosixLockTable} (h : Safe t) : ∀ c, Careful t c → ∃ t', call t c = some t' ∧ Safe t'
  | .acquireLock ino entry blocking opaqueId, _ => by
    obtain ⟨t', res, hres, hsafe⟩ := acquireLock_safe h ino entry blocking opaqueId
    exact ⟨t', by rw [call, hres]; rfl, hsafe⟩
  | .releaseLock _ _ _, hcareful => ⟨_, rfl, releaseLock_safe h hcareful⟩
  | .releaseAllForOwner _, hcareful => ⟨_, rfl, releaseAllForOwner_safe h hcareful⟩

theorem run_safe (calls : List Call) : ∀ {t : PosixLockTable}, Safe t → CarefulRun t calls →
    ∃ t', run t calls = some t' ∧ Safe t' := by
  induction calls with
  | nil => exact fun {t} h _ => ⟨t, rfl, h⟩
  | cons c calls ih =>
    intro t h hrun
    obtain ⟨t', hcall, hsafe⟩ := call_safe h c hrun.1
    obtain ⟨t'', hrun', hsafe'⟩ := ih hsafe (hrun.2 t' hcall)
    exact ⟨t'', by rw [run, hcall]; exact hrun', hsafe'⟩

/-- **Locks exclude each other.** After any careful run no two locks of an inode overlap with one of them for writing,
and every parked request has a lock in its way. -/
theorem locks_exclude (calls : List Call) (hcareful : CarefulRun .new calls) : ∃ t, run .new calls = some t ∧ Safe t :=
  run_safe calls (fun ino st hget => by cases hget) hcareful

def firstTen (pid : ℕ) : LockEntry := ⟨⟨0, 10, by decide, by decide⟩, .write, pid⟩

/-- The owner of a lock, and others that wait for it. -/
def queue (pids : List ℕ) : List Call :=
  .acquireLock 1 (firstTen 1) false 0 :: pids.map fun pid => .acquireLock 1 (firstTen pid) true pid

/-- Five bytes for writing. -/
def fiveFrom (start pid : ℕ) (h : start ≤ 100) : LockEntry :=
  ⟨⟨start, 5, h.trans (by decide), by decide⟩, .write, pid⟩

/-- Owners 2 and 3 wait for the two halves of what owner 1 holds, and owner 6 waits for owner 5; owner 1 releases, and
then owner 2 everything. -/
def halves : List Call :=
  [.acquireLock 1 (firstTen 1) false 0, .acquireLock 1 (fiveFrom 20 5 (by decide)) false 0,
    .acquireLock 1 (fiveFrom 0 2 (by decide)) true 7, .acquireLock 1 (fiveFrom 5 3 (by decide)) true 8,
    .acquireLock 1 (fiveFrom 20 6 (by decide)) true 9, .releaseLock 1 (firstTen 1).range 1, .releaseAllForOwner 2]

theorem locks_exclude_halves : ∃ t, run .new halves = some t ∧ Safe t ∧
    t.state 1 = ⟨[fiveFrom 5 3 (by decide), fiveFrom 20 5 (by decide)], [⟨fiveFrom 20 6 (by decide), 9⟩]⟩ := by
  obtain ⟨t, hrun, hsafe⟩ := locks_exclude halves (by decide +kernel)
  have hstate : (run .new halves).map (fun t => t.state 1) =
      some ⟨[fiveFrom 5 3 (by decide), fiveFrom 20 5 (by decide)], [⟨fiveFrom 20 6 (by decide), 9⟩]⟩ := by
    decide +kernel
  rw [hrun] at hstate
  exact ⟨t, hrun, hsafe, some.inj hstate⟩

/-- Two requests for the same bytes are granted together; and a request is left parked on an
inode without locks. -/
theorem granted_together_or_never :
    (run .new (queue [2, 3] ++ [.releaseLock 1 (firstTen 1).range 1])).map (fun t => (t.state 1).locks) =
        some [firstTen 2, firstTen 3] ∧ (firstTen 2).blocks (firstTen 3) = true ∧
      (run .new (queue [2] ++ [.releaseAllForOwner 1])).map (fun t => t.state 1) = some ⟨[], [⟨firstTen 2, 2⟩]⟩ := by
  decide +kernel

end Tidefs.PosixLock
