/-
# The extent map with ids

`ExtentMap` wraps a polymorphic map and hands out extents by id. It keeps three accounts
of what is in use: the extents of the inner map, the ranges of the ids and the free
regions. Every call updates each of them by code of its own.

A punched range can cut an extent in two, which takes a new id. An extent that is held
when it is freed stays until the holds are gone and the deferred frees are drained.
-/
import Tidefs.Lib.Ranges
import Tidefs.ExtentMap.Polymorphic

namespace Tidefs.Userspace

open Word Btree Ordered Tidefs.ExtentMap Tidefs.ExtentMap.ExtentMapEntryV2

/-! ### Free regions -/

/-- Offset and length of what is free. -/
structure FreeSpaceTracker where
  regions : List (ℕ × ℕ)

namespace FreeSpaceTracker

def new : FreeSpaceTracker := ⟨[(0, u64Max)]⟩

def isFree (t : FreeSpaceTracker) (offset length : ℕ) : Bool :=
  let stop := satAdd offset length
  t.regions.any fun r => decide (r.1 ≤ offset) && decide (stop ≤ wrap64 (r.1 + r.2))

/-- The loop of `carve`: the first region that holds the range is cut. -/
def carveLoop (offset stop : ℕ) : List (ℕ × ℕ) → Option (List (ℕ × ℕ))
  | [] => none
  | r :: rs =>
    let freeEnd := wrap64 (r.1 + r.2)
    if r.1 ≤ offset ∧ stop ≤ freeEnd then
      some ((if r.1 < offset then [(r.1, offset - r.1)] else []) ++
        (if stop < freeEnd then [(stop, freeEnd - stop)] else []) ++ rs)
    else (carveLoop offset stop rs).map (r :: ·)

def carve (t : FreeSpaceTracker) (offset length : ℕ) : Outcome FreeSpaceTracker :=
  if length = 0 then .error .invalidRange
  else if u64Max < offset + length then .error .invalidRange
  else
    match carveLoop offset (offset + length) t.regions with
    | none => .error .notFound
    | some regions => .ok ⟨regions⟩

/-- The loop of `release`: the range grows by the regions it meets. -/
def releaseLoop : ℕ → ℕ → Bool → List (ℕ × ℕ) → List (ℕ × ℕ)
  | start, stop, inserted, [] => if inserted then [] else [(start, wrapSub stop start)]
  | start, stop, inserted, r :: rs =>
    let regEnd := wrap64 (r.1 + r.2)
    if regEnd < start then r :: releaseLoop start stop inserted rs
    else if stop < r.1 then
      (if inserted then [] else [(start, wrapSub stop start)]) ++ r :: releaseLoop start stop true rs
    else releaseLoop (min start r.1) (max stop regEnd) inserted rs

def release (t : FreeSpaceTracker) (offset length : ℕ) : FreeSpaceTracker :=
  if length = 0 then t else ⟨releaseLoop offset (wrap64 (offset + length)) false t.regions⟩

end FreeSpaceTracker

/-! ### The map -/

abbrev ExtentId := ℕ

def extentMapMaxRefcount : ℕ := 2 ^ 32 - 2

/-- The extent map of a file with the space it leaves. -/
structure ExtentMap where
  inner : PolymorphicExtentMap
  freeTracker : FreeSpaceTracker
  nextExtentId : ExtentId
  idToOffset : OrdMap ExtentId (ℕ × ℕ)
  refcounts : OrdMap ExtentId ℕ
  deferredFrees : OrdMap ExtentId ℕ
  /-- The ids handed out so far. The program keeps no such list. -/
  issued : List ExtentId

namespace ExtentMap

variable (P : Params)

def new : ExtentMap :=
  ⟨PolymorphicExtentMap.new P, FreeSpaceTracker.new, 1, OrdMap.empty, OrdMap.empty, OrdMap.empty, []⟩

variable (s : ExtentMap)

/-- The next id goes to the range. -/
def issue (range : ℕ × ℕ) : ExtentMap :=
  { s with
    nextExtentId := wrap64 (s.nextExtentId + 1)
    idToOffset := s.idToOffset.insert s.nextExtentId range
    refcounts := s.refcounts.insert s.nextExtentId 1
    issued := s.nextExtentId :: s.issued }

variable (extentId : ExtentId)

/-- The id is dropped from all tables. -/
def forget : ExtentMap :=
  { s with
    idToOffset := s.idToOffset.erase extentId
    refcounts := s.refcounts.erase extentId
    deferredFrees := s.deferredFrees.erase extentId }

def setRange (range : ℕ × ℕ) : ExtentMap :=
  { s with idToOffset := s.idToOffset.insert extentId range }

def allocate (offset length : ℕ) : Option (ExtentMap × Outcome ExtentId) :=
  if length = 0 then some (s, .error .invalidRange)
  else if !s.freeTracker.isFree offset length then some (s, .error .notFound)
  else
    (s.inner.step P (.insertExtent [newUnwritten offset length 0])).map fun (inner, r) =>
      match r with
      | .error e => ({ s with inner }, .error e)
      | .ok _ =>
        let extentId := s.nextExtentId
        let s := ({ s with inner } : ExtentMap).issue (offset, length)
        match s.freeTracker.carve offset length with
        | .error e => (s, .error e)
        | .ok freeTracker => ({ s with freeTracker }, .ok extentId)

/-- What becomes of an extent that the punched range meets. -/
def punchId (offset stop : ℕ) (s : ExtentMap) (affected : ExtentId × (ℕ × ℕ)) : ExtentMap :=
  let eid := affected.1
  let eOff := affected.2.1
  let eEnd := wrap64 (affected.2.1 + affected.2.2)
  if offset ≤ eOff ∧ eEnd ≤ stop then s.forget eid
  else if offset ≤ eOff then s.setRange eid (stop, eEnd - stop)
  else if eEnd ≤ stop then s.setRange eid (eOff, offset - eOff)
  else (s.setRange eid (eOff, offset - eOff)).issue (stop, eEnd - stop)

def punchRange (offset length : ℕ) : Option (ExtentMap × Outcome Unit) :=
  if u64Max < offset + length then some (s, .error .invalidRange)
  else
    let stop := offset + length
    let affected := s.idToOffset.entries.filter fun a =>
      decide (a.2.1 < stop) && decide (offset < wrap64 (a.2.1 + a.2.2))
    (s.inner.step P (.punchHole offset length)).map fun (inner, r) =>
      match r with
      | .error e => ({ s with inner }, .error e)
      | .ok _ =>
        let s := affected.foldl (punchId offset stop) { s with inner }
        ({ s with freeTracker := s.freeTracker.release offset length }, .ok ())

def extentHold : ExtentMap × Outcome Unit :=
  match s.refcounts.get? extentId with
  | none => (s, .error .notFound)
  | some rc =>
    if extentMapMaxRefcount ≤ rc then (s, .error .refCountOverflow)
    else ({ s with refcounts := s.refcounts.insert extentId (rc + 1) }, .ok ())

/-- Whether the count is zero afterwards. -/
def extentRelease : ExtentMap × Outcome Bool :=
  match s.refcounts.get? extentId with
  | none => (s, .error .notFound)
  | some 0 => (s, .ok true)
  | some (rc + 1) => ({ s with refcounts := s.refcounts.insert extentId rc }, .ok (rc == 0))

/-- The hole of `free` and of the drain, in the map and in the free regions. -/
def punchOut (range : ℕ × ℕ) : Option (ExtentMap × Outcome Unit) :=
  (s.inner.step P (.punchHole range.1 range.2)).map fun (inner, r) =>
    match r with
    | .error e => ({ s with inner }, .error e)
    | .ok _ => ({ s with inner, freeTracker := s.freeTracker.release range.1 range.2 }, .ok ())

def free : Option (ExtentMap × Outcome Unit) :=
  match s.idToOffset.get? extentId with
  | none => some (s, .error .notFound)
  | some range =>
    match s.extentRelease extentId with
    | (s, .error e) => some (s, .error e)
    | (s, .ok false) =>
      some ({ s with deferredFrees :=
        if s.deferredFrees.contains extentId then s.deferredFrees else s.deferredFrees.insert extentId 0 }, .ok ())
    | (s, .ok true) => (s.forget extentId).punchOut P range

/-- One turn of the loop of `drain_deferred_frees`; the number of freed extents grows. -/
def drainId (s : ExtentMap) (freedCount : ℕ) : Option (ExtentMap × ℕ) :=
  if (s.refcounts.get? extentId).getD 0 = 0 then
    match s.idToOffset.get? extentId with
    | none => some (s, freedCount)
    | some range =>
      ((s.forget extentId).punchOut P range).map fun
        | (s, .error _) => (s, freedCount)
        | (s, .ok ()) => (s, freedCount + 1)
  else some ({ s with deferredFrees := s.deferredFrees.erase extentId }, freedCount)

def drainLoop : List ExtentId → ExtentMap → ℕ → Option (ExtentMap × ℕ)
  | [], s, freedCount => some (s, freedCount)
  | extentId :: ids, s, freedCount => (drainId P extentId s freedCount).bind fun r => drainLoop ids r.1 r.2

def drainDeferredFrees (closedCommitGroup : ℕ) : Option (ExtentMap × ℕ) :=
  let candidateIds := (s.deferredFrees.entries.filter fun a => decide (a.2 ≤ closedCommitGroup)).map Prod.fst
  drainLoop P candidateIds s 0

/-- The loop of `refresh`: every range is carved once, and what goes wrong is ignored. -/
def refreshLoop : List (ℕ × ℕ) → FreeSpaceTracker → List (ℕ × ℕ) → FreeSpaceTracker
  | [], t, _ => t
  | r :: ranges, t, carved =>
    if r ∈ carved then refreshLoop ranges t carved
    else
      match t.carve r.1 r.2 with
      | .ok t' => refreshLoop ranges t' (r :: carved)
      | .error _ => refreshLoop ranges t (r :: carved)

def refresh : ExtentMap :=
  { s with freeTracker := refreshLoop (s.idToOffset.entries.map Prod.snd) FreeSpaceTracker.new [] }

/-! ### Runs -/

/-- The calls that change the extents or the free space. -/
inductive Call where
  | allocate (offset length : ℕ)
  | punchRange (offset length : ℕ)
  | free (extentId : ExtentId)
  | extentHold (extentId : ExtentId)
  | extentRelease (extentId : ExtentId)
  | drainDeferredFrees (closedCommitGroup : ℕ)
  | refresh

/-- The map after a call, whatever the call returns. -/
def call : Call → Option ExtentMap
  | .allocate offset length => (s.allocate P offset length).map Prod.fst
  | .punchRange offset length => (s.punchRange P offset length).map Prod.fst
  | .free extentId => (s.free P extentId).map Prod.fst
  | .extentHold extentId => some (s.extentHold extentId).1
  | .extentRelease extentId => some (s.extentRelease extentId).1
  | .drainDeferredFrees closedCommitGroup => (s.drainDeferredFrees P closedCommitGroup).map Prod.fst
  | .refresh => some s.refresh

def run (calls : List Call) : Option ExtentMap := calls.foldlM (call P) s

end ExtentMap

end Tidefs.Userspace
