/-
# The locator table of an inode

Two regions of slots with open addressing: the primary one by logical offset, the
secondary one by extent. Both have the same number of slots and the same entries. A change
is made on a copy of the cached slots, which is written out and then becomes the cache.

The loops that go once around a region stop after a turn for each slot. Those that rely on a
free slot or on an entry to be there have no such stop; in the model they give `none` if they
have not ended by then.
-/
import Tidefs.Locator.Blob
import Tidefs.Lib.Probing

namespace Tidefs.Locator

open Probing Option

def defaultCapacity : ℕ := 16

def maxLoadNum : ℕ := 7

def maxLoadDen : ℕ := 10

/-- The errors of the locator table. -/
inductive LocatorError where
  | notFound
  | wouldGrow (capacity : ℕ)
  | store (message : String)
  | corrupt
  | extentPinned
  | invalidArgument
deriving DecidableEq

structure InodeSlots where
  primary : List LocatorEntry
  secondary : List LocatorEntry
deriving DecidableEq

def emptySlots (capacity : ℕ) : InodeSlots := ⟨List.replicate capacity .empty, List.replicate capacity .empty⟩

def hashOffset (offset : U64) (capacity : ℕ) : ℕ := offset.val % capacity

def hashExtent (eid : U64) (capacity : ℕ) : ℕ := eid.val % capacity

/-- A slot that can take an entry. -/
def LocatorEntry.isFree (e : LocatorEntry) : Bool := e.isEmpty || e.isTombstone

def LocatorEntry.hasExtent (e : LocatorEntry) (eid : U64) : Bool := e.isLive && e.extentId == eid

/-! ### The secondary region -/

def secondaryInsert (secondary : List LocatorEntry) (entry : LocatorEntry) : Option (List LocatorEntry) :=
  (probe secondary (fun slot => slot.isFree || slot.hasExtent entry.extentId) secondary.length
    (hashExtent entry.extentId secondary.length)).map fun idx => secondary.set idx entry

/-- The slot at which a search for an extent ends. -/
def findExtent (secondary : List LocatorEntry) (eid : U64) : Option (ℕ × LocatorEntry) :=
  match probe secondary (fun slot => slot.isEmpty || slot.hasExtent eid) secondary.length
      (hashExtent eid secondary.length) with
  | none => none
  | some idx => (secondary[idx]?).bind fun slot => if slot.isEmpty then none else some (idx, slot)

def secondaryRemove (secondary : List LocatorEntry) (eid : U64) : List LocatorEntry :=
  match findExtent secondary eid with
  | none => secondary
  | some (idx, _) => secondary.set idx .tombstone

/-! ### Operations on the slots -/

namespace InodeSlots

variable (slots : InodeSlots)

/-- The slot at which a search for an offset ends. -/
def findOffset (logicalOffset : U64) : Option (ℕ × LocatorEntry) :=
  match probe slots.primary (fun slot => slot.logicalOffset == logicalOffset || slot.isEmpty) slots.primary.length
      (hashOffset logicalOffset slots.primary.length) with
  | none => none
  | some idx =>
    (slots.primary[idx]?).bind fun slot => if slot.logicalOffset = logicalOffset then some (idx, slot) else none

def lookup (logicalOffset : U64) : Option LocatorEntry :=
  (slots.findOffset logicalOffset).map Prod.snd

def lookupExtent (extentId : U64) : Option LocatorEntry :=
  (findExtent slots.secondary extentId).map Prod.snd

def iterate : List LocatorEntry := slots.primary.filter (·.isLive)

/-- The loop of an insertion goes all around: the slot with the offset, and the first free slot before it. -/
def insertProbe (primary : List LocatorEntry) (logicalOffset : U64) : ℕ → ℕ → Option ℕ →
    Option (ℕ × LocatorEntry) × Option ℕ
  | 0, _, target => (none, target)
  | left + 1, idx, target =>
    match primary[idx]? with
    | none => (none, target)
    | some slot =>
      if slot.logicalOffset = logicalOffset then (some (idx, slot), target)
      else
        insertProbe primary logicalOffset left ((idx + 1) % primary.length)
          (if target.isNone && slot.isFree then some idx else target)

def insert (entry : LocatorEntry) : Option (Except LocatorError InodeSlots) :=
  let capacity := slots.primary.length
  match insertProbe slots.primary entry.logicalOffset capacity (hashOffset entry.logicalOffset capacity) none with
  | (some (idx, slot), _) => do
    let secondary ← secondaryInsert (secondaryRemove slots.secondary slot.extentId) entry
    some (.ok ⟨slots.primary.set idx entry, secondary⟩)
  | (none, none) => some (.error (.wouldGrow capacity))
  | (none, some target) =>
    let liveBefore := slots.iterate.length
    if capacity * maxLoadNum < (liveBefore + 1) * maxLoadDen then some (.error (.wouldGrow capacity))
    else do
      let secondary ← secondaryInsert slots.secondary entry
      some (.ok ⟨slots.primary.set target entry, secondary⟩)

def remove (logicalOffset : U64) : Option (Except LocatorError InodeSlots) :=
  match slots.findOffset logicalOffset with
  | none => some (.error .notFound)
  | some (idx, slot) =>
    some (.ok ⟨slots.primary.set idx .tombstone, secondaryRemove slots.secondary slot.extentId⟩)

/-- An entry goes into the first free slot of a region. -/
def place (region : List LocatorEntry) (start : ℕ) (entry : LocatorEntry) : Option (List LocatorEntry) :=
  (probe region (·.isFree) region.length start).map fun idx => region.set idx entry

/-- The entries are placed in both regions, one after the other; `full` is what becomes of it if the primary region is
full. -/
def rehash (full : Option (Except LocatorError InodeSlots)) : List LocatorEntry → InodeSlots →
    Option (Except LocatorError InodeSlots)
  | [], slots => some (.ok slots)
  | entry :: rest, slots =>
    match place slots.primary (hashOffset entry.logicalOffset slots.primary.length) entry with
    | none => full
    | some primary =>
      match place slots.secondary (hashExtent entry.extentId slots.secondary.length) entry with
      | none => none
      | some secondary => rehash full rest ⟨primary, secondary⟩

def grow (newCapacity : ℕ) : Option (Except LocatorError InodeSlots) :=
  let live := slots.iterate
  if live.isEmpty then some (.ok (emptySlots newCapacity))
  else if newCapacity * maxLoadNum ≤ live.length * maxLoadDen then some (.error .invalidArgument)
  else rehash (some (.error (.wouldGrow newCapacity))) live (emptySlots newCapacity)

/-- The capacity is doubled until the entries fit. -/
def fitCapacity (live : ℕ) : ℕ → ℕ → ℕ
  | 0, capacity => capacity
  | left + 1, capacity =>
    if capacity * maxLoadNum < live * maxLoadDen then fitCapacity live left (capacity * 2) else capacity

/-- As many doublings as entries are enough. -/
def compactCapacity (live : ℕ) : ℕ := fitCapacity live live defaultCapacity

def compact : Option (Except LocatorError InodeSlots) :=
  let live := slots.iterate
  if live.isEmpty then some (.ok (emptySlots defaultCapacity))
  else rehash none live (emptySlots (compactCapacity live.length))

def relocateExtent (extentId newDeviceId newPhysicalOffset : U64) (pinned : Bool) :
    Option (Except LocatorError InodeSlots) :=
  match findExtent slots.secondary extentId with
  | none => some (.error .notFound)
  | some (sIdx, slot) =>
    if pinned then some (.error .extentPinned)
    else
      let updated := { slot with deviceId := newDeviceId, physicalOffset := newPhysicalOffset }
      match probe slots.primary (·.hasExtent extentId) slots.primary.length
          (hashOffset slot.logicalOffset slots.primary.length) with
      | none => none
      | some pIdx => some (.ok ⟨slots.primary.set pIdx updated, slots.secondary.set sIdx updated⟩)

end InodeSlots

/-! ### The table -/

/-- The cached slots of the inode, and its blob in the object store. -/
structure Table where
  cache : Option InodeSlots
  blob : Option (List UInt8)

/-- What the object store answers to a read and to a write, if it fails. -/
structure Faults where
  getError : Option String
  putError : Option String

namespace Table

def new : Table := ⟨none, none⟩

variable (t : Table)

def loadSlots (faults : Faults) : Except LocatorError InodeSlots :=
  match faults.getError with
  | some message => .error (.store message)
  | none =>
    match t.blob with
    | none => .ok (emptySlots defaultCapacity)
    | some data =>
      match deserializeBlob data with
      | some (primary, secondary) => .ok ⟨primary, secondary⟩
      | none => .error .corrupt

def getSlots (faults : Faults) : Except LocatorError InodeSlots × Table :=
  match t.cache with
  | some cached => (.ok cached, t)
  | none =>
    match t.loadSlots faults with
    | .ok loaded => (.ok loaded, { t with cache := some loaded })
    | .error e => (.error e, t)

/-- The slots are written out, and cached only then. -/
def putSlots (slots : InodeSlots) (faults : Faults) : Except LocatorError Unit × Table :=
  match faults.putError with
  | some message => (.error (.store message), t)
  | none => (.ok (), ⟨some slots, some (serializeBlob slots.primary slots.secondary)⟩)

/-- A question to the slots. -/
def query {α : Type} (t : Table) (faults : Faults) (answer : InodeSlots → α) : Except LocatorError α × Table :=
  match t.getSlots faults with
  | (.ok slots, t) => (.ok (answer slots), t)
  | (.error e, t) => (.error e, t)

def update (faults : Faults) (change : InodeSlots → Option (Except LocatorError InodeSlots)) :
    Option (Except LocatorError Unit × Table) :=
  match t.getSlots faults with
  | (.error e, t) => some (.error e, t)
  | (.ok slots, t) =>
    match change slots with
    | none => none
    | some (.error e) => some (.error e, t)
    | some (.ok slots) => some (t.putSlots slots faults)

def lookup (logicalOffset : U64) (faults : Faults) : Except LocatorError (Option LocatorEntry) × Table :=
  if tombstoneSentinel ≤ logicalOffset then (.error .invalidArgument, t)
  else t.query faults (·.lookup logicalOffset)

def lookupExtent (extentId : U64) (faults : Faults) : Except LocatorError (Option LocatorEntry) × Table :=
  t.query faults (·.lookupExtent extentId)

def iterate (faults : Faults) : Except LocatorError (List LocatorEntry) × Table :=
  t.query faults (·.iterate)

def insert (entry : LocatorEntry) (faults : Faults) : Option (Except LocatorError Unit × Table) :=
  if tombstoneSentinel ≤ entry.logicalOffset then some (.error .invalidArgument, t)
  else t.update faults (·.insert entry)

def remove (logicalOffset : U64) (faults : Faults) : Option (Except LocatorError Unit × Table) :=
  if tombstoneSentinel ≤ logicalOffset then some (.error .invalidArgument, t)
  else t.update faults (·.remove logicalOffset)

def grow (newCapacity : ℕ) (faults : Faults) : Option (Except LocatorError Unit × Table) :=
  if newCapacity < defaultCapacity then some (.error .invalidArgument, t)
  else t.update faults (·.grow newCapacity)

/-- `compact`, and `swap_commit` of its plan. -/
def compactAndSwap (faults : Faults) : Option (Except LocatorError Unit × Table) :=
  t.update faults (·.compact)

def relocateExtent (extentId newDeviceId newPhysicalOffset : U64) (pinned : Bool) (faults : Faults) :
    Option (Except LocatorError Unit × Table) :=
  t.update faults (·.relocateExtent extentId newDeviceId newPhysicalOffset pinned)

/-- The cache is dropped; the next call reads the blob. -/
def reload : Table := { t with cache := none }

end Table

/-! ### The loops -/

namespace InodeSlots

/-- The loop of an insertion finds what a search for the offset alone finds, -/
theorem insertProbe_found (primary : List LocatorEntry) (logicalOffset : U64) : ∀ (left idx : ℕ) (target : Option ℕ),
    (insertProbe primary logicalOffset left idx target).1 =
      (probe primary (fun slot => slot.logicalOffset == logicalOffset) left idx).bind fun i =>
        (primary[i]?).map fun slot => (i, slot)
  | 0, _, _ => rfl
  | left + 1, idx, target => by
    rw [insertProbe, probe]
    cases hslot : primary[idx]? with
    | none => rfl
    | some slot =>
      dsimp only
      by_cases hoffset : slot.logicalOffset = logicalOffset
      · rw [if_pos hoffset, if_pos (beq_iff_eq.mpr hoffset), bind_some, hslot]
        rfl
      · have hne : ¬ (slot.logicalOffset == logicalOffset) = true := by simpa using hoffset
        rw [if_neg hoffset, if_neg hne]
        exact insertProbe_found primary logicalOffset left _ _

/-- and otherwise the first free slot. -/
theorem insertProbe_target (primary : List LocatorEntry) (logicalOffset : U64) : ∀ (left idx : ℕ) (target : Option ℕ),
    probe primary (fun slot => slot.logicalOffset == logicalOffset) left idx = none →
    (insertProbe primary logicalOffset left idx target).2 = target.or (probe primary (·.isFree) left idx)
  | 0, _, target, _ => (or_none).symm
  | left + 1, idx, target, hnone => by
    rw [insertProbe, probe]
    rw [probe] at hnone
    cases hslot : primary[idx]? with
    | none => exact (or_none).symm
    | some slot =>
      rw [hslot] at hnone
      dsimp only at hnone ⊢
      by_cases hoffset : slot.logicalOffset = logicalOffset
      · rw [if_pos (beq_iff_eq.mpr hoffset)] at hnone
        cases hnone
      · rw [if_neg (by simpa using hoffset)] at hnone
        rw [if_neg hoffset, insertProbe_target primary logicalOffset left _ _ hnone]
        cases target with
        | some i => rfl
        | none =>
          cases hfree : slot.isFree with
          | true => rfl
          | false => rfl

theorem fitCapacity_cases (live : ℕ) : ∀ left capacity : ℕ, capacity ≤ fitCapacity live left capacity ∧
    (live * maxLoadDen ≤ fitCapacity live left capacity * maxLoadNum ∨
      fitCapacity live left capacity = capacity * 2 ^ left)
  | 0, capacity => ⟨le_rfl, Or.inr (by rw [fitCapacity, pow_zero, mul_one])⟩
  | left + 1, capacity => by
    rw [fitCapacity]
    split_ifs with hfull
    · obtain ⟨hle, hfits⟩ := fitCapacity_cases live left (capacity * 2)
      refine ⟨(Nat.le_mul_of_pos_right capacity (by decide)).trans hle, hfits.imp_right fun h => ?_⟩
      rw [h, pow_succ', mul_assoc]
    · exact ⟨le_rfl, Or.inl (not_lt.mp hfull)⟩

/-- **The entries fit into the capacity of a compaction.** -/
theorem compactCapacity_fits (live : ℕ) : live * maxLoadDen ≤ compactCapacity live * maxLoadNum := by
  rcases (fitCapacity_cases live live defaultCapacity).2 with h | h
  · exact h
  · rw [compactCapacity, h]
    have hpow : live < 2 ^ live := Nat.lt_two_pow_self
    simp only [maxLoadDen, maxLoadNum, defaultCapacity]
    omega

theorem defaultCapacity_le (live : ℕ) : defaultCapacity ≤ compactCapacity live :=
  (fitCapacity_cases live live defaultCapacity).1

/-- A capacity that is a power of two and large enough is not passed. -/
theorem fitCapacity_le (live limit : ℕ) (hlimit : live * maxLoadDen ≤ 2 ^ limit * maxLoadNum) : ∀ {left i : ℕ},
    i ≤ limit → fitCapacity live left (2 ^ i) ≤ 2 ^ limit
  | 0, i, hi => Nat.pow_le_pow_right (by decide) hi
  | left + 1, i, hi => by
    rw [fitCapacity]
    split_ifs with hfull
    · rw [← pow_succ]
      refine fitCapacity_le live limit hlimit (Nat.lt_of_le_of_ne hi ?_)
      rintro rfl
      exact absurd hfull (not_lt.mpr hlimit)
    · exact Nat.pow_le_pow_right (by decide) hi

end InodeSlots

end Tidefs.Locator
