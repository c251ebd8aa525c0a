/-
# The locator table is a finite map

What a locator table is for: a map from logical offsets to entries, with a number of slots
that says how many it takes (`Spec`). The calls on the table give the results of the calls
on the map and keep the slots in step with it, as long as no two offsets carry one extent
(`step_sim`). So a lookup answers from the map, a reverse lookup from its entries, a walk
lists them, and a call that fails leaves everything as it was (`table_is_map`).

The slots of a table that is not cached are those of its blob, which reads back.
-/
import Tidefs.Locator.Regions
import Tidefs.Lib.Ordered

namespace Tidefs.Locator

open Ordered Probing List Option OrdMap InodeSlots

/-! ### The map -/

abbrev LocatorMap := OrdMap U64 LocatorEntry

def values (m : LocatorMap) : List LocatorEntry := m.entries.map Prod.snd

def byExtent (m : LocatorMap) (extentId : U64) : Option LocatorEntry :=
  (values m).find? fun e => e.extentId = extentId

/-- No two offsets carry one extent. -/
def Distinct (m : LocatorMap) : Prop :=
  ∀ o o' e e', m.get? o = some e → m.get? o' = some e' → e.extentId = e'.extentId → o = o'

/-- The map, the number of slots, and whether the slots are in the cache. -/
structure Spec where
  map : LocatorMap
  capacity : ℕ
  cached : Bool

/-- Vectors of more slots than this cannot be allocated. -/
abbrev SlotCount := Fin (2 ^ 57 + 1)

/-- The calls on one inode, with the faults of the store met on the way. -/
inductive Op where
  | insert (entry : LocatorEntry) (faults : Faults)
  | remove (logicalOffset : U64) (faults : Faults)
  | grow (newCapacity : SlotCount) (faults : Faults)
  | relocateExtent (extentId newDeviceId newPhysicalOffset : U64) (pinned : Bool) (faults : Faults)
  | compactAndSwap (faults : Faults)
  | reload

namespace Spec

def new : Spec := ⟨.empty, defaultCapacity, false⟩

variable (s : Spec)

/-- The store is read if the slots are not cached. -/
def readError (faults : Faults) : Option String := if s.cached then none else faults.getError

/-- A change of the map and the number of slots, if the store and the call itself do not fail. -/
def update (faults : Faults) (change : Except LocatorError (LocatorMap × ℕ)) : Except LocatorError Unit × Spec :=
  match s.readError faults with
  | some message => (.error (.store message), s)
  | none =>
    match change with
    | .error e => (.error e, { s with cached := true })
    | .ok (map, capacity) =>
      match faults.putError with
      | some message => (.error (.store message), { s with cached := true })
      | none => (.ok (), ⟨map, capacity, true⟩)

/-- A new offset needs room for one more entry. -/
def insertion (entry : LocatorEntry) : Except LocatorError (LocatorMap × ℕ) :=
  if s.map.get? entry.logicalOffset = none ∧ 7 * s.capacity < 10 * (s.map.entries.length + 1) then
    .error (.wouldGrow s.capacity)
  else .ok (s.map.insert entry.logicalOffset entry, s.capacity)

def removal (logicalOffset : U64) : Except LocatorError (LocatorMap × ℕ) :=
  if s.map.get? logicalOffset = none then .error .notFound else .ok (s.map.erase logicalOffset, s.capacity)

def growth (newCapacity : ℕ) : Except LocatorError (LocatorMap × ℕ) :=
  if s.map.entries.length ≠ 0 ∧ 7 * newCapacity ≤ 10 * s.map.entries.length then .error .invalidArgument
  else .ok (s.map, newCapacity)

def compaction : Except LocatorError (LocatorMap × ℕ) :=
  .ok (s.map, InodeSlots.compactCapacity s.map.entries.length)

def relocation (extentId newDeviceId newPhysicalOffset : U64) (pinned : Bool) : Except LocatorError (LocatorMap × ℕ) :=
  match byExtent s.map extentId with
  | none => .error .notFound
  | some e =>
    if pinned then .error .extentPinned
    else
      .ok (s.map.insert e.logicalOffset { e with deviceId := newDeviceId, physicalOffset := newPhysicalOffset },
        s.capacity)

/-- The calls on the map. -/
def step : Op → Except LocatorError Unit × Spec
  | .insert entry faults =>
    if tombstoneSentinel ≤ entry.logicalOffset then (.error .invalidArgument, s)
    else s.update faults (s.insertion entry)
  | .remove logicalOffset faults =>
    if tombstoneSentinel ≤ logicalOffset then (.error .invalidArgument, s)
    else s.update faults (s.removal logicalOffset)
  | .grow newCapacity faults =>
    if newCapacity.val < defaultCapacity then (.error .invalidArgument, s)
    else s.update faults (s.growth newCapacity)
  | .relocateExtent extentId newDeviceId newPhysicalOffset pinned faults =>
    s.update faults (s.relocation extentId newDeviceId newPhysicalOffset pinned)
  | .compactAndSwap faults => s.update faults s.compaction
  | .reload => (.ok (), { s with cached := false })

/-- The results of a run, and the map after it. -/
def run : Spec → List Op → List (Except LocatorError Unit) × Spec
  | s, [] => ([], s)
  | s, op :: ops => ((s.step op).1 :: (run (s.step op).2 ops).1, (run (s.step op).2 ops).2)

end Spec

/-- The calls on the table. -/
def Table.step (t : Table) : Op → Option (Except LocatorError Unit × Table)
  | .insert entry faults => t.insert entry faults
  | .remove logicalOffset faults => t.remove logicalOffset faults
  | .grow newCapacity faults => t.grow newCapacity faults
  | .relocateExtent extentId newDeviceId newPhysicalOffset pinned faults =>
    t.relocateExtent extentId newDeviceId newPhysicalOffset pinned faults
  | .compactAndSwap faults => t.compactAndSwap faults
  | .reload => some (.ok (), t.reload)

def Table.run : Table → List Op → Option (List (Except LocatorError Unit) × Table)
  | t, [] => some ([], t)
  | t, op :: ops =>
    match t.step op with
    | none => none
    | some (result, t) => (t.run ops).map fun r => (result :: r.1, r.2)

/-- At no time do two offsets carry one extent. -/
def DistinctRun : Spec → List Op → Prop
  | _, [] => True
  | s, op :: ops => Distinct (s.step op).2.map ∧ DistinctRun (s.step op).2 ops

/-! ### Slots for a map -/

/-- Slots that hold the entries of a map, with the room the map needs. -/
structure Good (m : LocatorMap) (cap : ℕ) (slots : InodeSlots) : Prop where
  least : defaultCapacity ≤ cap
  most : cap ≤ 2 ^ 57
  keys : ∀ k e, m.get? k = some e → e.logicalOffset = k
  placed : Placed cap (fun e => m.get? e.logicalOffset = some e) slots
  load : 10 * m.entries.length ≤ 7 * cap

namespace Good

variable {m : LocatorMap} {cap : ℕ} {slots : InodeSlots} (hg : Good m cap slots)
include hg

theorem pos : 0 < cap := lt_of_lt_of_le (by decide) hg.least

theorem mem_values {e : LocatorEntry} : e ∈ values m ↔ m.get? e.logicalOffset = some e := by
  rw [values, List.mem_map]
  constructor
  · rintro ⟨⟨k, e'⟩, hmem, rfl⟩
    have hget := OrdMap.get?_eq_some.mpr hmem
    rw [hg.keys k e' hget]
    exact hget
  · intro hget
    exact ⟨(e.logicalOffset, e), OrdMap.get?_eq_some.mp hget, rfl⟩

theorem nodup_values : (values m).Nodup := by
  refine List.Nodup.map_on ?_ (List.Nodup.of_map _ m.keys_nodup)
  rintro ⟨k, e⟩ hk ⟨k', e'⟩ hk' heq
  obtain rfl : e = e' := heq
  rw [← hg.keys k e (get?_eq_some.mpr hk), ← hg.keys k' e (get?_eq_some.mpr hk')]

/-- **A walk lists the entries of the map.** -/
theorem perm_iterate : slots.iterate.Perm (values m) :=
  hg.placed.primary.perm hg.nodup_values fun _ => hg.mem_values

theorem length_iterate : slots.iterate.length = m.entries.length := by
  rw [hg.perm_iterate.length_eq, values, length_map]

theorem get?_eq_none {offset : U64}
    (hnone : ∀ e : LocatorEntry, m.get? e.logicalOffset = some e → e.logicalOffset ≠ offset) : m.get? offset = none := by
  by_contra hsome
  obtain ⟨e, hget⟩ := ne_none_iff_exists'.mp hsome
  have hoffset := hg.keys offset e hget
  exact hnone e (hoffset.symm ▸ hget) hoffset

/-- **A lookup answers from the map.** -/
theorem lookup {offset : U64} (hvalid : offset < tombstoneSentinel) :
    slots.lookup offset = m.get? offset := by
  rcases hg.placed.primary.find hg.pos hvalid with ⟨idx, e, hfind, -, he, hoffset⟩ | ⟨hfind, hnone⟩
  · rw [InodeSlots.lookup, hfind, ← hoffset, he]
    rfl
  · rw [InodeSlots.lookup, hfind, hg.get?_eq_none hnone]
    rfl

theorem byExtent_eq_some {eid : U64} {e : LocatorEntry} :
    byExtent m eid = some e ↔ m.get? e.logicalOffset = some e ∧ e.extentId = eid := by
  have hextent : ∀ e', byExtent m eid = some e' → e'.extentId = eid := by
    intro e' hfind
    simpa using find?_some hfind
  constructor
  · intro hfind
    exact ⟨hg.mem_values.mp (mem_of_find?_eq_some hfind), hextent e hfind⟩
  · rintro ⟨hget, heid⟩
    cases hfind : byExtent m eid with
    | none => exact absurd heid (by simpa using find?_eq_none.mp hfind e (hg.mem_values.mpr hget))
    | some e' =>
      have hget' := hg.mem_values.mp (mem_of_find?_eq_some hfind)
      rw [hg.placed.secondary.eq_of_field hget' hget ((hextent e' hfind).trans heid.symm)]

theorem byExtent_eq_none {eid : U64}
    (h : ∀ e : LocatorEntry, m.get? e.logicalOffset = some e → e.extentId ≠ eid) : byExtent m eid = none := by
  cases hfind : byExtent m eid with
  | none => rfl
  | some e =>
    obtain ⟨hget, heid⟩ := hg.byExtent_eq_some.mp hfind
    exact absurd heid (h e hget)

/-- **A reverse lookup answers from the entries of the map.** -/
theorem lookupExtent (eid : U64) : slots.lookupExtent eid = byExtent m eid := by
  rcases hg.placed.secondary.find hg.pos eid with ⟨idx, e, hfind, -, he, heid⟩ | ⟨hfind, hnone⟩
  · rw [InodeSlots.lookupExtent, hfind, hg.byExtent_eq_some.mpr ⟨he, heid⟩]
    rfl
  · rw [InodeSlots.lookupExtent, hfind, hg.byExtent_eq_none hnone]
    rfl

omit hg in
/-- The entries of the map with one more binding. -/
theorem get?_insert_iff {entry x : LocatorEntry} : (m.insert entry.logicalOffset entry).get? x.logicalOffset = some x ↔
      x = entry ∨ (m.get? x.logicalOffset = some x ∧ x.logicalOffset ≠ entry.logicalOffset) := by
  rw [get?_insert]
  split_ifs with h
  · simp [h, eq_comm]
  · have hne : x ≠ entry := fun heq => h (congrArg _ heq)
    simp [h, hne]

theorem keys_insert (entry : LocatorEntry) :
    ∀ k e, (m.insert entry.logicalOffset entry).get? k = some e → e.logicalOffset = k := by
  intro k e hget
  rw [get?_insert] at hget
  split_ifs at hget with h
  · rw [← some.inj hget, h]
  · exact hg.keys k e hget

/-- An entry in the place of the one at its offset. -/
theorem overwrite {entry old : LocatorEntry} {slots' : InodeSlots}
    (hold : m.get? entry.logicalOffset = some old)
    (hplaced : Placed cap (fun x => x = entry ∨ (m.get? x.logicalOffset = some x ∧ x ≠ old)) slots') :
    Good (m.insert entry.logicalOffset entry) cap slots' := by
  refine ⟨hg.least, hg.most, hg.keys_insert entry, hplaced.congr fun x => ?_, ?_⟩
  · rw [get?_insert_iff]
    refine or_congr_right (and_congr_right fun hget => not_congr ⟨fun heq => ?_, fun heq => ?_⟩)
    · rw [heq, hg.keys _ _ hold]
    · rw [heq, hold] at hget
      exact (some.inj hget).symm
  · have hle := length_insert_le_of_contains (contains_iff.mpr ⟨old, hold⟩) entry
    have hload := hg.load
    omega

/-- **An insertion.** -/
theorem insert {entry : LocatorEntry} (hvalid : entry.logicalOffset < tombstoneSentinel) :
    (m.get? entry.logicalOffset = none ∧ 7 * cap < 10 * (m.entries.length + 1) ∧
        slots.insert entry = some (.error (.wouldGrow cap))) ∨
      (¬ (m.get? entry.logicalOffset = none ∧ 7 * cap < 10 * (m.entries.length + 1)) ∧
        ∃ slots', slots.insert entry = some (.ok slots') ∧ (Distinct (m.insert entry.logicalOffset entry) →
          Good (m.insert entry.logicalOffset entry) cap slots')) := by
  have hself : (m.insert entry.logicalOffset entry).get? entry.logicalOffset = some entry :=
    (get?_insert ..).trans (if_pos rfl)
  -- the other entries are those of other offsets
  have hother : Distinct (m.insert entry.logicalOffset entry) → ∀ x : LocatorEntry, m.get? x.logicalOffset = some x →
      x.logicalOffset ≠ entry.logicalOffset → x.extentId ≠ entry.extentId := by
    intro hdistinct x hx hne heq
    have hget : (m.insert entry.logicalOffset entry).get? x.logicalOffset = some x :=
      (get?_insert ..).trans ((if_neg hne).trans hx)
    exact hne (hdistinct _ _ x entry hget hself heq)
  cases hget : m.get? entry.logicalOffset with
  | some old =>
    have hoffset := hg.keys _ old hget
    have hold : m.get? old.logicalOffset = some old := by rw [hoffset]; exact hget
    obtain ⟨slots', hinsert, hplaced⟩ := hg.placed.insert_over hg.pos hold hoffset hvalid
    refine .inr ⟨fun h => (by cases h.1), slots', hinsert, fun hdistinct => hg.overwrite hget (hplaced fun x hx hne => ?_)⟩
    refine hother hdistinct x hx fun heq => hne ?_
    rw [heq, hget] at hx
    exact (some.inj hx).symm
  | none =>
    have habsent : ∀ x : LocatorEntry, m.get? x.logicalOffset = some x → x.logicalOffset ≠ entry.logicalOffset := by
      intro x hx heq
      rw [heq, hget] at hx
      cases hx
    have hlength := hg.length_iterate
    rcases hg.placed.insert_new hg.pos habsent hvalid with ⟨hfull, hinsert⟩ | ⟨hroom, slots', hinsert, hplaced⟩
    · simp only [maxLoadNum, maxLoadDen] at hfull
      exact .inl ⟨rfl, by omega, hinsert⟩
    · simp only [maxLoadNum, maxLoadDen] at hroom
      refine .inr ⟨fun h => by have := h.2; omega, slots', hinsert, fun hdistinct => ?_⟩
      refine ⟨hg.least, hg.most, hg.keys_insert entry, ?_, ?_⟩
      · refine (hplaced fun x hx => hother hdistinct x hx (habsent x hx)).congr fun x => ?_
        rw [get?_insert_iff]
        exact or_congr_right ⟨fun hx => ⟨hx, habsent x hx⟩, fun hx => hx.1⟩
      · have hle := length_insert_le m entry.logicalOffset entry
        omega

/-- **A removal.** -/
theorem remove {offset : U64} (hvalid : offset < tombstoneSentinel) :
    (m.get? offset = none ∧ slots.remove offset = some (.error .notFound)) ∨
      (m.get? offset ≠ none ∧ ∃ slots', slots.remove offset = some (.ok slots') ∧ Good (m.erase offset) cap slots') := by
  rcases hg.placed.remove hg.pos hvalid with ⟨e, slots', he, hoffset, hremove, hplaced⟩ | ⟨hremove, hnone⟩
  · subst hoffset
    refine .inr ⟨by rw [he]; exact some_ne_none e, slots', hremove, hg.least, hg.most, fun k x hget => ?_,
      hplaced.congr fun x => ?_, ?_⟩
    · rw [get?_erase] at hget
      split_ifs at hget
      exact hg.keys k x hget
    · rw [get?_erase]
      split_ifs with h
      · refine ⟨fun hx => absurd ?_ hx.2, fun hx => by cases hx⟩
        have hx1 := hx.1
        rw [h, he] at hx1
        exact (some.inj hx1).symm
      · exact ⟨fun hx => hx.1, fun hx => ⟨hx, fun heq => h (congrArg _ heq)⟩⟩
    · have hle : (m.erase e.logicalOffset).entries.length ≤ m.entries.length := length_filter_le ..
      have hload := hg.load
      omega
  · exact .inl ⟨hg.get?_eq_none hnone, hremove⟩

theorem moved {newCap : ℕ} {slots' : InodeSlots} (hleast : defaultCapacity ≤ newCap)
    (hmost : newCap ≤ 2 ^ 57) (hload : 10 * m.entries.length ≤ 7 * newCap)
    (hplaced : Placed newCap (fun e => m.get? e.logicalOffset = some e) slots') : Good m newCap slots' :=
  ⟨hleast, hmost, hg.keys, hplaced, hload⟩

/-- A map without entries needs empty slots. -/
theorem moved_empty {newCap : ℕ} (hleast : defaultCapacity ≤ newCap)
    (hmost : newCap ≤ 2 ^ 57) (hempty : slots.iterate.isEmpty = true) : Good m newCap (emptySlots newCap) := by
  have hnil : slots.iterate = [] := isEmpty_iff.mp hempty
  have hlength := hg.length_iterate
  rw [hnil, length_nil] at hlength
  refine hg.moved hleast hmost (by omega) ((Placed.empty newCap).congr fun e => ⟨False.elim, fun he => ?_⟩)
  have hmem := hg.placed.mem_iterate.mpr he
  rw [hnil] at hmem
  exact absurd hmem not_mem_nil

/-- **Growth.** -/
theorem grow {newCap : ℕ} (hleast : defaultCapacity ≤ newCap) (hmost : newCap ≤ 2 ^ 57) :
    (m.entries.length ≠ 0 ∧ 7 * newCap ≤ 10 * m.entries.length ∧ slots.grow newCap = some (.error .invalidArgument)) ∨
      (¬ (m.entries.length ≠ 0 ∧ 7 * newCap ≤ 10 * m.entries.length) ∧
        ∃ slots', slots.grow newCap = some (.ok slots') ∧ Good m newCap slots') := by
  have hlength := hg.length_iterate
  unfold InodeSlots.grow
  by_cases hempty : slots.iterate.isEmpty = true
  · rw [if_pos hempty]
    have hzero : m.entries.length = 0 := by rw [← hlength, isEmpty_iff.mp hempty]; rfl
    exact .inr ⟨fun h => h.1 hzero, _, rfl, hg.moved_empty hleast hmost hempty⟩
  · rw [if_neg hempty]
    have hsome : m.entries.length ≠ 0 := by
      rw [← hlength]
      exact fun h => hempty (isEmpty_iff.mpr (eq_nil_of_length_eq_zero h))
    split_ifs with hfull
    · simp only [maxLoadNum, maxLoadDen] at hfull
      exact .inl ⟨hsome, by omega, rfl⟩
    · simp only [maxLoadNum, maxLoadDen] at hfull
      obtain ⟨slots', hrehash, hplaced⟩ := hg.placed.rehash_live (some (.error (.wouldGrow newCap)))
        (show slots.iterate.length < newCap by omega)
      exact .inr ⟨fun h => by have := h.2; omega, slots', hrehash, hg.moved hleast hmost (by omega) hplaced⟩

/-- **Compaction.** -/
theorem compact : ∃ slots', slots.compact = some (.ok slots') ∧
    Good m (compactCapacity m.entries.length) slots' := by
  have hlength := hg.length_iterate
  have hfits := compactCapacity_fits m.entries.length
  have hleast := defaultCapacity_le m.entries.length
  have hmost : compactCapacity m.entries.length ≤ 2 ^ 57 := by
    refine fitCapacity_le m.entries.length 57 ?_ (i := 4) (by decide)
    have hload := hg.load
    have hcap := hg.most
    simp only [maxLoadNum, maxLoadDen]
    omega
  simp only [maxLoadNum, maxLoadDen] at hfits
  unfold InodeSlots.compact
  dsimp only
  split_ifs with hempty
  · have hzero : m.entries.length = 0 := by rw [← hlength, isEmpty_iff.mp hempty]; rfl
    refine ⟨_, rfl, ?_⟩
    rw [hzero]
    exact hg.moved_empty le_rfl (by decide) hempty
  · have hpos : 0 < slots.iterate.length := length_pos_of_ne_nil fun h => hempty (isEmpty_iff.mpr h)
    obtain ⟨slots', hrehash, hplaced⟩ := hg.placed.rehash_live none
      (show slots.iterate.length < compactCapacity slots.iterate.length by rw [hlength]; omega)
    rw [hlength] at hplaced
    exact ⟨slots', hrehash, hg.moved hleast hmost (by omega) hplaced⟩

/-- **A relocation.** -/
theorem relocate (eid dev phys : U64) (pinned : Bool) :
    (byExtent m eid = none ∧ slots.relocateExtent eid dev phys pinned = some (.error .notFound)) ∨
      ∃ e, byExtent m eid = some e ∧
        if pinned then slots.relocateExtent eid dev phys pinned = some (.error .extentPinned)
        else ∃ slots', slots.relocateExtent eid dev phys pinned = some (.ok slots') ∧
          Good (m.insert e.logicalOffset { e with deviceId := dev, physicalOffset := phys }) cap slots' := by
  rcases hg.placed.relocate hg.pos eid dev phys pinned with ⟨e, he, heid, hcase⟩ | ⟨hrelocate, hnone⟩
  · refine .inr ⟨e, hg.byExtent_eq_some.mpr ⟨he, heid⟩, ?_⟩
    cases pinned with
    | true => exact hcase
    | false =>
      obtain ⟨slots', hrelocate, hplaced⟩ := hcase
      exact ⟨slots', hrelocate, @Good.overwrite m cap slots hg { e with deviceId := dev, physicalOffset := phys } e slots' he
        hplaced⟩
  · exact .inl ⟨hg.byExtent_eq_none hnone, hrelocate⟩

omit hg in
theorem empty : Good .empty defaultCapacity (emptySlots defaultCapacity) := by
  refine ⟨le_rfl, by decide, fun k e h => (by cases h), (Placed.empty _).congr fun e => ⟨False.elim, fun h => ?_⟩, by decide⟩
  cases h

end Good

/-! ### The table for the map -/

/-- The slots of a table are good for the map; the cache has them or nothing, and the store has them too. -/
structure Sim (t : Table) (s : Spec) (slots : InodeSlots) : Prop where
  good : Good s.map s.capacity slots
  cache : t.cache = if s.cached then some slots else none
  blob : t.blob = some (serializeBlob slots.primary slots.secondary) ∨
    (t.blob = none ∧ slots = emptySlots defaultCapacity)

def noFaults : Faults := ⟨none, none⟩

namespace Sim

variable {t : Table} {s : Spec} {slots : InodeSlots} {faults : Faults}

/-- What the store has reads back. -/
theorem loadSlots (hs : Sim t s slots) (hread : faults.getError = none) : t.loadSlots faults = .ok slots := by
  unfold Table.loadSlots
  rw [hread]
  rcases hs.blob with hblob | ⟨hblob, hslots⟩
  · have hmost := hs.good.most
    have hprimary := hs.good.placed.primary.length
    have hsecondary := hs.good.placed.secondary.length
    rw [hblob]
    dsimp only
    rw [deserializeBlob_serialize (by omega) (by omega)]
  · rw [hblob, hslots]

theorem readError_none (h : faults.getError = none) : s.readError faults = none := by
  unfold Spec.readError
  split_ifs
  · rfl
  · exact h

theorem getSlots_failed (hs : Sim t s slots) {message : String}
    (hread : s.readError faults = some message) : t.getSlots faults = (.error (.store message), t) := by
  unfold Spec.readError at hread
  split_ifs at hread with hcached
  have hcache := hs.cache
  rw [if_neg hcached] at hcache
  rw [Table.getSlots, hcache]
  rw [Table.loadSlots, hread]

theorem getSlots (hs : Sim t s slots) (hread : s.readError faults = none) :
    t.getSlots faults = (.ok slots, { t with cache := some slots }) := by
  unfold Spec.readError at hread
  have hcache := hs.cache
  split_ifs at hread hcache with hcached
  · have hsame : ({ t with cache := some slots } : Table) = t := by rw [← hcache]
    rw [hsame, Table.getSlots, hcache]
  · rw [Table.getSlots, hcache]
    rw [hs.loadSlots hread]

theorem query (hs : Sim t s slots) {α : Type} (answer : InodeSlots → α) :
    (t.query noFaults answer).1 = .ok (answer slots) := by
  rw [Table.query, hs.getSlots (readError_none rfl)]

theorem loaded (hs : Sim t s slots) : Sim { t with cache := some slots } { s with cached := true } slots :=
  ⟨hs.good, rfl, hs.blob⟩

end Sim

/-- A change of slots does what a change of the map says. -/
def Follows (slots : InodeSlots) (change : InodeSlots → Option (Except LocatorError InodeSlots)) :
    Except LocatorError (LocatorMap × ℕ) → Prop
  | .error e => change slots = some (.error e)
  | .ok (map, capacity) => ∃ slots', change slots = some (.ok slots') ∧ (Distinct map → Good map capacity slots')

/-- The same result, and after it the slots for the map, or those from before if the call failed. -/
def StepSim (t : Table) (slots : InodeSlots) (next : Option (Except LocatorError Unit × Table))
    (spec : Except LocatorError Unit × Spec) : Prop :=
  ∃ t', next = some (spec.1, t') ∧ (Distinct spec.2.map → ∃ slots', Sim t' spec.2 slots') ∧
    ∀ e, spec.1 = .error e → Sim t' spec.2 slots ∧ t'.blob = t.blob

variable {t : Table} {s : Spec} {slots : InodeSlots} (hs : Sim t s slots)
include hs

theorem update_sim (faults : Faults)
    {change : InodeSlots → Option (Except LocatorError InodeSlots)} {result : Except LocatorError (LocatorMap × ℕ)}
    (hfollows : Follows slots change result) : StepSim t slots (t.update faults change) (s.update faults result) := by
  unfold Table.update Spec.update
  cases hread : s.readError faults with
  | some message =>
    rw [hs.getSlots_failed hread]
    exact ⟨t, rfl, fun _ => ⟨slots, hs⟩, fun _ _ => ⟨hs, rfl⟩⟩
  | none =>
    rw [hs.getSlots hread]
    dsimp only
    cases result with
    | error e =>
      have hchange : change slots = some (.error e) := hfollows
      rw [hchange]
      exact ⟨_, rfl, fun _ => ⟨slots, hs.loaded⟩, fun _ _ => ⟨hs.loaded, rfl⟩⟩
    | ok next =>
      obtain ⟨slots', hchange, hgood⟩ := hfollows
      rw [hchange]
      unfold Table.putSlots
      cases faults.putError with
      | some message => exact ⟨_, rfl, fun _ => ⟨slots, hs.loaded⟩, fun _ _ => ⟨hs.loaded, rfl⟩⟩
      | none => exact ⟨_, rfl, fun hdistinct => ⟨slots', hgood hdistinct, rfl, .inl rfl⟩, fun e he => by cases he⟩

theorem refused_sim (e : LocatorError) : StepSim t slots (some (.error e, t)) (.error e, s) :=
  ⟨t, rfl, fun _ => ⟨slots, hs⟩, fun _ _ => ⟨hs, rfl⟩⟩

/-- **Every call on the table does what the call on the map does.** -/
theorem step_sim : ∀ op : Op, op ≠ .reload → StepSim t slots (t.step op) (s.step op)
  | .insert entry faults, _ => by
    simp only [Table.step, Table.insert, Spec.step]
    split_ifs with hvalid
    · exact refused_sim hs _
    · refine update_sim hs faults ?_
      unfold Spec.insertion
      rcases hs.good.insert (not_le.mp hvalid) with ⟨hget, hfull, hinsert⟩ | ⟨hroom, hinsert⟩
      · rw [if_pos ⟨hget, hfull⟩]
        exact hinsert
      · rw [if_neg hroom]
        exact hinsert
  | .remove offset faults, _ => by
    simp only [Table.step, Table.remove, Spec.step]
    split_ifs with hvalid
    · exact refused_sim hs _
    · refine update_sim hs faults ?_
      unfold Spec.removal
      rcases hs.good.remove (not_le.mp hvalid) with ⟨hget, hremove⟩ | ⟨hget, slots', hremove, hgood⟩
      · rw [if_pos hget]
        exact hremove
      · rw [if_neg hget]
        exact ⟨slots', hremove, fun _ => hgood⟩
  | .grow newCapacity faults, _ => by
    simp only [Table.step, Table.grow, Spec.step]
    split_ifs with hsmall
    · exact refused_sim hs _
    · refine update_sim hs faults ?_
      unfold Spec.growth
      have hmost : newCapacity.val ≤ 2 ^ 57 := Nat.lt_succ_iff.mp newCapacity.isLt
      rcases hs.good.grow (not_lt.mp hsmall) hmost with ⟨hsome, hfull, hgrow⟩ | ⟨hroom, slots', hgrow, hgood⟩
      · rw [if_pos ⟨hsome, hfull⟩]
        exact hgrow
      · rw [if_neg hroom]
        exact ⟨slots', hgrow, fun _ => hgood⟩
  | .relocateExtent extentId newDeviceId newPhysicalOffset pinned faults, _ => by
    refine update_sim hs faults ?_
    unfold Spec.relocation
    rcases hs.good.relocate extentId newDeviceId newPhysicalOffset pinned with ⟨hnone, hrelocate⟩ | ⟨e, hsome, hcase⟩
    · rw [hnone]
      exact hrelocate
    · rw [hsome]
      cases pinned with
      | true => exact hcase
      | false =>
        obtain ⟨slots', hrelocate, hgood⟩ := hcase
        exact ⟨slots', hrelocate, fun _ => hgood⟩
  | .compactAndSwap faults, _ => by
    refine update_sim hs faults ?_
    obtain ⟨slots', hcompact, hgood⟩ := hs.good.compact
    exact ⟨slots', hcompact, fun _ => hgood⟩
  | .reload, hop => absurd rfl hop

theorem reload_sim : Sim t.reload { s with cached := false } slots := ⟨hs.good, rfl, hs.blob⟩

/-- Whatever call comes next, it ends. -/
theorem step_ends (op : Op) :
    ∃ t', t.step op = some ((s.step op).1, t') ∧ (Distinct (s.step op).2.map → ∃ slots', Sim t' (s.step op).2 slots') ∧
      ∀ e, (s.step op).1 = .error e → Sim t' (s.step op).2 slots ∧ t'.blob = t.blob := by
  by_cases hop : op = .reload
  · rw [hop]
    exact ⟨t.reload, rfl, fun _ => ⟨slots, reload_sim hs⟩, fun e he => by cases he⟩
  · exact step_sim hs op hop

omit hs

/-- **Whole runs.** -/
theorem run_sim : ∀ (ops : List Op) {t : Table} {s : Spec} {slots : InodeSlots}, Sim t s slots → DistinctRun s ops →
    ∃ t' slots', t.run ops = some ((s.run ops).1, t') ∧ Sim t' (s.run ops).2 slots'
  | [], t, s, slots, hs, _ => ⟨t, slots, rfl, hs⟩
  | op :: ops, t, s, slots, hs, hrun => by
    obtain ⟨t1, hstep, hnext, -⟩ := step_ends hs op
    obtain ⟨slots1, hs1⟩ := hnext hrun.1
    obtain ⟨t2, slots2, hrest, hs2⟩ := run_sim ops hs1 hrun.2
    refine ⟨t2, slots2, ?_, hs2⟩
    rw [Table.run, hstep]
    dsimp only
    rw [hrest]
    rfl

theorem new_sim : Sim .new .new (emptySlots defaultCapacity) := ⟨Good.empty, rfl, .inr ⟨rfl, rfl⟩⟩

/-- **The locator table.** A run in which no two offsets carry one extent ends, with the results of the map. After it,
lookups, reverse lookups and walks answer from the map, and both regions have its number of slots. Any further call ends;
if it fails, then the slots and the blob are those from before; and an insertion at a valid offset asks for growth exactly
if the offset is new and there is no room for one more entry. -/
theorem table_is_map (ops : List Op) (hdistinct : DistinctRun .new ops) :
    ∃ t s, Table.new.run ops = some ((Spec.new.run ops).1, t) ∧ s = (Spec.new.run ops).2 ∧
      (∀ offset, (t.lookup offset noFaults).1 =
        if tombstoneSentinel ≤ offset then .error .invalidArgument else .ok (s.map.get? offset)) ∧
      (∀ extentId, (t.lookupExtent extentId noFaults).1 = .ok (byExtent s.map extentId)) ∧
      (∃ live, (t.iterate noFaults).1 = .ok live ∧ live.Perm (values s.map)) ∧
      (∃ slots, (t.getSlots noFaults).1 = .ok slots ∧ slots.primary.length = s.capacity ∧
        slots.secondary.length = s.capacity) ∧ (∀ op, ∃ result t', t.step op = some (result, t') ∧
        ∀ e, result = .error e → t'.blob = t.blob ∧ (t'.getSlots noFaults).1 = (t.getSlots noFaults).1) ∧
      ∀ (entry : LocatorEntry) (putError : Option String) (t' : Table) (result : Except LocatorError Unit),
        entry.logicalOffset < tombstoneSentinel → t.insert entry ⟨none, putError⟩ = some (result, t') →
          ((∃ capacity, result = .error (.wouldGrow capacity)) ↔
            s.map.get? entry.logicalOffset = none ∧ 7 * s.capacity < 10 * (s.map.entries.length + 1)) := by
  obtain ⟨t, slots, hrun, hs⟩ := run_sim ops new_sim hdistinct
  have hslots : ∀ {t s}, Sim t s slots → (t.getSlots noFaults).1 = .ok slots := by
    intro t s hs
    rw [hs.getSlots (Sim.readError_none rfl)]
  refine ⟨t, _, hrun, rfl, fun offset => ?_, fun extentId => ?_, ⟨slots.iterate, hs.query _, hs.good.perm_iterate⟩,
    ⟨slots, hslots hs, hs.good.placed.primary.length, hs.good.placed.secondary.length⟩, fun op => ?_, ?_⟩
  · unfold Table.lookup
    split_ifs with hvalid
    · rfl
    · rw [hs.query, hs.good.lookup (not_le.mp hvalid)]
  · rw [Table.lookupExtent, hs.query, hs.good.lookupExtent]
  · obtain ⟨t', hstep, -, hfailed⟩ := step_ends hs op
    refine ⟨_, t', hstep, fun e he => ?_⟩
    obtain ⟨hs', hblob⟩ := hfailed e he
    exact ⟨hblob, (hslots hs').trans (hslots hs).symm⟩
  · intro entry putError t' result hvalid hinsert
    obtain ⟨t1, hstep, -, -⟩ := step_ends hs (.insert entry ⟨none, putError⟩)
    have hresult : result = ((Spec.new.run ops).2.step (.insert entry ⟨none, putError⟩)).1 :=
      congrArg Prod.fst (some.inj (hinsert.symm.trans hstep))
    rw [hresult, Spec.step, if_neg (not_le.mpr hvalid)]
    unfold Spec.update
    rw [Sim.readError_none rfl]
    unfold Spec.insertion
    split_ifs with hfull
    · exact ⟨fun _ => hfull, fun _ => ⟨_, rfl⟩⟩
    · refine ⟨fun ⟨capacity, hc⟩ => ?_, fun h => absurd h hfull⟩
      cases putError with
      | none => cases hc
      | some message => cases hc

theorem distinct_of_nodup {m : LocatorMap} (h : (m.entries.map fun b => b.2.extentId).Nodup) : Distinct m :=
  fun _ _ _ _ he he' heid =>
    congrArg Prod.fst (inj_on_of_nodup_map h (get?_eq_some.mp he) (get?_eq_some.mp he') heid)

/-- Two offsets of one place, one of them removed after a reload. -/
theorem table_is_map_two :
    ∃ t, Table.new.run [.insert (.new 0 1 0 4096 512 0) noFaults, .insert (.new 16 17 0 8192 512 0) noFaults, .reload,
        .remove 0 noFaults] = some ([.ok (), .ok (), .ok (), .ok ()], t) ∧
      (t.lookup 16 noFaults).1 = .ok (some (.new 16 17 0 8192 512 0)) := by
  have hdistinct : DistinctRun .new [.insert (.new 0 1 0 4096 512 0) noFaults,
      .insert (.new 16 17 0 8192 512 0) noFaults, .reload, .remove 0 noFaults] := by
    refine ⟨?_, ?_, ?_, ?_, trivial⟩
    all_goals
      apply distinct_of_nodup
      decide +kernel
  obtain ⟨t, s, hrun, rfl, hlookup, -⟩ := table_is_map _ hdistinct
  refine ⟨t, hrun, (hlookup 16).trans ?_⟩
  rw [if_neg (by decide)]
  rfl

end Tidefs.Locator
