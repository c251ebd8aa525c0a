/-
# Extent maps as mappings of bytes

What a file's extents are for: each byte is mapped to the type, the locator and the
checksum of its extent, or to nothing. An operation the map accepts changes that
mapping as `applyOp` says and no other operation changes it (`stepWith_change`),
whatever the extents the map keeps for it; a lookup returns the mapping of its range
(`lookupRange_spec`).

Version 3 reports a tree too deep after the change was made, so an operation is
carried out if it succeeds or ends in `mapFull`.

Each operation is looked at once (`Change`): besides the mapping, what it does to the
size and the count of the header and where its extents come from.
-/
import Tidefs.ExtentMap.Map
import Tidefs.ExtentMap.Origin

namespace Tidefs.ExtentMap

open Word Btree Ordered Spans Spans.HasSpan ExtentMapEntryV2 Option BTreeExtentMap MultiLevelBTreeExtentMap
open List hiding length lookup map_map max next not_lt

variable {P : Params} {H : Type}

/-! ### Reading a sound map -/

/-- The tree is well shaped, its extents are in order under their offsets and neither
overlap nor wrap around. -/
structure Sound (P : Params) (m : TreeMap H) : Prop where
  refines : ∃ om : OrdMap ℕ ExtentMapEntryV2, Refines P m.tree om ∧ om.entries = m.extents.map fun e => (lo e, e)
  layout : Layout m.extents

variable {m : TreeMap H}

theorem Sound.scan (hP : P.Valid) (h : Sound P m) (start stop : Bound ℕ) :
    m.scan start stop = some (m.extents.filter fun e => afterStart start (lo e) && RangeScan.beforeEnd stop (lo e)) := by
  obtain ⟨om, h1, h2⟩ := h.refines
  rw [TreeMap.scan, h1.rangeScan hP, map_some, h2, List.filter_map, List.map_map]
  exact congrArg some (map_id _)

variable (hP : P.Valid)
include hP

variable (h : Sound P m)
include h

theorem Sound.scan_all : m.scan .unbounded .unbounded = some m.extents := by
  rw [h.scan hP]
  exact congrArg some (filter_eq_self.mpr fun _ _ => rfl)

theorem Sound.scan_before (n : ℕ) :
    m.scan .unbounded (.excluded n) = some (m.extents.filter fun e => decide (lo e < n)) := h.scan hP _ _

theorem Sound.scan_from (n : ℕ) :
    m.scan (.included n) .unbounded = some (m.extents.filter fun e => decide (n ≤ lo e)) := by
  rw [h.scan hP]
  exact congrArg some (filter_congr fun _ _ => Bool.and_true _)

theorem Sound.scan_between (a b : ℕ) : m.scan (.included a) (.excluded b) =
      some (m.extents.filter fun e => decide (a ≤ lo e) && decide (lo e < b)) := h.scan hP _ _

omit h

omit hP

theorem Sound.floorEntry (hP : P.Valid) (h : Sound P m) (n : ℕ) : m.tree.floorEntry n =
      some ((m.extents.filter fun e => decide (lo e ≤ n)).getLast?.map fun e => (lo e, e)) := by
  obtain ⟨om, h1, h2⟩ := h.refines
  rw [h1.floorEntry hP, OrdMap.lastLE, h2, List.filter_map, List.getLast?_map]
  rfl

variable {offset length : ℕ}

/-- **A lookup returns the mapping of its range.** -/
theorem lookupRange_spec (hP : P.Valid) (h : Sound P m) (hl : 0 < length) (hend : offset + length ≤ u64Max) :
    lookupRange m offset length = some (.ok (clipped m.extents offset (offset + length))) := by
  rw [lookupRange, if_neg (by omega), if_neg (by omega), h.floorEntry hP]
  rw [bind_some, h.scan_between hP, map_some, clipped]
  cases (m.extents.filter fun e => decide (lo e ≤ offset)).getLast? with
  | none => rfl
  | some e => rfl

theorem sound_new (h : H) : Sound P (⟨h, BPlusTree.new P⟩ : TreeMap H) := ⟨⟨_, refines_new, rfl⟩, Layout.nil⟩

/-! ### Rebuilding -/

variable [MapHeader H]

theorem fileSize_setFileSize (m : TreeMap H) (n : ℕ) : (m.setFileSize n).fileSize = n :=
  MapHeader.fileSize_setFileSize _ _

theorem extents_setFileSize (m : TreeMap H) (n : ℕ) : (m.setFileSize n).extents = m.extents := rfl

theorem Sound.setFileSize (h : Sound P m) (n : ℕ) : Sound P (m.setFileSize n) := ⟨h.refines, h.layout⟩

theorem extents_raiseFileSize (m : TreeMap H) (n : ℕ) : (m.raiseFileSize n).extents = m.extents := by
  unfold TreeMap.raiseFileSize
  split_ifs <;> rfl

theorem Sound.raiseFileSize (h : Sound P m) (n : ℕ) : Sound P (m.raiseFileSize n) := by
  unfold TreeMap.raiseFileSize
  split_ifs
  · exact h.setFileSize n
  · exact h

variable {es : List ExtentMapEntryV2}

/-- **A rebuilt map is sound and has the extents it was built from.** -/
theorem rebuild_spec (hP : P.Valid) (m : TreeMap H) (h : Layout es) :
    ∃ m', rebuild P m es = some m' ∧ Sound P m' ∧ m'.extents = es := by
  have hsorted : (es.map fun e => (lo e, e)).Pairwise fun a b => a.1 < b.1 := pairwise_map.mpr h.tiles.ascend
  obtain ⟨t, t', h1, h2, h3⟩ := refines_packed hP (⟨es.map fun e => (lo e, e), hsorted⟩ : OrdMap ℕ ExtentMapEntryV2)
  obtain ⟨d, hd⟩ := h3.depth
  have hes : t'.entries.map Prod.snd = es := by
    rw [h3.entries, List.map_map]
    exact map_id _
  refine ⟨(⟨MapHeader.refresh m.header t' d es, t'⟩ : TreeMap H).setFileSize
    (max (es.getLast?.elim 0 endOffset) m.fileSize), ?_, ⟨⟨_, h3, ?_⟩, ?_⟩, hes⟩
  · have hpacked : BPlusTree.rebuild P (es.map fun e => (e.logicalOffset, e)) = some t := h1
    rw [rebuild, hpacked, bind_some, h2, bind_some, hd, map_some]
  · show es.map _ = (t'.entries.map Prod.snd).map _
    rw [hes]
  · show Layout (t'.entries.map Prod.snd)
    rw [hes]
    exact h

theorem Layout.le_last (h : Layout es) : ∀ e ∈ es, hi e ≤ es.getLast?.elim 0 endOffset := by
  rcases eq_nil_or_concat es with rfl | ⟨A, p, rfl⟩
  · simp
  · rw [concat_eq_append] at h ⊢
    rw [getLast?_append_of_ne_nil _ (by simp)]
    have hp : hi p ≤ endOffset p := (endOffset_eq (h.fits p (by simp))).ge
    refine forall_mem_append.mpr ⟨fun e he => ?_, fun e he => mem_singleton.mp he ▸ hp⟩
    calc hi e ≤ lo p := (Tiles.append_iff.mp h.tiles).2.2 e he p (by simp)
      _ ≤ hi p := (h.tiles.pos p (by simp)).le
      _ ≤ _ := hp

theorem fileSize_raiseFileSize (m : TreeMap H) (n : ℕ) : (m.raiseFileSize n).fileSize = max m.fileSize n := by
  unfold TreeMap.raiseFileSize
  split_ifs with h
  · rw [fileSize_setFileSize, max_eq_right h.le]
  · rw [max_eq_left (not_lt.mp h)]

/-- A header that counts the extents of its map. -/
class CountsEntries (H : Type) [MapHeader H] where
  entryCount : H → ℕ
  entryCount_setFileSize : ∀ h n, entryCount (MapHeader.setFileSize h n) = entryCount h
  entryCount_refresh : ∀ h t d es, entryCount (MapHeader.refresh h t d es) = es.length

open CountsEntries Except

instance : CountsEntries ExtentMapV2 where
  entryCount h := h.entryCount
  entryCount_setFileSize _ _ := rfl
  entryCount_refresh _ _ _ _ := rfl

instance : CountsEntries ExtentMapV3 where
  entryCount h := h.entryCount
  entryCount_setFileSize _ _ := rfl
  entryCount_refresh _ _ _ _ := rfl

variable [CountsEntries H] {m' : TreeMap H}

/-- The count of the header is not too small. -/
def Counted (m : TreeMap H) : Prop := m.extents.length ≤ entryCount m.header

theorem Counted.setFileSize (h : Counted m) (n : ℕ) : Counted (m.setFileSize n) :=
  h.trans (entryCount_setFileSize m.header n).ge

theorem Counted.raiseFileSize (h : Counted m) (n : ℕ) : Counted (m.raiseFileSize n) := by
  unfold TreeMap.raiseFileSize
  split_ifs
  · exact h.setFileSize n
  · exact h

/-- A rebuilt map has its extents counted and within the file. -/
theorem rebuild_counted (hP : P.Valid) (m : TreeMap H) (h : Layout es) : ∃ m', rebuild P m es = some m' ∧ Sound P m' ∧
      m'.extents = es ∧ Counted m' ∧ m.fileSize ≤ m'.fileSize ∧ ∀ e ∈ es, hi e ≤ m'.fileSize := by
  obtain ⟨m', h1, h2, h3⟩ := rebuild_spec hP m h
  have hr := h1
  obtain ⟨packed, -, hr⟩ := bind_eq_some_iff.mp hr
  obtain ⟨tree, -, hr⟩ := bind_eq_some_iff.mp hr
  obtain ⟨depth, -, rfl⟩ := map_eq_some_iff.mp hr
  refine ⟨_, h1, h2, h3, ?_, ?_⟩
  · rw [Counted, h3]
    exact ((entryCount_setFileSize ..).trans (entryCount_refresh ..)).ge
  · rw [fileSize_setFileSize]
    exact ⟨le_max_right .., fun e he => (h.le_last e he).trans (le_max_left ..)⟩

/-! ### Operations -/

/-- The calls that change an extent map. -/
inductive Op where
  | insertExtent (entries : List ExtentMapEntryV2)
  | truncate (newSize : ℕ)
  | punchHole (offset length : ℕ)
  | zeroRange (offset length : ℕ)
  | collapseRange (offset length : ℕ)
  | convertUnwrittenToData (offset length : ℕ) (locatorId : LocatorId) (checksum : Digest) (birthCommitGroup : ℕ)
  | fallocate (offset length : ℕ) (keepSize : Bool)

/-- No inserted entry wraps around. -/
def Op.Fits : Op → Prop
  | .insertExtent entries => ∀ e ∈ entries, ExtentMap.Fits e
  | _ => True

def Op.brings : Op → List ExtentMapEntryV2
  | .insertExtent entries => entries
  | .fallocate offset length _ => [newUnwritten offset length 0]
  | .convertUnwrittenToData offset length locatorId checksum birthCommitGroup =>
    [newData offset length locatorId checksum birthCommitGroup]
  | _ => []

/-- What an operation returns; those that free nothing return no ranges. -/
abbrev Reply := Outcome (List FreedExtent)

/-- An operation of a version, given by how it inserts and collapses. -/
def stepWith (P : Params) (insertExtent : TreeMap H → List ExtentMapEntryV2 → Option (TreeMap H × Outcome Unit))
    (collapseRange : TreeMap H → ℕ → ℕ → Option (TreeMap H × Reply)) (m : TreeMap H) : Op → Option (TreeMap H × Reply)
  | .insertExtent entries => (insertExtent m entries).map fun r => (r.1, r.2.map fun _ => [])
  | .truncate newSize => truncate P m newSize
  | .punchHole offset length => punchHole P m offset length
  | .zeroRange offset length => zeroRange P m offset length
  | .collapseRange offset length => collapseRange m offset length
  | .convertUnwrittenToData offset length locatorId checksum birthCommitGroup =>
    (convertUnwrittenToData P m offset length locatorId checksum birthCommitGroup).map fun r =>
      (r.1, r.2.map fun _ => [])
  | .fallocate offset length keepSize =>
    (fallocateWith insertExtent m offset length keepSize).map fun r => (r.1, r.2.map fun _ => [])

def BTreeExtentMap.step (P : Params) : BTreeExtentMap → Op → Option (BTreeExtentMap × Reply) :=
  stepWith P (BTreeExtentMap.insertExtent P) (ExtentMap.collapseRange P)

def MultiLevelBTreeExtentMap.step (P : Params) :
    MultiLevelBTreeExtentMap → Op → Option (MultiLevelBTreeExtentMap × Reply) :=
  stepWith P (MultiLevelBTreeExtentMap.insertExtent P) (MultiLevelBTreeExtentMap.collapseRange P)

/-! ### The mapping of the bytes -/

abbrev ByteMap := ℕ → Option ByteTag

/-- What an operation that is carried out does to the mapping of a file of the size. -/
def applyOp (size : ℕ) (bytes : ByteMap) : Op → ByteMap
  | .insertExtent entries => fun b => (content entries b).or (bytes b)
  | .truncate newSize => fun b => if newSize < size ∧ newSize ≤ b then none else bytes b
  | .punchHole offset length | .zeroRange offset length => fun b =>
    if offset ≤ b ∧ b < offset + length then none else bytes b
  | .collapseRange offset length => fun b => bytes (if b < offset then b else b + length)
  | .convertUnwrittenToData offset length locatorId checksum _ => fun b =>
    if offset ≤ b ∧ b < offset + length then some ⟨.data, locatorId, checksum⟩ else bytes b
  | .fallocate offset length _ => fun b =>
    if offset ≤ b ∧ b < offset + length then some ⟨.unwritten, LocatorId.none, Vector.replicate 32 0⟩ else bytes b

/-- The operation is carried out: its range and its entries are valid, and a conversion
is within one unwritten extent. -/
def Accepts (m : TreeMap H) : Op → Prop
  | .insertExtent entries => Insertable entries
  | .truncate _ => True
  | .punchHole offset length | .zeroRange offset length | .fallocate offset length _ =>
    0 < length ∧ offset + length ≤ u64Max
  | .collapseRange offset length => length = 0 ∨ offset + length ≤ u64Max ∧ offset + length ≤ m.fileSize
  | .convertUnwrittenToData offset length _ _ _ =>
    0 < length ∧ offset + length ≤ u64Max ∧
      ∃ e ∈ m.extents, e.extentType = .unwritten ∧ lo e ≤ offset ∧ offset + length ≤ hi e

/-- The call succeeded, or reported the map full after the change. -/
def carriedOut {α : Type} : Outcome α → Bool
  | .ok _ => true
  | .error e => e = .mapFull

/-- What one call does: carried out, it changes the mapping as it should; otherwise
it leaves the map as it is. Only a version that checks depth reports a full map. -/
structure Effect (P : Params) (deep : Bool) (m : TreeMap H) (op : Op) {α : Type} (r : TreeMap H × Outcome α) :
    Prop where
  sound : Sound P r.1
  full : r.2 = .error .mapFull → deep = true
  bytes : Accepts m op ∧ carriedOut r.2 = true ∧ content r.1.extents = applyOp m.fileSize (content m.extents) op ∨
    ¬ Accepts m op ∧ carriedOut r.2 = false ∧ r.1 = m

/-- A lower bound of the size of the file after an operation that left these extents. -/
def SizeAfter (size : ℕ) (es' : List ExtentMapEntryV2) (size' : ℕ) : Op → Prop
  | .insertExtent _ => size ≤ size' ∧ ∀ e ∈ es', hi e ≤ size'
  | .truncate newSize => newSize ≤ size'
  | .collapseRange _ length => size - length ≤ size'
  | .convertUnwrittenToData offset length .. => size ≤ size' ∧ offset + length ≤ size'
  | .punchHole .. | .zeroRange .. | .fallocate .. => size ≤ size'

/-- What an operation does to the count and the size: it leaves the map alone, or it
counts anew and the file gets large enough. -/
def Sized (m : TreeMap H) (op : Op) (m' : TreeMap H) : Prop :=
  m' = m ∨ (Counted m → Counted m') ∧ SizeAfter m.fileSize m'.extents m'.fileSize op

/-- All that one call does: its effect, what the header says after it and where the extents come from. -/
structure Change (P : Params) (deep : Bool) (m : TreeMap H) (op : Op) {α : Type} (r : TreeMap H × Outcome α) : Prop
    extends Effect P deep m op r where
  sized : Sized m op r.1
  kept : Kept m.extents op.brings r.1.extents

variable {deep : Bool} {α : Type} {op : Op}

theorem Change.ok {m' : TreeMap H} {a : α} (h : Sound P m') (hacc : Accepts m op)
    (hb : content m'.extents = applyOp m.fileSize (content m.extents) op) (hs : Sized m op m')
    (hk : Kept m.extents op.brings m'.extents) : Change P deep m op (m', ok a) :=
  ⟨⟨h, (fun h => nomatch h), .inl ⟨hacc, rfl, hb⟩⟩, hs, hk⟩

theorem Change.refused {e : ExtentMapError} (h : Sound P m)
    (hacc : ¬ Accepts m op) (he : e ≠ .mapFull) : Change P deep m op (m, (error e : Outcome α)) :=
  ⟨⟨h, fun h => absurd (error.inj h) he, .inr ⟨hacc, decide_eq_false he, rfl⟩⟩, .inl rfl, fun _ _ hes _ => hes⟩

/-- What a call returns besides does not matter. -/
theorem Change.map {β : Type} {r : TreeMap H × Outcome α} (h : Change P deep m op r)
    (f : α → β) : Change P deep m op (r.1, r.2.map f) := by
  obtain ⟨m', r⟩ := r
  cases r with
  | ok a => exact ⟨⟨h.sound, (fun he => nomatch he), h.bytes⟩, h.sized, h.kept⟩
  | error e => exact ⟨⟨h.sound, fun he => h.full (congrArg error (error.inj he)), h.bytes⟩, h.sized, h.kept⟩

variable {entries : List ExtentMapEntryV2}

include hP h

omit [CountsEntries H] in
theorem insertChecked_eq (entries : List ExtentMapEntryV2) :
    insertChecked P m entries = rebuild P m (inserted m.extents entries) := by
  rw [insertChecked, h.scan_all hP, bind_some]
  rfl

theorem truncate_change (newSize : ℕ) :
    ∃ r, truncate P m newSize = some r ∧ Change P deep m (.truncate newSize) r := by
  by_cases hsize : m.fileSize ≤ newSize
  · refine ⟨(m.raiseFileSize newSize, .ok []), if_pos hsize, .ok (h.raiseFileSize newSize) trivial ?_
      (.inr ⟨fun hc => hc.raiseFileSize newSize, ?_⟩) fun _ _ hes _ => ?_⟩
    · rw [extents_raiseFileSize]
      exact funext fun b => (if_neg (by omega)).symm
    · rw [fileSize_raiseFileSize]
      exact le_max_right ..
    · rwa [extents_raiseFileSize]
  · obtain ⟨h1, h2⟩ := truncated_spec h.layout newSize
    obtain ⟨m', h3, h4, h5, h6, -⟩ := rebuild_counted hP m h1
    rw [truncate, if_neg hsize, h.scan_before hP, bind_some, h.scan_from hP, bind_some]
    rw [← retainNonempty_eq h1.tiles] at h3
    refine ⟨_, congrArg (Option.map _) h3, .ok (h4.setFileSize newSize) trivial ?_
      (.inr ⟨fun _ => h6.setFileSize newSize, (fileSize_setFileSize m' newSize).ge⟩) ?_⟩
    · rw [extents_setFileSize, h5]
      funext b
      rw [h2]
      split_ifs with hb
      · exact (if_neg (by omega)).symm
      · exact (if_pos (by omega)).symm
    · rw [extents_setFileSize, h5]
      exact truncated_kept newSize

omit hP h in
theorem invalid_range (h : ¬ (0 < length ∧ offset + length ≤ u64Max)) (a b : α) :
    (if length = 0 then a else if u64Max < offset + length then a else b) = a := by
  by_cases h1 : length = 0
  · exact if_pos h1
  · rw [if_neg h1, if_pos (by omega)]

omit [CountsEntries H] in
theorem punchHole_eq (hr : 0 < length ∧ offset + length ≤ u64Max) : ∃ freed, punchHole P m offset length =
      (rebuild P m (punched m.extents offset (offset + length))).map fun m' =>
        (m'.raiseFileSize (offset + length), .ok freed) := by
  rw [punchHole, if_neg (by omega), if_neg (by omega), h.scan_before hP]
  rw [bind_some, h.scan_between hP, bind_some, h.scan_from hP, bind_some,
    ← retainNonempty_eq (punched_spec h.layout (show offset < offset + length by omega)).1.tiles]
  exact ⟨_, rfl⟩

theorem punchHole_change (offset length : ℕ) :
    ∃ r, punchHole P m offset length = some r ∧ Change P deep m (.punchHole offset length) r := by
  by_cases hr : 0 < length ∧ offset + length ≤ u64Max
  · have hos : offset < offset + length := by omega
    obtain ⟨h1, h2⟩ := punched_spec h.layout hos
    obtain ⟨m', h3, h4, h5, h6, h7, -⟩ := rebuild_counted hP m h1
    obtain ⟨freed, h8⟩ := punchHole_eq hP h hr
    rw [h8, h3]
    refine ⟨_, rfl, .ok (h4.raiseFileSize _) hr ?_ (.inr ⟨fun _ => h6.raiseFileSize _, ?_⟩) ?_⟩
    · rw [extents_raiseFileSize, h5]
      funext b
      rw [h2]
      exact ite_not ..
    · rw [fileSize_raiseFileSize]
      exact h7.trans (le_max_left ..)
    · rw [extents_raiseFileSize, h5]
      exact punched_kept h.layout hos
  · rw [punchHole, invalid_range hr]
    exact ⟨_, rfl, .refused h hr (by decide)⟩

theorem collapseRange_change (offset length : ℕ) :
    ∃ r, collapseRange P m offset length = some r ∧ Change P deep m (.collapseRange offset length) r := by
  by_cases h0 : length = 0
  · refine ⟨(m, .ok []), if_pos h0, .ok h (.inl h0) ?_ (.inl rfl) fun _ _ hes _ => hes⟩
    funext b
    show content m.extents b = content m.extents (if b < offset then b else b + length)
    rw [h0, add_zero, ite_self]
  · by_cases hr : offset + length ≤ u64Max ∧ offset + length ≤ m.fileSize
    · obtain ⟨h1, h2⟩ := collapsed_spec h.layout offset length
      obtain ⟨h3, h4⟩ := mergeAdjacent_spec h1
      obtain ⟨m', h5, h6, h7, h8, h9, -⟩ := rebuild_counted hP m h3
      rw [collapseRange, if_neg h0, if_neg (by omega), if_neg (by omega), h.scan_before hP]
      rw [bind_some, h.scan_between hP, bind_some, h.scan_from hP, bind_some]
      rw [← retainNonempty_eq h1.tiles] at h5
      refine ⟨_, congrArg (Option.map _) h5, .ok (h6.setFileSize _) (.inr hr) ?_ (.inr ⟨fun _ => h8.setFileSize _, ?_⟩) ?_⟩
      · rw [extents_setFileSize, h7, h4]
        exact funext h2
      · rw [fileSize_setFileSize]
        exact Nat.sub_le_sub_right h9 length
      · rw [extents_setFileSize, h7]
        exact collapsed_kept h.layout offset length
    · refine ⟨(m, .error .invalidRange), ?_, .refused h (fun hacc => hacc.elim h0 hr) (by decide)⟩
      rw [collapseRange, if_neg h0]
      by_cases h1 : u64Max < offset + length
      · exact if_pos h1
      · rw [if_neg h1, if_pos (by omega)]

omit hP h

theorem isUnwritten_iff (e : ExtentMapEntryV2) : e.isUnwritten = true ↔ e.extentType = .unwritten := by
  unfold isUnwritten extentType
  rw [beq_iff_eq]
  constructor
  · intro h
    rw [h]
    decide
  · intro h
    split_ifs at h with h1 h2 h3
    exact h3

/-- The extent that has a byte is the last that starts at or before it. -/
theorem last_of_covers (h : Layout es) {n : ℕ} {x : ExtentMapEntryV2} (hx : x ∈ es)
    (hn : Covers x n) : (es.filter fun e => decide (lo e ≤ n)).getLast? = some x := by
  have hmem : x ∈ es.filter fun e => decide (lo e ≤ n) := mem_filter.mpr ⟨hx, by simpa using hn.1⟩
  have hle := fun e (he : e ∈ es.filter fun e => decide (lo e ≤ n)) => of_mem_filter he
  have hl : Tiles (es.filter fun e => decide (lo e ≤ n)) := h.tiles.filter _
  generalize (es.filter fun e => decide (lo e ≤ n)) = l at hl hle hmem ⊢
  rcases eq_nil_or_concat l with rfl | ⟨A, p, rfl⟩
  · exact absurd hmem (by simp)
  · rw [concat_eq_append] at hl hle hmem ⊢
    rw [getLast?_append_of_ne_nil _ (by simp), getLast?_singleton]
    rcases mem_append.mp hmem with hA | hp
    · -- an earlier one ends before the last starts
      have := (Tiles.append_iff.mp hl).2.2 x hA p (by simp)
      have hp : lo p ≤ n := by simpa using hle p (by simp)
      exact absurd hn.2 (by omega)
    · rw [mem_singleton.mp hp]

omit [CountsEntries H] in
/-- A conversion rebuilds the map around the unwritten extent the range is in, if there
is one. -/
theorem convertUnwrittenToData_eq (hP : P.Valid) (h : Sound P m)
    (hr : 0 < length ∧ offset + length ≤ u64Max) (locatorId : LocatorId) (checksum : Digest) (birthCommitGroup : ℕ) :
    (∃ e ∈ m.extents, e.extentType = .unwritten ∧ lo e ≤ offset ∧ offset + length ≤ hi e ∧
      convertUnwrittenToData P m offset length locatorId checksum birthCommitGroup =
        (rebuild P m (converted m.extents e (newData offset length locatorId checksum birthCommitGroup) offset
          (offset + length))).map fun m' => (m'.raiseFileSize (offset + length), .ok ())) ∨
    (¬ ∃ e ∈ m.extents, e.extentType = .unwritten ∧ lo e ≤ offset ∧ offset + length ≤ hi e) ∧
      convertUnwrittenToData P m offset length locatorId checksum birthCommitGroup = some (m, .error .notFound) := by
  rw [convertUnwrittenToData, if_neg (by omega), if_neg (by omega), h.floorEntry hP]
  rw [bind_some, map_map]
  -- an extent the range is in would be the one found
  have hfound : ∀ x ∈ m.extents, lo x ≤ offset → offset + length ≤ hi x →
      (m.extents.filter fun e => decide (lo e ≤ offset)).getLast? = some x := fun x hx h1 h2 =>
    last_of_covers h.layout hx ⟨h1, by omega⟩
  cases hlast : (m.extents.filter fun e => decide (lo e ≤ offset)).getLast? with
  | none =>
    refine .inr ⟨?_, rfl⟩
    rintro ⟨x, hx, -, h1, h2⟩
    rw [hfound x hx h1 h2] at hlast
    exact absurd hlast (by simp)
  | some e =>
    obtain ⟨he, hle⟩ := mem_filter.mp (mem_of_mem_getLast? hlast)
    have hlo : lo e ≤ offset := by simpa using hle
    rw [map_some]
    dsimp only [Function.comp_apply]
    rw [filter_some, endOffset_eq (h.layout.fits e he)]
    by_cases hu : (e.isUnwritten && decide (offset + length ≤ hi e)) = true
    · obtain ⟨hun, hhi⟩ := Bool.and_eq_true_iff.mp hu
      rw [decide_eq_true_eq] at hhi
      refine .inl ⟨e, he, (isUnwritten_iff e).mp hun, hlo, hhi, ?_⟩
      rw [if_pos hu]
      dsimp only
      rw [← lo_eq e, h.scan_before hP, bind_some, h.scan_from hP, bind_some]
      rfl
    · refine .inr ⟨?_, by rw [if_neg hu]⟩
      rintro ⟨x, hx, hxu, h1, h2⟩
      obtain rfl : e = x := some.inj (hlast.symm.trans (hfound x hx h1 h2))
      exact hu (Bool.and_eq_true_iff.mpr ⟨(isUnwritten_iff e).mpr hxu, by simpa using h2⟩)

theorem convertUnwrittenToData_change (hP : P.Valid) (h : Sound P m) (offset length : ℕ)
    (locatorId : LocatorId) (checksum : Digest) (birthCommitGroup : ℕ) :
    ∃ r, convertUnwrittenToData P m offset length locatorId checksum birthCommitGroup = some r ∧
      Change P deep m (.convertUnwrittenToData offset length locatorId checksum birthCommitGroup) r := by
  by_cases hr : 0 < length ∧ offset + length ≤ u64Max
  · rcases convertUnwrittenToData_eq hP h hr locatorId checksum birthCommitGroup with
      ⟨e, he, hu, hlo, hhi, heq⟩ | ⟨hno, heq⟩
    · obtain ⟨h1, h2⟩ := converted_spec
        (show lo e ≤ lo (newData offset length locatorId checksum birthCommitGroup) from hlo)
        (show offset < offset + length by omega) hhi h.layout he
      obtain ⟨m', h3, h4, h5, h6, h7, -⟩ := rebuild_counted hP m h1
      refine ⟨(m'.raiseFileSize (offset + length), .ok ()), heq.trans (congrArg (Option.map _) h3),
        .ok (h4.raiseFileSize _) ⟨hr.1, hr.2, e, he, hu, hlo, hhi⟩ ?_ (.inr ⟨fun _ => h6.raiseFileSize _, ?_⟩) ?_⟩
      · rw [extents_raiseFileSize, h5]
        exact funext h2
      · rw [fileSize_raiseFileSize]
        exact ⟨h7.trans (le_max_left ..), le_max_right ..⟩
      · rw [extents_raiseFileSize, h5]
        exact converted_kept he _ _
    · exact ⟨_, heq, .refused h (fun hacc => hno hacc.2.2) (by decide)⟩
  · rw [convertUnwrittenToData, invalid_range hr]
    exact ⟨_, rfl, .refused h (fun hacc => hr ⟨hacc.1, hacc.2.1⟩) (by decide)⟩

theorem zeroRange_change (hP : P.Valid) (h : Sound P m) (offset length : ℕ) :
    ∃ r, zeroRange P m offset length = some r ∧ Change P deep m (.zeroRange offset length) r := by
  obtain ⟨r, h1, h2⟩ := @punchHole_change P H m hP h _ _ deep offset length
  exact ⟨r, h1, ⟨h2.sound, h2.full, h2.bytes⟩, h2.sized, h2.kept⟩

theorem insertable_unwritten (h : 0 < length ∧ offset + length ≤ u64Max) :
    Insertable [newUnwritten offset length 0] :=
  ⟨forall_mem_singleton.mpr h.1, forall_mem_singleton.mpr h.2, pairwise_singleton ..⟩

variable {insertExtent : TreeMap H → List ExtentMapEntryV2 → Option (TreeMap H × Outcome Unit)}

theorem fallocateWith_change (h : Sound P m) (hins : ∀ entries, (∀ e ∈ entries, Fits e) →
      ∃ r, insertExtent m entries = some r ∧ Change P deep m (.insertExtent entries) r)
    (offset length : ℕ) (keepSize : Bool) : ∃ r, fallocateWith insertExtent m offset length keepSize = some r ∧
      Change P deep m (.fallocate offset length keepSize) r := by
  unfold fallocateWith
  by_cases hr : 0 < length ∧ offset + length ≤ u64Max
  · have hnew := insertable_unwritten hr
    obtain ⟨⟨m', r⟩, h1, h2⟩ := hins _ hnew.fits
    rw [if_neg (by omega), if_neg (by omega), h1, map_some]
    rcases h2.bytes with ⟨-, h3, h4⟩ | ⟨h3, -⟩
    · have hbytes : content m'.extents =
          applyOp m.fileSize (content m.extents) (.fallocate offset length keepSize) := by
        refine h4.trans (funext fun b => ?_)
        show (content [newUnwritten offset length 0] b).or _ = _
        rw [content_cons, content_nil]
        split_ifs with hb
        · exact (if_pos hb).symm
        · exact (if_neg hb).symm
      have hsized : (Counted m → Counted m') ∧ m.fileSize ≤ m'.fileSize := by
        rcases h2.sized with h5 | ⟨h5, h6⟩
        · obtain rfl : m' = m := h5
          exact ⟨id, le_rfl⟩
        · exact ⟨h5, h6.1⟩
      cases r with
      | ok _ =>
        refine ⟨_, rfl, .ok (h2.sound.setFileSize _) hr hbytes (.inr ⟨fun hc => (hsized.1 hc).setFileSize _, ?_⟩) h2.kept⟩
        show m.fileSize ≤ (m'.setFileSize _).fileSize
        rw [fileSize_setFileSize]
        split_ifs with hk
        · rfl
        · exact hsized.2.trans (le_max_left ..)
      | error e => exact ⟨_, rfl, ⟨h2.sound, h2.full, .inl ⟨hr, h3, hbytes⟩⟩, .inr hsized, h2.kept⟩
    · exact absurd hnew h3
  · rw [invalid_range hr]
    exact ⟨_, rfl, .refused h hr (by decide)⟩

/-- **Each operation changes the mapping as it should**, if inserting and collapsing do. -/
theorem stepWith_change (hP : P.Valid)
    {collapseRange : TreeMap H → ℕ → ℕ → Option (TreeMap H × Reply)} (h : Sound P m)
    (hins : ∀ entries, (∀ e ∈ entries, Fits e) →
      ∃ r, insertExtent m entries = some r ∧ Change P deep m (.insertExtent entries) r)
    (hcol : ∀ offset length, ∃ r, collapseRange m offset length = some r ∧
      Change P deep m (.collapseRange offset length) r) (hop : op.Fits) :
    ∃ r, stepWith P insertExtent collapseRange m op = some r ∧ Change P deep m op r := by
  cases op with
  | insertExtent entries =>
    obtain ⟨r, h1, h2⟩ := hins entries hop
    exact ⟨_, by rw [stepWith, h1, map_some], h2.map _⟩
  | truncate newSize => exact truncate_change hP h newSize
  | punchHole offset length => exact punchHole_change hP h offset length
  | zeroRange offset length => exact zeroRange_change hP h offset length
  | collapseRange offset length => exact hcol offset length
  | convertUnwrittenToData offset length locatorId checksum birthCommitGroup =>
    obtain ⟨r, h1, h2⟩ := @convertUnwrittenToData_change P H m _ _ deep hP h offset length locatorId
      checksum birthCommitGroup
    exact ⟨_, by rw [stepWith, h1, map_some], h2.map _⟩
  | fallocate offset length keepSize =>
    obtain ⟨r, h1, h2⟩ := fallocateWith_change h hins offset length keepSize
    exact ⟨_, by rw [stepWith, h1, map_some], h2.map _⟩

/-! ### The two versions -/

theorem insertable_iff (hf : ∀ e ∈ entries, Fits e) :
    Insertable entries ↔ (∀ e ∈ entries, 0 < e.length) ∧ anyOverlap entries = false := by
  rw [anyOverlap_eq_false hf]
  exact ⟨fun h => ⟨h.pos, h.disjoint⟩, fun h => ⟨h.1, hf, h.2⟩⟩

theorem Insertable.nil : Insertable [] := ⟨by simp, by simp, .nil⟩

/-- Insertion overwrites, whatever is reported of the map in the end. -/
theorem insertWith_change (hP : P.Valid) (h : Sound P m) (bad : ExtentMapEntryV2 → Bool)
    (report : TreeMap H → Outcome Unit) (hbad : ∀ e, Fits e → (bad e = true ↔ e.length = 0))
    (hreport : ∀ m, carriedOut (report m) = true) (hfull : ∀ m, report m = .error .mapFull → deep = true)
    (hf : ∀ e ∈ entries, Fits e) :
    ∃ r, insertWith P bad report m entries = some r ∧ Change P deep m (.insertExtent entries) r := by
  unfold insertWith
  by_cases hnil : entries.isEmpty = true
  · refine ⟨_, if_pos hnil, .ok h ?_ ?_ (.inl rfl) fun _ _ hes _ => hes⟩
    · rw [isEmpty_iff.mp hnil]
      exact Insertable.nil
    · rw [isEmpty_iff.mp hnil]
      rfl
  · rw [if_neg hnil]
    by_cases hany : entries.any bad = true
    · refine ⟨_, if_pos hany, .refused h (fun hacc => ?_) (by decide)⟩
      obtain ⟨e, he, hb⟩ := any_eq_true.mp hany
      have hpos := hacc.pos e he
      have := (hbad e (hf e he)).mp hb
      omega
    · rw [if_neg hany]
      have hpos : ∀ e ∈ entries, 0 < e.length := fun e he => by
        by_contra h0
        exact hany (any_eq_true.mpr ⟨e, he, (hbad e (hf e he)).mpr (by omega)⟩)
      by_cases hover : anyOverlap entries = true
      · refine ⟨_, if_pos hover, .refused h (fun hacc => ?_) (by decide)⟩
        rw [((insertable_iff hf).mp hacc).2] at hover
        exact Bool.noConfusion hover
      · have hnew := (insertable_iff hf).mpr ⟨hpos, by simpa using hover⟩
        obtain ⟨h1, h2⟩ := inserted_spec h.layout hnew
        obtain ⟨m', h3, h4, h5, h6, h7, h8⟩ := rebuild_counted hP m h1
        rw [if_neg hover, insertChecked_eq hP h, h3, map_some]
        refine ⟨_, rfl, ⟨h4, hfull m', .inl ⟨hnew, hreport m', ?_⟩⟩, .inr ⟨fun _ => h6, h7, h5.symm ▸ h8⟩, ?_⟩
        · rw [h5]
          exact funext h2
        · rw [h5]
          exact inserted_kept

/-- What version 2 refuses at once. -/
theorem BTreeExtentMap.bad_iff (e : ExtentMapEntryV2) (he : Fits e) :
    (e.length == 0 || decide (u64Max < e.logicalOffset + e.length)) = true ↔ e.length = 0 := by
  have hfit : ¬ u64Max < e.logicalOffset + e.length := not_lt.mpr he
  simp [hfit]

theorem BTreeExtentMap.insertExtent_change (hP : P.Valid) {m : BTreeExtentMap} (h : Sound P m)
    (hf : ∀ e ∈ entries, Fits e) :
    ∃ r, BTreeExtentMap.insertExtent P m entries = some r ∧ Change P false m (.insertExtent entries) r := by
  exact insertWith_change hP h _ (fun _ => .ok ()) bad_iff (fun _ => rfl) (fun _ he => nomatch he) hf

/-- The depth of the tree only decides what is reported. -/
theorem carriedOut_checkDepth (m : MultiLevelBTreeExtentMap) :
    carriedOut (checkDepth m) = true := by
  unfold checkDepth
  split_ifs <;> rfl

variable {m : MultiLevelBTreeExtentMap}

theorem MultiLevelBTreeExtentMap.insertExtent_change (hP : P.Valid) (h : Sound P m) (hf : ∀ e ∈ entries, Fits e) :
    ∃ r, MultiLevelBTreeExtentMap.insertExtent P m entries = some r ∧ Change P true m (.insertExtent entries) r :=
  insertWith_change hP h _ _ (fun _ _ => beq_iff_eq) carriedOut_checkDepth (fun _ _ => rfl) hf

theorem MultiLevelBTreeExtentMap.collapseRange_change (hP : P.Valid) (h : Sound P m)
    (offset length : ℕ) : ∃ r, MultiLevelBTreeExtentMap.collapseRange P m offset length = some r ∧
      Change P true m (.collapseRange offset length) r := by
  obtain ⟨⟨m', r⟩, h1, h2⟩ := @ExtentMap.collapseRange_change P _ m hP h _ _ true offset length
  unfold collapseRange
  rw [h1, map_some]
  cases r with
  | error e => exact ⟨_, rfl, h2⟩
  | ok freed =>
    refine ⟨_, rfl, ⟨h2.sound, fun _ => rfl, ?_⟩, h2.sized, h2.kept⟩
    rcases h2.bytes with ⟨h3, -, h4⟩ | ⟨-, h3, -⟩
    · refine .inl ⟨h3, ?_, h4⟩
      unfold checkDepth
      split_ifs <;> rfl
    · exact Bool.noConfusion h3

theorem BTreeExtentMap.step_change (hP : P.Valid) {m : BTreeExtentMap} (h : Sound P m) (hop : op.Fits) :
    ∃ r, BTreeExtentMap.step P m op = some r ∧ Change P false m op r :=
  stepWith_change hP h (fun _ hf => insertExtent_change hP h hf) (ExtentMap.collapseRange_change hP h) hop

theorem MultiLevelBTreeExtentMap.step_change (hP : P.Valid) (h : Sound P m)
    (hop : op.Fits) : ∃ r, MultiLevelBTreeExtentMap.step P m op = some r ∧ Change P true m op r :=
  stepWith_change hP h (fun _ hf => insertExtent_change hP h hf)
    (collapseRange_change hP h) hop

/-! ### Whole runs -/

/-- A call of a run: the size of the file it found, and what it returned. -/
structure Call where
  op : Op
  size : ℕ
  reply : Reply

def runWith (step : TreeMap H → Op → Option (TreeMap H × Reply)) : TreeMap H → List Op → Option (TreeMap H × List Call)
  | m, [] => some (m, [])
  | m, op :: ops =>
    (step m op).bind fun r => (runWith step r.1 ops).map fun s => (s.1, ⟨op, m.fileSize, r.2⟩ :: s.2)

/-- The mapping after the calls. -/
def replay : ByteMap → List Call → ByteMap
  | bytes, [] => bytes
  | bytes, c :: calls => replay (if carriedOut c.reply then applyOp c.size bytes c.op else bytes) calls

variable {step : TreeMap H → Op → Option (TreeMap H × Reply)}

theorem runWith_spec
    (hstep : ∀ {m : TreeMap H}, Sound P m → ∀ {op : Op}, op.Fits → ∃ r, step m op = some r ∧ Change P deep m op r) :
    ∀ (ops : List Op) {m : TreeMap H}, Sound P m → (∀ op ∈ ops, op.Fits) →
    ∃ m' calls, runWith step m ops = some (m', calls) ∧ Sound P m' ∧ calls.map Call.op = ops ∧
      (∀ c ∈ calls, c.reply = .error .mapFull → deep = true) ∧ content m'.extents = replay (content m.extents) calls
  | [], m, h, _ => ⟨m, [], rfl, h, rfl, by simp, rfl⟩
  | op :: ops, m, h, hops => by
    obtain ⟨hop, hops'⟩ := forall_mem_cons.mp hops
    obtain ⟨r, h1, h2⟩ := hstep h hop
    obtain ⟨m', calls, h3, h4, h5, h6, h7⟩ := runWith_spec hstep ops h2.sound hops'
    refine ⟨m', ⟨op, m.fileSize, r.2⟩ :: calls, ?_, h4, ?_, forall_mem_cons.mpr ⟨h2.full, h6⟩, ?_⟩
    · rw [runWith, h1, bind_some, h3, map_some]
    · rw [map_cons, h5]
    · rw [h7, replay]
      rcases h2.bytes with ⟨-, h8, h9⟩ | ⟨-, h8, h9⟩
      · rw [if_pos h8, h9]
      · rw [if_neg (by simp [h8]), h9]

/-- The map keeps the bytes: its extents map them, lookups return them piece by piece,
and the next operation is carried out exactly if it is acceptable. -/
structure Agrees (step : TreeMap H → Op → Option (TreeMap H × Reply)) (m : TreeMap H) (bytes : ByteMap) : Prop where
  extents : Tiles m.extents ∧ content m.extents = bytes
  lookup : ∀ offset length, 0 < length → offset + length ≤ u64Max →
    ∃ pieces, lookupRange m offset length = some (.ok pieces) ∧ Tiles pieces ∧
      (∀ x ∈ pieces, offset ≤ lo x ∧ hi x ≤ offset + length) ∧
      ∀ b, content pieces b = if offset ≤ b ∧ b < offset + length then bytes b else none
  refuses : ∀ offset length, ¬ (0 < length ∧ offset + length ≤ u64Max) →
    lookupRange m offset length = some (.error .invalidRange)
  next : ∀ op, op.Fits → ∃ r, step m op = some r ∧ (carriedOut r.2 = true ↔ Accepts m op)

theorem agrees_of_sound (hP : P.Valid)
    (hstep : ∀ {m : TreeMap H}, Sound P m → ∀ {op : Op}, op.Fits → ∃ r, step m op = some r ∧ Change P deep m op r)
    {m : TreeMap H} (h : Sound P m) {bytes : ByteMap} (hb : content m.extents = bytes) : Agrees step m bytes := by
  refine ⟨⟨h.layout.tiles, hb⟩, fun offset length hl hend => ?_, fun offset length hr => ?_, fun op hop => ?_⟩
  · obtain ⟨h1, h2, h3⟩ := clipped_spec h.layout (Nat.le_add_right offset length)
    refine ⟨_, lookupRange_spec hP h hl hend, h1.tiles, h2, fun b => ?_⟩
    rw [h3, hb]
  · rw [lookupRange, invalid_range hr]
  · obtain ⟨r, h1, h2⟩ := hstep h hop
    refine ⟨r, h1, ?_⟩
    rcases h2.bytes with ⟨h3, h4, -⟩ | ⟨h3, h4, -⟩
    · exact ⟨fun _ => h3, fun _ => h4⟩
    · exact ⟨fun h5 => by rw [h4] at h5; exact Bool.noConfusion h5, fun h5 => absurd h5 h3⟩

/-- The fanouts of the extent trees, `EXTENT_MAP_LEAF_ENTRIES_ESTIMATE`. -/
def extentParams (blake3 : List UInt8 → Digest) : Params := ⟨45, 45, blake3⟩

theorem extentParams_valid (blake3 : List UInt8 → Digest) : (extentParams blake3).Valid :=
  ⟨show 1 ≤ 45 by omega, show 3 ≤ 45 by omega⟩

/-- **The extent maps refine a mapping of bytes.** After any operations on entries that do
not wrap around, each version of the map stands for what the operations carried out make
of the empty mapping; version 2 never reports a full map. -/
theorem extent_maps_refine_bytes (blake3 : List UInt8 → Digest) (ops : List Op) (hops : ∀ op ∈ ops, op.Fits) :
    (∃ m calls, runWith (BTreeExtentMap.step (extentParams blake3)) (BTreeExtentMap.new (extentParams blake3)) ops =
        some (m, calls) ∧ calls.map Call.op = ops ∧ (∀ c ∈ calls, c.reply ≠ .error .mapFull) ∧
      Agrees (BTreeExtentMap.step (extentParams blake3)) m (replay (fun _ => none) calls)) ∧
    ∃ m calls, runWith (MultiLevelBTreeExtentMap.step (extentParams blake3))
        (MultiLevelBTreeExtentMap.new (extentParams blake3)) ops = some (m, calls) ∧ calls.map Call.op = ops ∧
      Agrees (MultiLevelBTreeExtentMap.step (extentParams blake3)) m (replay (fun _ => none) calls) := by
  have hP := extentParams_valid blake3
  constructor
  · obtain ⟨m, calls, h1, h2, h3, h4, h5⟩ :=
      runWith_spec (fun h _ hop => BTreeExtentMap.step_change hP h hop) ops (sound_new ExtentMapV2.new) hops
    refine ⟨m, calls, h1, h3, fun c hc he => Bool.noConfusion (h4 c hc he), ?_⟩
    exact agrees_of_sound hP (fun h _ hop => BTreeExtentMap.step_change hP h hop) h2 h5
  · obtain ⟨m, calls, h1, h2, h3, -, h5⟩ :=
      runWith_spec (fun h _ hop => MultiLevelBTreeExtentMap.step_change hP h hop) ops (sound_new ExtentMapV3.new) hops
    exact ⟨m, calls, h1, h3, agrees_of_sound hP (fun h _ hop => MultiLevelBTreeExtentMap.step_change hP h hop) h2 h5⟩

/-- Preallocation, a conversion in the middle of it, a hole and a collapse. -/
def sampleOps : List Op :=
  [.fallocate 0 100 false, .convertUnwrittenToData 10 20 7 (Vector.replicate 32 1) 3, .punchHole 40 5,
    .insertExtent [newData 200 8 9 (Vector.replicate 32 2) 4, newData 90 20 5 (Vector.replicate 32 3) 4],
    .collapseRange 50 16, .truncate 64]

/-- A run of version 2, and what a lookup says after it. -/
theorem extent_maps_refine_bytes_sample : (∀ op ∈ sampleOps, op.Fits) ∧
    ∃ m calls, runWith (BTreeExtentMap.step (extentParams fun _ => Vector.replicate 32 0))
        (BTreeExtentMap.new (extentParams fun _ => Vector.replicate 32 0)) sampleOps = some (m, calls) ∧
      calls.map Call.op = sampleOps ∧ ∃ pieces, lookupRange m 5 50 = some (.ok pieces) ∧ Tiles pieces ∧
        ∀ b, content pieces b = if 5 ≤ b ∧ b < 55 then replay (fun _ => none) calls b else none := by
  have hfits : ∀ op ∈ sampleOps, op.Fits := by
    intro op hop
    simp only [sampleOps, mem_cons, not_mem_nil, or_false] at hop
    rcases hop with rfl | rfl | rfl | rfl | rfl | rfl
    · trivial
    · trivial
    · trivial
    · show ∀ e ∈ _, Fits e
      decide
    · trivial
    · trivial
  refine ⟨hfits, ?_⟩
  obtain ⟨⟨m, calls, h1, h2, -, h3⟩, -⟩ := extent_maps_refine_bytes (fun _ => Vector.replicate 32 0) sampleOps hfits
  obtain ⟨pieces, h4, h5, -, h6⟩ := h3.lookup 5 50 (by decide) (by decide)
  exact ⟨m, calls, h1, h2, pieces, h4, h5, h6⟩

end Tidefs.ExtentMap
