/-
# File sizes and counts of the tree-backed maps

The header of a map says how long the file is and how many extents there are. The
file never ends inside an extent that holds data: only space that was allocated in
advance may lie behind its end (`Within`). The count is at least the number of
extents; after a rebuild it is that number.

Every operation keeps this up (`Settled.after`). What it does to the size of the
file is said once for all representations (`SizeAfter`), and from the mapping of the
bytes after the operation the bound follows (`within_after`).
-/
import Tidefs.ExtentMap.Bytes

namespace Tidefs.ExtentMap

open Word Btree Spans Spans.HasSpan ExtentMapEntryV2 Option MultiLevelBTreeExtentMap

/-! ### Extents and the end of the file -/

/-- Only unwritten extents reach behind the end of the file. -/
def Within (size : ℕ) (es : List ExtentMapEntryV2) : Prop := ∀ e ∈ es, e.extentType ≠ .unwritten → hi e ≤ size

variable {size size' : ℕ} {es es' : List ExtentMapEntryV2} {op : Op}

theorem within_iff (h : Layout es) :
    Within size es ↔ ∀ b t, content es b = some t → t.extentType ≠ .unwritten → b < size := by
  constructor
  · intro hw b t hb ht
    obtain ⟨e, he, hcov, rfl⟩ := (content_eq_some h.tiles).mp hb
    exact lt_of_lt_of_le hcov.2 (hw e he ht)
  · intro hw e he ht
    have hpos := h.tiles.pos e he
    -- the last byte of the extent
    have hmaps : Maps es (hi e - 1) (tag e) := ⟨e, he, ⟨by omega, by omega⟩, rfl⟩
    have := hw _ _ ((content_eq_some h.tiles).mpr hmaps) ht
    omega

/-- The operation is carried out on a file of the size with these extents. -/
def AcceptsOn (size : ℕ) (es : List ExtentMapEntryV2) : Op → Prop
  | .insertExtent entries => Insertable entries
  | .truncate _ => True
  | .punchHole offset length | .zeroRange offset length | .fallocate offset length _ =>
    0 < length ∧ offset + length ≤ u64Max
  | .collapseRange offset length => length = 0 ∨ offset + length ≤ u64Max ∧ offset + length ≤ size
  | .convertUnwrittenToData offset length _ _ _ =>
    0 < length ∧ offset + length ≤ u64Max ∧
      ∃ e ∈ es, e.extentType = .unwritten ∧ lo e ≤ offset ∧ offset + length ≤ hi e

theorem accepts_iff {H : Type} [MapHeader H] (m : TreeMap H) (op : Op) :
    Accepts m op ↔ AcceptsOn m.fileSize m.extents op := by
  cases op <;> exact Iff.rfl

/-- A range of bytes was mapped anew, and the rest is as before. -/
theorem within_patched (h : Layout es) (h' : Layout es') (hw : Within size es) (hle : size ≤ size') {a c : ℕ}
    {x : Option ByteTag} (hb : ∀ b, content es' b = if a ≤ b ∧ b < c then x else content es b)
    (hx : ∀ t, x = some t → t.extentType ≠ .unwritten → c ≤ size') : Within size' es' := by
  refine (within_iff h').mpr fun b t ht hu => ?_
  rw [hb] at ht
  by_cases hin : a ≤ b ∧ b < c
  · exact lt_of_lt_of_le hin.2 (hx t ((if_pos hin).symm.trans ht) hu)
  · exact lt_of_lt_of_le ((within_iff h).mp hw b t ((if_neg hin).symm.trans ht) hu) hle

/-- **Data stays within the file**, if the size is that large. -/
theorem within_after (h : Layout es) (h' : Layout es') (hw : Within size es) (hacc : AcceptsOn size es op)
    (hb : content es' = applyOp size (content es) op) (hs : SizeAfter size es' size' op) : Within size' es' := by
  have hw' := (within_iff h).mp hw
  cases op with
  | insertExtent entries => exact fun e he _ => hs.2 e he
  | punchHole offset length => exact within_patched h h' hw hs (congrFun hb) fun t ht => nomatch ht
  | zeroRange offset length => exact within_patched h h' hw hs (congrFun hb) fun t ht => nomatch ht
  | convertUnwrittenToData offset length locatorId checksum birthCommitGroup =>
    exact within_patched h h' hw hs.1 (congrFun hb) fun _ _ _ => hs.2
  | fallocate offset length keepSize =>
    refine within_patched h h' hw hs (congrFun hb) fun t ht hu => ?_
    obtain rfl := some.inj ht
    exact absurd rfl hu
  | truncate newSize =>
    refine (within_iff h').mpr fun b t ht hu => ?_
    rw [hb] at ht
    have hs : newSize ≤ size' := hs
    by_cases hcut : newSize < size ∧ newSize ≤ b
    · exact absurd ((if_pos hcut).symm.trans ht) (by simp)
    · have := hw' b t ((if_neg hcut).symm.trans ht) hu
      omega
  | collapseRange offset length =>
    refine (within_iff h').mpr fun b t ht hu => ?_
    rw [hb] at ht
    have hs : size - length ≤ size' := hs
    have hacc : length = 0 ∨ offset + length ≤ u64Max ∧ offset + length ≤ size := hacc
    have := hw' _ t ht hu
    split_ifs at this with hbefore
    · omega
    · omega

/-! ### Settled maps -/

variable {P : Params} {H : Type} [MapHeader H] [CountsEntries H] {m : TreeMap H}

/-- A map as every operation leaves it. -/
structure Settled (P : Params) (m : TreeMap H) : Prop where
  sound : Sound P m
  counted : Counted m
  within : Within m.fileSize m.extents

theorem settled_new (h : H) : Settled P (⟨h, BPlusTree.new P⟩ : TreeMap H) :=
  ⟨sound_new h, Nat.zero_le _, fun _ he => nomatch (show _ ∈ [] from he)⟩

/-- **An operation leaves a settled map.** -/
theorem Settled.after (h : Settled P m) {deep : Bool} {α : Type} {r : TreeMap H × Outcome α}
    (hc : Change P deep m op r) : Settled P r.1 := by
  rcases hc.sized with hs | ⟨h1, h2⟩
  · rw [hs]
    exact h
  · refine ⟨hc.sound, h1 h.counted, ?_⟩
    rcases hc.bytes with ⟨h3, -, h4⟩ | ⟨-, -, h3⟩
    · exact within_after h.sound.layout hc.sound.layout h.within ((accepts_iff m op).mp h3) h4 h2
    · rw [h3]
      exact h.within

theorem BTreeExtentMap.step_settled (hP : P.Valid) {m : BTreeExtentMap} (h : Settled P m) (hop : op.Fits)
    {r : BTreeExtentMap × Reply} (hr : BTreeExtentMap.step P m op = some r) : Settled P r.1 := by
  obtain ⟨r', h1, h2⟩ := BTreeExtentMap.step_change hP h.sound hop
  obtain rfl := some.inj (hr.symm.trans h1)
  exact h.after h2

theorem MultiLevelBTreeExtentMap.step_settled (hP : P.Valid) {m : MultiLevelBTreeExtentMap} (h : Settled P m)
    (hop : op.Fits) {r : MultiLevelBTreeExtentMap × Reply} (hr : step P m op = some r) :
    Settled P r.1 := by
  obtain ⟨r', h1, h2⟩ := step_change hP h.sound hop
  obtain rfl := some.inj (hr.symm.trans h1)
  exact h.after h2

end Tidefs.ExtentMap
