/-
# The inline extent map

`InlineExtentMap` (version 1) keeps at most six extents in a sorted vector. New extents
are inserted one after the other, each cut into those that are there, and neighbours
are joined; an insertion that leaves more than six extents is refused. Holes and
conversions are not checked for the number of extents they leave.

On extents in order every operation does to the mapping of the bytes what it does in
the tree-backed maps (`Does`), as it forms the same extents: an insertion those of the
merge of `applyInserts` (`insertLoop_eq`).
-/
import Tidefs.ExtentMap.Sizes

namespace Tidefs.ExtentMap

open Word Btree Spans Spans.HasSpan ExtentMapEntryV2 List Layout Nat

namespace ExtentMapEntryV2

def isData (e : ExtentMapEntryV2) : Bool := e.extentKind == kindData

def isPendingData (e : ExtentMapEntryV2) : Bool := e.extentKind == kindPendingData

end ExtentMapEntryV2

/-- Header of a version 1 map. -/
structure ExtentMapV1 where
  entryCount : ℕ
  allocBytes : ℕ
  fileSize : ℕ
deriving DecidableEq

/-- The first version: a list. -/
structure InlineExtentMap where
  header : ExtentMapV1
  entries : List ExtentMapEntryV2
deriving DecidableEq

def extentMapV1MaxEntries : ℕ := 6

/-- The end of a `CheckedExtentRange`. -/
def checkedEnd (e : ExtentMapEntryV2) : Outcome ℕ :=
  if e.length = 0 then .error .invalidRange
  else if u64Max < e.logicalOffset + e.length then .error .invalidRange
  else .ok (e.logicalOffset + e.length)

/-- `CheckedExtentRange::intersects`, on ranges that do not wrap around. -/
def rangesIntersect (a b : ExtentMapEntryV2) : Bool :=
  decide (a.logicalOffset < b.logicalOffset + b.length) && decide (b.logicalOffset < a.logicalOffset + a.length)

def anyIntersect : List ExtentMapEntryV2 → Bool
  | [] => false
  | e :: es => es.any (rangesIntersect e) || anyIntersect es

/-- The loop of `insert_single` over the existing entries. -/
def insertLoop (new : ExtentMapEntryV2) (newEnd : ℕ) : List ExtentMapEntryV2 → Bool → Outcome (List ExtentMapEntryV2)
  | [], inserted => .ok (if inserted then [] else [new])
  | e :: es, inserted => do
    let entryEnd ← checkedEnd e
    if entryEnd ≤ new.logicalOffset then
      let rest ← insertLoop new newEnd es inserted
      .ok (e :: rest)
    else if newEnd ≤ e.logicalOffset then
      let rest ← insertLoop new newEnd es true
      .ok ((if inserted then [] else [new]) ++ e :: rest)
    else
      let rest ← insertLoop new newEnd es true
      .ok ((if e.logicalOffset < new.logicalOffset then [e.within e.logicalOffset new.logicalOffset] else []) ++
        (if inserted then [] else [new]) ++ (if newEnd < entryEnd then [e.within newEnd entryEnd] else []) ++ rest)

namespace InlineExtentMap

def new : InlineExtentMap := ⟨⟨0, 0, 0⟩, []⟩

variable (m : InlineExtentMap)

def repairStats : InlineExtentMap :=
  { m with header := { m.header with entryCount := m.entries.length, allocBytes := allocatedBytes m.entries } }

/-- `if end > file_size { file_size = end }`. -/
def raiseFileSize (n : ℕ) : InlineExtentMap :=
  if m.header.fileSize < n then { m with header := { m.header with fileSize := n } } else m

def insertSingle (newEntry : ExtentMapEntryV2) : Outcome InlineExtentMap := do
  let newEnd ← checkedEnd newEntry
  let result ← insertLoop newEntry newEnd m.entries false
  let merged := mergeAdjacent result
  if extentMapV1MaxEntries < merged.length then .error .mapFull else .ok { m with entries := merged }

/-! ### Operations -/

/-- The search finds the first entry that ends after the offset. -/
def lookupRange (offset length : ℕ) : Outcome (List ExtentMapEntryV2) :=
  if length = 0 then .error .invalidRange
  else if u64Max < offset + length then .error .invalidRange
  else
    let stop := offset + length
    .ok (((m.entries.dropWhile fun e => e.endOffset ≤ offset).takeWhile fun e => e.logicalOffset < stop).map fun e =>
      if offset ≤ e.logicalOffset ∧ e.endOffset ≤ stop then e
      else e.within (max e.logicalOffset offset) (min e.endOffset stop))

/-- The part of `insert_extent` that can fail. -/
def stageInsert (entries : List ExtentMapEntryV2) : Outcome InlineExtentMap := do
  let _ ← entries.mapM checkedEnd
  if anyIntersect entries then .error .overlappingExtent
  else
    let staged ← (sortByOffset entries).foldlM insertSingle m
    let staged := staged.repairStats
    let maxEnd ← staged.entries.foldlM (fun maxEnd e => (checkedEnd e).map (max maxEnd)) 0
    .ok (staged.raiseFileSize maxEnd)

def insertExtent (entries : List ExtentMapEntryV2) : InlineExtentMap × Outcome Unit :=
  if entries.isEmpty then (m, .ok ())
  else
    match m.stageInsert entries with
    | .error e => (m, .error e)
    | .ok staged => (staged, .ok ())

/-- `last.length = new_size - last.logical_offset`, if the last entry ends after it. -/
def trimLast (newSize : ℕ) : List ExtentMapEntryV2 → List ExtentMapEntryV2
  | [] => []
  | [e] => [if newSize < e.endOffset then { e with length := newSize - e.logicalOffset } else e]
  | e :: e' :: es => e :: trimLast newSize (e' :: es)

def truncate (newSize : ℕ) : InlineExtentMap × Outcome (List FreedExtent) :=
  if m.header.fileSize ≤ newSize then (m.raiseFileSize newSize, .ok [])
  else
    let freed := m.entries.flatMap fun e =>
      if newSize ≤ e.logicalOffset then [⟨e.logicalOffset, e.length, e.locatorId, e.extentType⟩]
      else if newSize < e.endOffset then [e.freed newSize e.endOffset]
      else []
    let entries := trimLast newSize (m.entries.filter fun e => e.logicalOffset < newSize)
    (({ m with header := { m.header with fileSize := newSize }, entries } : InlineExtentMap).repairStats, .ok freed)

def punchHole (offset length : ℕ) : InlineExtentMap × Outcome (List FreedExtent) :=
  if length = 0 then (m, .error .invalidRange)
  else if u64Max < offset + length then (m, .error .invalidRange)
  else
    let stop := offset + length
    let result := m.entries.flatMap fun e =>
      if e.endOffset ≤ offset ∨ stop ≤ e.logicalOffset then [e]
      else
        (if e.logicalOffset < offset then [e.within e.logicalOffset offset] else []) ++
          if stop < e.endOffset then [e.within stop e.endOffset] else []
    let freed := m.entries.flatMap fun e =>
      if e.endOffset ≤ offset ∨ stop ≤ e.logicalOffset then []
      else freedPart e (max e.logicalOffset offset) (min e.endOffset stop)
    ((({ m with entries := mergeAdjacent (retainNonempty result) } : InlineExtentMap).raiseFileSize stop).repairStats,
      .ok freed)

/-- `collapse_entries`, for a range that does not wrap around. -/
def collapseEntries (entries : List ExtentMapEntryV2) (offset length : ℕ) : List ExtentMapEntryV2 × List FreedExtent :=
  let stop := offset + length
  (retainNonempty (entries.flatMap fun e =>
      if e.endOffset ≤ offset then [e]
      else if stop ≤ e.logicalOffset then [{ e with logicalOffset := e.logicalOffset - length }]
      else
        (if e.logicalOffset < offset then [e.within e.logicalOffset offset] else []) ++
          if stop < e.endOffset then [{ e with logicalOffset := offset, length := e.endOffset - stop }] else []),
    entries.flatMap fun e =>
      if e.endOffset ≤ offset ∨ stop ≤ e.logicalOffset then []
      else freedPart e (max e.logicalOffset offset) (min e.endOffset stop))

def collapseRange (offset length : ℕ) : InlineExtentMap × Outcome (List FreedExtent) :=
  if length = 0 then (m, .ok [])
  else if u64Max < offset + length then (m, .error .invalidRange)
  else if m.header.fileSize < offset + length then (m, .error .invalidRange)
  else
    let r := collapseEntries m.entries offset length
    let merged := mergeAdjacent r.1
    if extentMapV1MaxEntries < merged.length then (m, .error .mapFull)
    else
      (({ header := { m.header with fileSize := m.header.fileSize - length }, entries := merged } :
        InlineExtentMap).repairStats, .ok r.2)

def convertUnwrittenToData (offset length : ℕ) (locatorId : LocatorId) (checksum : Digest)
    (birthCommitGroup : ℕ) : InlineExtentMap × Outcome Unit :=
  if length = 0 then (m, .error .invalidRange)
  else if u64Max < offset + length then (m, .error .invalidRange)
  else
    let stop := offset + length
    let holds := fun e : ExtentMapEntryV2 =>
      e.isUnwritten && decide (e.logicalOffset ≤ offset) && decide (stop ≤ e.endOffset)
    match m.entries.find? holds with
    | none => (m, .error .notFound)
    | some e =>
      let idx := m.entries.findIdx holds
      let newEntries := m.entries.take idx ++
        (if e.logicalOffset < offset then [e.within e.logicalOffset offset] else []) ++
        [newData offset length locatorId checksum birthCommitGroup] ++
        (if stop < e.endOffset then [e.within stop e.endOffset] else []) ++ m.entries.drop (idx + 1)
      ((({ m with entries := mergeAdjacent newEntries } : InlineExtentMap).repairStats).raiseFileSize stop, .ok ())

def fallocate (offset length : ℕ) (keepSize : Bool) : InlineExtentMap × Outcome Unit :=
  if length = 0 then (m, .error .invalidRange)
  else if u64Max < offset + length then (m, .error .invalidRange)
  else
    match m.insertSingle (newUnwritten offset length 0) with
    | .error e => (m, .error e)
    | .ok m' =>
      (({ m' with header := { m'.header with
          fileSize := if keepSize then m'.header.fileSize else max m'.header.fileSize (offset + length) } } :
        InlineExtentMap).repairStats, .ok ())

def zeroRange (offset length : ℕ) : InlineExtentMap × Outcome (List FreedExtent) :=
  m.punchHole offset length

end InlineExtentMap

/-! ### Insertion is the merge -/

variable {es : List ExtentMapEntryV2} {e n : ExtentMapEntryV2}

theorem checkedEnd_eq (hpos : lo e < hi e) (hfit : Fits e) : checkedEnd e = .ok (hi e) := by
  have hlen : ¬ e.length = 0 := by rw [lo_eq, hi_eq] at hpos; omega
  rw [checkedEnd, if_neg hlen, if_neg (not_lt.mpr hfit)]
  rfl

theorem applyInserts_cons_nil (he : Fits e) (covered : ℕ) :
    applyInserts (e :: es) [] covered = existingFragment e (max (lo e) covered) (hi e) ++ applyInserts es [] covered := by
  rw [applyInserts, pushBefore]
  rw [pushOver, endOffset_eq he]
  rfl

/-- After the new entry went in, the rest is cut off at its end. -/
theorem insertLoop_true (hn : lo n < hi n) : ∀ {es : List ExtentMapEntryV2}, Layout es → (∀ e ∈ es, lo n ≤ lo e) →
    insertLoop n (hi n) es true = .ok (applyInserts es [] (hi n))
  | [], _, _ => rfl
  | e :: es, h, hafter => by
    obtain ⟨hpos, hfit, hes, -⟩ := cons_iff.mp h
    obtain ⟨hle, hafter'⟩ := forall_mem_cons.mp hafter
    have hrest := insertLoop_true hn hes hafter'
    rw [insertLoop, checkedEnd_eq hpos hfit, hrest, applyInserts_cons_nil hfit]
    simp only [bind, Except.bind]
    rw [← lo_eq e, ← lo_eq n, if_neg (by omega)]
    by_cases hbehind : hi n ≤ lo e
    · rw [if_pos hbehind, max_eq_left hbehind, existingFragment_self hpos]
      rfl
    · rw [if_neg hbehind, if_neg (by omega), max_eq_right (by omega), fragment_eq]
      rfl

/-- **The loop makes the same extents as the merge.** -/
theorem insertLoop_eq (hn : lo n < hi n) (hnfit : Fits n) : ∀ {es : List ExtentMapEntryV2}, Layout es →
    insertLoop n (hi n) es false = .ok (applyInserts es [n] 0)
  | [], _ => rfl
  | e :: es, h => by
    obtain ⟨hpos, hfit, hes, hapart⟩ := cons_iff.mp h
    rw [insertLoop, checkedEnd_eq hpos hfit, applyInserts, pushBefore, endOffset_eq hnfit]
    simp only [bind, Except.bind]
    rw [← lo_eq e, ← lo_eq n]
    by_cases hbefore : hi e ≤ lo n
    · -- the entry ends before the new one
      rw [if_pos hbefore, if_neg (by omega), insertLoop_eq hn hnfit hes]
      simp only [pushOver]
      rw [endOffset_eq hfit, ← lo_eq n, if_neg (by omega), max_zero, existingFragment_self hpos]
      rfl
    · have hafter : ∀ x ∈ es, lo n ≤ lo x := fun x hx => by
        have := hapart x hx
        omega
      rw [if_neg hbefore, insertLoop_true hn hes hafter]
      by_cases hbehind : hi n ≤ lo e
      · rw [if_pos hbehind, if_pos hbehind]
        simp only [pushBefore, pushOver]
        rw [endOffset_eq hfit, zero_max, max_eq_left hbehind, existingFragment_self hpos]
        rfl
      · rw [if_neg hbehind, if_neg hbehind]
        simp only [pushOver]
        rw [endOffset_eq hfit, endOffset_eq hnfit, ← lo_eq n, if_pos (not_le.mp hbefore), max_zero,
          max_eq_right (show lo e ≤ hi n by omega), zero_max]
        rw [fragment_eq, fragment_eq]
        by_cases hcut : hi e ≤ hi n
        · rw [if_pos hcut, existingFragment_of_le hcut]
          simp
        · rw [if_neg hcut]
          simp

theorem insertable_singleton (hn : lo n < hi n) (hnfit : Fits n) : Insertable [n] := by
  refine ⟨fun e he => ?_, fun e he => ?_, pairwise_singleton ..⟩
  · rw [mem_singleton.mp he]
    rw [lo_eq, hi_eq] at hn
    omega
  · rw [mem_singleton.mp he]
    exact hnfit

namespace InlineExtentMap

variable {m : InlineExtentMap}

/-- One new entry is inserted unless more than six extents would be left. -/
theorem insertSingle_eq (h : Layout m.entries) (hn : lo n < hi n) (hnfit : Fits n) :
    m.insertSingle n = if extentMapV1MaxEntries < (inserted m.entries [n]).length then .error .mapFull
      else .ok { m with entries := inserted m.entries [n] } := by
  have hlayout := (applyInserts_spec h (sortByOffset_layout (insertable_singleton hn hnfit))
    fun n _ => zero_le (lo n)).1
  have hins : inserted m.entries [n] = mergeAdjacent (applyInserts m.entries [n] 0) := by
    rw [inserted, retainNonempty_eq hlayout.tiles]
    rfl
  rw [insertSingle, checkedEnd_eq hn hnfit, hins]
  simp only [bind, Except.bind]
  rw [insertLoop_eq hn hnfit h]

end InlineExtentMap

/-! ### Several new entries -/

def insertedEach (es new : List ExtentMapEntryV2) : List ExtentMapEntryV2 :=
  new.foldl (fun es n => inserted es [n]) es

/-- Each of the new entries leaves at most six extents when it goes in. -/
def FitsInline : List ExtentMapEntryV2 → List ExtentMapEntryV2 → Prop
  | _, [] => True
  | es, n :: new => (inserted es [n]).length ≤ extentMapV1MaxEntries ∧ FitsInline (inserted es [n]) new

instance FitsInline.decidable : ∀ es new, Decidable (FitsInline es new)
  | _, [] => isTrue trivial
  | es, n :: new =>
    have := FitsInline.decidable (inserted es [n]) new
    inferInstanceAs (Decidable (_ ∧ _))

theorem insertedEach_spec : ∀ {new es : List ExtentMapEntryV2}, Layout es → Layout new →
    Layout (insertedEach es new) ∧ ∀ b, content (insertedEach es new) b = (content new b).or (content es b)
  | [], _, h, _ => ⟨h, fun _ => rfl⟩
  | n :: new, es, h, hnew => by
    obtain ⟨hpos, hfit, hrest, hapart⟩ := cons_iff.mp hnew
    obtain ⟨h1, h2⟩ := inserted_spec h (insertable_singleton hpos hfit)
    obtain ⟨h3, h4⟩ := insertedEach_spec h1 hrest
    refine ⟨h3, fun b => (h4 b).trans ?_⟩
    rw [h2, content_cons, content_cons, content_nil]
    by_cases hb : Covers n b
    · -- the later entries start behind this one
      have hnone : content new b = none := content_eq_none.mpr fun x hx hc => by
        have := hapart x hx
        have := hb.2
        have := hc.1
        omega
      rw [if_pos hb, if_pos hb, hnone]
      rfl
    · rw [if_neg hb, if_neg hb]
      rfl

theorem insertedEach_kept : ∀ {new es : List ExtentMapEntryV2}, Kept es new (insertedEach es new)
  | [], _, _, _, hes, _ => hes
  | n :: new, es, _, hQ, hes, hnew => by
    obtain ⟨hn, hnew'⟩ := forall_mem_cons.mp hnew
    exact @insertedEach_kept new (inserted es [n]) _ hQ (inserted_kept hQ hes (forall_mem_singleton.mpr hn)) hnew'

theorem insertEach_eq : ∀ {new : List ExtentMapEntryV2} {m : InlineExtentMap}, Layout m.entries → Layout new →
    new.foldlM InlineExtentMap.insertSingle m =
      if FitsInline m.entries new then .ok { m with entries := insertedEach m.entries new } else .error .mapFull
  | [], _, _, _ => (if_pos trivial).symm
  | n :: new, m, h, hnew => by
    obtain ⟨hpos, hfit, hrest, -⟩ := cons_iff.mp hnew
    obtain ⟨h1, -⟩ := inserted_spec h (insertable_singleton hpos hfit)
    rw [foldlM_cons, InlineExtentMap.insertSingle_eq h hpos hfit]
    by_cases hfull : extentMapV1MaxEntries < (inserted m.entries [n]).length
    · rw [if_pos hfull, if_neg fun hf => absurd hf.1 (not_le.mpr hfull)]
      rfl
    · rw [if_neg hfull]
      have hrec := @insertEach_eq new { m with entries := inserted m.entries [n] } h1 hrest
      refine hrec.trans (if_congr ?_ rfl rfl)
      exact ⟨fun hf => ⟨not_lt.mp hfull, hf⟩, fun hf => hf.2⟩

/-- An entry that starts behind all others, and does not end before any starts, is appended. -/
theorem applyInserts_behind : ∀ {es : List ExtentMapEntryV2}, Layout es →
    (∀ e ∈ es, hi e ≤ lo n ∧ lo e < n.endOffset) → applyInserts es [n] 0 = es ++ [n]
  | [], _, _ => rfl
  | e :: es, h, hbehind => by
    obtain ⟨hepos, hefit, hes, -⟩ := cons_iff.mp h
    obtain ⟨⟨he, hstart⟩, hbehind'⟩ := forall_mem_cons.mp hbehind
    have hrest := applyInserts_behind hes hbehind'
    rw [applyInserts, pushBefore, ← lo_eq e, if_neg (not_le.mpr hstart)]
    simp only [pushOver]
    rw [endOffset_eq hefit, ← lo_eq n, if_neg (not_lt.mpr he), max_zero, existingFragment_self hepos, hrest]
    rfl

theorem applyInserts_append (h : Layout es) (hpos : lo n < hi n) (hfit : Fits n) (hbefore : ∀ e ∈ es, hi e ≤ lo n) :
    applyInserts es [n] 0 = es ++ [n] := by
  refine applyInserts_behind h fun e he => ⟨hbefore e he, ?_⟩
  have := h.tiles.pos e he
  have := hbefore e he
  rw [endOffset_eq hfit]
  omega

theorem mergeLoop_length : ∀ (es : List ExtentMapEntryV2) (last : ExtentMapEntryV2),
    (mergeLoop last es).length ≤ es.length + 1
  | [], _ => le_rfl
  | e :: es, last => by
    rw [mergeLoop]
    split_ifs
    · exact (mergeLoop_length es _).trans (le_succ _)
    · exact succ_le_succ (mergeLoop_length es e)

theorem mergeAdjacent_length : ∀ es : List ExtentMapEntryV2, (mergeAdjacent es).length ≤ es.length
  | [] => le_rfl
  | e :: es => mergeLoop_length es e

theorem inserted_append (h : Layout (es ++ [n])) : inserted es [n] = mergeAdjacent (es ++ [n]) := by
  obtain ⟨hes, hn, hapart⟩ := append_iff.mp h
  obtain ⟨hpos, hfit, -, -⟩ := cons_iff.mp hn
  have happ := applyInserts_append hes hpos hfit fun e he => hapart e he n (by simp)
  show mergeAdjacent (retainNonempty (applyInserts es [n] 0)) = _
  rw [happ, retainNonempty_eq h.tiles]

/-- An entry behind the extents goes in before those behind it. -/
theorem inserted_step {new : List ExtentMapEntryV2} (h : Layout (es ++ n :: new)) :
    Layout (inserted es [n] ++ new) ∧ (inserted es [n]).length ≤ es.length + 1 := by
  have happ : es ++ n :: new = (es ++ [n]) ++ new := by simp
  obtain ⟨h1, h2, h3⟩ := append_iff.mp (happ ▸ h)
  obtain ⟨h4, h5⟩ := mergeAdjacent_spec h1
  rw [inserted_append h1]
  refine ⟨append_iff.mpr ⟨h4, h2, fun x hx y hy => ?_⟩, (mergeAdjacent_length _).trans (by simp)⟩
  -- an extent of the joined list ends with one of those it was joined from
  have hpos := h4.tiles.pos x hx
  have hmaps : Maps (mergeAdjacent (es ++ [n])) (hi x - 1) (tag x) := ⟨x, hx, ⟨by omega, by omega⟩, rfl⟩
  have hcontent := (content_eq_some h4.tiles).mpr hmaps
  rw [h5] at hcontent
  obtain ⟨z, hz, hcov, -⟩ := (content_eq_some h1.tiles).mp hcontent
  have := h3 z hz y hy
  have := hcov.2
  omega

/-- Few entries in order fit behind few extents. -/
theorem fitsInline_of_length : ∀ {new es : List ExtentMapEntryV2}, Layout (es ++ new) →
    es.length + new.length ≤ extentMapV1MaxEntries → FitsInline es new
  | [], _, _, _ => trivial
  | n :: new, es, h, hlen => by
    obtain ⟨h1, h2⟩ := inserted_step h
    rw [length_cons] at hlen
    exact ⟨by omega, fitsInline_of_length h1 (by omega)⟩

theorem insertedEach_length : ∀ {new es : List ExtentMapEntryV2}, Layout (es ++ new) →
    (insertedEach es new).length ≤ es.length + new.length
  | [], _, _ => le_rfl
  | n :: new, es, h => by
    obtain ⟨h1, h2⟩ := inserted_step h
    have hrec := insertedEach_length h1
    show (insertedEach (inserted es [n]) new).length ≤ es.length + (new.length + 1)
    omega

namespace InlineExtentMap

variable {m : InlineExtentMap}

/-! ### Insertion of a batch -/

theorem mapM_checkedEnd : ∀ entries : List ExtentMapEntryV2,
    (∃ ends, entries.mapM checkedEnd = .ok ends ∧ ∀ e ∈ entries, 0 < e.length ∧ Fits e) ∨
      ∃ e ∈ entries, ¬ (0 < e.length ∧ Fits e) ∧ entries.mapM checkedEnd = .error .invalidRange
  | [] => .inl ⟨[], rfl, by simp⟩
  | e :: entries => by
    rw [mapM_cons]
    by_cases he : 0 < e.length ∧ Fits e
    · have hpos : lo e < hi e := by rw [lo_eq, hi_eq]; omega
      rw [checkedEnd_eq hpos he.2]
      rcases mapM_checkedEnd entries with ⟨ends, h1, h2⟩ | ⟨x, hx, h1, h2⟩
      · refine .inl ⟨hi e :: ends, ?_, forall_mem_cons.mpr ⟨he, h2⟩⟩
        rw [h1]
        rfl
      · refine .inr ⟨x, mem_cons_of_mem e hx, h1, ?_⟩
        rw [h2]
        rfl
    · refine .inr ⟨e, mem_cons_self .., he, ?_⟩
      have hbad : checkedEnd e = .error .invalidRange := by
        unfold checkedEnd
        by_cases h0 : e.length = 0
        · exact if_pos h0
        · rw [if_neg h0]
          exact if_pos (not_le.mp fun hf => he ⟨by omega, hf⟩)
      rw [hbad]
      rfl

theorem anyIntersect_iff : ∀ {entries : List ExtentMapEntryV2},
    anyIntersect entries = false ↔ entries.Pairwise fun a b => hi a ≤ lo b ∨ hi b ≤ lo a
  | [] => by simp [anyIntersect]
  | e :: entries => by
    rw [anyIntersect, Bool.or_eq_false_iff, anyIntersect_iff, pairwise_cons, any_eq_false]
    refine and_congr_left fun _ => forall₂_congr fun x _ => ?_
    rw [rangesIntersect, Bool.and_eq_true, decide_eq_true_eq, decide_eq_true_eq, lo_eq, lo_eq, hi_eq, hi_eq]
    omega

theorem foldlM_checkedEnd : ∀ {es : List ExtentMapEntryV2} (a : ℕ), Layout es →
    es.foldlM (fun maxEnd e => (checkedEnd e).map (max maxEnd)) a =
      .ok (es.foldl (fun size e => max size (e.logicalOffset + e.length)) a)
  | [], _, _ => rfl
  | e :: es, a, h => by
    obtain ⟨hpos, hfit, hes, -⟩ := cons_iff.mp h
    rw [foldlM_cons, checkedEnd_eq hpos hfit]
    exact foldlM_checkedEnd (max a (hi e)) hes

theorem raiseFileSize_eq (m : InlineExtentMap) (k : ℕ) :
    m.raiseFileSize k = { m with header := { m.header with fileSize := max m.header.fileSize k } } := by
  unfold raiseFileSize
  split_ifs with h
  · rw [max_eq_right h.le]
  · rw [max_eq_left (not_lt.mp h)]

/-- The map after a batch that fits. -/
theorem stageInsert_eq (h : Layout m.entries) {entries : List ExtentMapEntryV2} (hnew : Insertable entries)
    (hfit : FitsInline m.entries (sortByOffset entries)) :
    m.stageInsert entries = .ok ((repairStats ⟨m.header, insertedEach m.entries (sortByOffset entries)⟩).raiseFileSize
      ((insertedEach m.entries (sortByOffset entries)).foldl (fun size e => max size (e.logicalOffset + e.length)) 0)) := by
  have hsorted := sortByOffset_layout hnew
  unfold stageInsert
  rcases mapM_checkedEnd entries with ⟨ends, h1, -⟩ | ⟨e, he, h1, -⟩
  · rw [h1, anyIntersect_iff.mpr hnew.disjoint]
    simp only [bind, Except.bind]
    rw [if_neg Bool.false_ne_true, insertEach_eq h hsorted, if_pos hfit]
    dsimp only [repairStats]
    rw [foldlM_checkedEnd 0 (insertedEach_spec h hsorted).1]
  · exact absurd ⟨hnew.pos e he, hnew.fits e he⟩ h1

/-- **A batch goes in exactly if its entries are valid and fit one after the other.** -/
theorem stageInsert_spec (h : Layout m.entries) (entries : List ExtentMapEntryV2) :
    ((Insertable entries ∧ FitsInline m.entries (sortByOffset entries)) ∧ ∃ m', m.stageInsert entries = .ok m' ∧
      m'.entries = insertedEach m.entries (sortByOffset entries) ∧ m'.header.entryCount = m'.entries.length ∧
      m.header.fileSize ≤ m'.header.fileSize ∧ ∀ e ∈ m'.entries, hi e ≤ m'.header.fileSize) ∨
    ¬ (Insertable entries ∧ FitsInline m.entries (sortByOffset entries)) ∧
      ∃ err, m.stageInsert entries = .error err := by
  by_cases hacc : Insertable entries ∧ FitsInline m.entries (sortByOffset entries)
  · refine .inl ⟨hacc, _, stageInsert_eq h hacc.1 hacc.2, ?_⟩
    rw [raiseFileSize_eq]
    exact ⟨rfl, rfl, le_max_left .., fun e he => ((le_foldl_max hi _ 0).2 e he).trans (le_max_right ..)⟩
  · refine .inr ⟨hacc, ?_⟩
    unfold stageInsert
    rcases mapM_checkedEnd entries with ⟨ends, h1, h2⟩ | ⟨e, he, -, h1⟩
    · rw [h1]
      simp only [bind, Except.bind]
      by_cases hover : anyIntersect entries = true
      · exact ⟨.overlappingExtent, by rw [if_pos hover]⟩
      · have hnew : Insertable entries :=
          ⟨fun e he => (h2 e he).1, fun e he => (h2 e he).2, anyIntersect_iff.mp (by simpa using hover)⟩
        rw [if_neg hover, insertEach_eq h (sortByOffset_layout hnew), if_neg fun hfit => hacc ⟨hnew, hfit⟩]
        exact ⟨.mapFull, rfl⟩
    · rw [h1]
      exact ⟨.invalidRange, rfl⟩

/-! ### What the operations do -/

/-- A map as every operation leaves it. -/
structure Ready (m : InlineExtentMap) : Prop where
  layout : Layout m.entries
  counted : m.entries.length ≤ m.header.entryCount
  within : Within m.header.fileSize m.entries

/-- What one call does: carried out, it changes the mapping as it should; otherwise it
leaves the map as it is. -/
structure Does (m : InlineExtentMap) (op : Op) {α : Type} (r : InlineExtentMap × Outcome α) : Prop where
  ready : Ready r.1
  bytes : AcceptsOn m.header.fileSize m.entries op ∧ (∃ a, r.2 = .ok a) ∧
      content r.1.entries = applyOp m.header.fileSize (content m.entries) op ∨ (∃ err, r.2 = .error err) ∧ r.1 = m

/-- Besides, where the extents come from. -/
structure Change (m : InlineExtentMap) (op : Op) {α : Type} (r : InlineExtentMap × Outcome α) : Prop
    extends Does m op r where
  kept : Kept m.entries op.brings r.1.entries

open Change

variable {op : Op} {α : Type}

theorem Change.refused (h : Ready m) (err : ExtentMapError) : Change m op (m, (Except.error err : Outcome α)) :=
  ⟨⟨h, .inr ⟨⟨err, rfl⟩, rfl⟩⟩, fun _ _ hes _ => hes⟩

/-- The counts were made anew and the file is large enough. -/
theorem Change.ok (h : Ready m) {m' : InlineExtentMap} (a : α) (hacc : AcceptsOn m.header.fileSize m.entries op)
    (hl : Layout m'.entries) (hb : content m'.entries = applyOp m.header.fileSize (content m.entries) op)
    (hc : m'.header.entryCount = m'.entries.length)
    (hs : SizeAfter m.header.fileSize m'.entries m'.header.fileSize op)
    (hk : Kept m.entries op.brings m'.entries) : Change m op (m', Except.ok a) :=
  ⟨⟨⟨hl, hc.ge, within_after h.layout hl h.within hacc hb hs⟩, .inl ⟨hacc, ⟨a, rfl⟩, hb⟩⟩, hk⟩

theorem Change.map {β : Type} {r : InlineExtentMap × Outcome α} (h : Change m op r) (f : α → β) :
    Change m op (r.1, r.2.map f) := by
  refine ⟨⟨h.ready, ?_⟩, h.kept⟩
  rcases h.bytes with ⟨h1, ⟨a, h2⟩, h3⟩ | ⟨⟨err, h2⟩, h3⟩
  · exact .inl ⟨h1, ⟨f a, by rw [h2]; rfl⟩, h3⟩
  · exact .inr ⟨⟨err, by rw [h2]; rfl⟩, h3⟩

theorem insertExtent_change (h : Ready m) (entries : List ExtentMapEntryV2) :
    Change m (.insertExtent entries) (m.insertExtent entries) := by
  unfold insertExtent
  split_ifs with hnil
  · rw [isEmpty_iff.mp hnil]
    exact ⟨⟨h, .inl ⟨Insertable.nil, ⟨(), rfl⟩, rfl⟩⟩, fun _ _ hes _ => hes⟩
  · rcases stageInsert_spec h.layout entries with ⟨⟨hnew, -⟩, m', h1, h2, h3, h4, h5⟩ | ⟨-, err, h1⟩
    · have hsorted := sortByOffset_layout hnew
      obtain ⟨h6, h7⟩ := insertedEach_spec h.layout hsorted
      rw [h1]
      refine ok h () hnew (h2 ▸ h6) ?_ h3 ⟨h4, h5⟩ fun _ hQ hes hn => ?_
      · rw [h2]
        funext b
        rw [h7, ← content_perm hsorted.tiles (perm_insertionSort _ _)]
        rfl
      · rw [h2]
        exact insertedEach_kept hQ hes (sortByOffset_kept hn)
    · rw [h1]
      exact refused h err

/-- Only the last entry can reach behind the new end. -/
theorem trimLast_eq {newSize : ℕ} : ∀ {es : List ExtentMapEntryV2}, Layout es → (∀ e ∈ es, lo e < newSize) →
    trimLast newSize es = es.map fun e => if newSize < e.endOffset then e.within e.logicalOffset newSize else e
  | [], _, _ => rfl
  | [_], _, _ => rfl
  | e :: e' :: es, h, hlt => by
    obtain ⟨-, hfit, hes, hapart⟩ := cons_iff.mp h
    obtain ⟨-, hlt'⟩ := forall_mem_cons.mp hlt
    have hend : ¬ newSize < e.endOffset := by
      rw [endOffset_eq hfit]
      have := hapart e' (by simp)
      have := hlt' e' (by simp)
      omega
    rw [trimLast, trimLast_eq hes hlt', @map_cons _ _ _ e, if_neg hend]

theorem truncate_change (h : Ready m) (newSize : ℕ) : Change m (.truncate newSize) (m.truncate newSize) := by
  unfold truncate
  by_cases hsize : m.header.fileSize ≤ newSize
  · rw [if_pos hsize, raiseFileSize_eq]
    refine ⟨⟨⟨h.layout, h.counted, fun e he hu => ?_⟩, .inl ⟨trivial, ⟨[], rfl⟩, ?_⟩⟩, fun _ _ hes _ => hes⟩
    · exact (h.within e he hu).trans (le_max_left ..)
    · exact funext fun b => (if_neg (by omega)).symm
  · have hlayout : Layout (m.entries.filter fun e => e.logicalOffset < newSize) :=
      ⟨h.layout.tiles.filter _, fun e he => h.layout.fits e (mem_of_mem_filter he)⟩
    have htrim := trimLast_eq hlayout fun e he =>
      (show e.logicalOffset < newSize by simpa using of_mem_filter he)
    obtain ⟨h1, h2⟩ := truncated_spec h.layout newSize
    rw [if_neg hsize]
    rw [htrim]
    refine ok h _ trivial h1 (funext fun b => (h2 b).trans ?_) rfl (le_refl newSize) (truncated_kept newSize)
    split_ifs with hb
    · exact (if_neg (by omega)).symm
    · exact (if_pos (by omega)).symm

variable {offset stop : ℕ}

theorem punch_eq (h : Layout es) (hos : offset < stop) :
    (es.flatMap fun e => if e.endOffset ≤ offset ∨ stop ≤ e.logicalOffset then [e]
      else (if e.logicalOffset < offset then [e.within e.logicalOffset offset] else []) ++
        if stop < e.endOffset then [e.within stop e.endOffset] else []) = punched es offset stop := by
  rw [punched_eq h hos]
  refine flatMap_congr fun e he => ?_
  have hpos := h.tiles.pos e he
  rw [endOffset_eq (h.fits e he), ← lo_eq, fragment_eq, fragment_eq]
  split_ifs with hout
  · rcases hout with hout | hout
    · rw [min_eq_left hout, existingFragment_self hpos, existingFragment_of_le (by omega)]
      rfl
    · rw [max_eq_left hout, existingFragment_self hpos, existingFragment_of_le (by omega)]
      rfl
  · rw [min_eq_right (by omega), max_eq_right (by omega)]

theorem punchHole_change (h : Ready m) (offset length : ℕ) :
    Change m (.punchHole offset length) (m.punchHole offset length) := by
  unfold punchHole
  by_cases hv : 0 < length ∧ offset + length ≤ u64Max
  · obtain ⟨h1, h2⟩ := punched_spec h.layout (show offset < offset + length by omega)
    obtain ⟨h3, h4⟩ := mergeAdjacent_spec h1
    rw [if_neg (by omega), if_neg (by omega)]
    dsimp only
    rw [punch_eq h.layout (by omega), retainNonempty_eq h1.tiles, raiseFileSize_eq]
    refine ok h _ hv h3 ?_ rfl (le_max_left ..) fun _ hQ hes hn =>
      mergeAdjacent_kept hQ (punched_kept h.layout (by omega) hQ hes hn)
    show content (mergeAdjacent _) = _
    rw [h4]
    exact funext fun b => (h2 b).trans (ite_not ..)
  · rw [invalid_range hv]
    exact refused h _

theorem zeroRange_change (h : Ready m) (offset length : ℕ) :
    Change m (.zeroRange offset length) (m.zeroRange offset length) := by
  have hp := punchHole_change h offset length
  exact ⟨⟨hp.ready, hp.bytes⟩, hp.kept⟩

theorem collapse_eq (h : Layout es) (offset length : ℕ) :
    (collapseEntries es offset length).1 = collapsed es offset length := by
  have hflat : (es.flatMap fun e =>
      if e.endOffset ≤ offset then [e]
      else if offset + length ≤ e.logicalOffset then [{ e with logicalOffset := e.logicalOffset - length }]
      else (if e.logicalOffset < offset then [e.within e.logicalOffset offset] else []) ++
        if offset + length < e.endOffset then
          [{ e with logicalOffset := offset, length := e.endOffset - (offset + length) }] else []) =
      collapsed es offset length := by
    rw [collapsed_eq h]
    refine flatMap_congr fun e he => ?_
    have hpos := h.tiles.pos e he
    have hfit := h.fits e he
    rw [fragment_eq, endOffset_eq hfit, ← lo_eq]
    by_cases hbefore : hi e ≤ offset
    · rw [if_pos hbefore, min_eq_left hbefore, existingFragment_self hpos, existingFragment_of_le (by omega)]
      rfl
    · rw [if_neg hbefore, min_eq_right (by omega)]
      by_cases hbehind : offset + length ≤ lo e
      · have hlen : hi e - length - (lo e - length) = e.length := by
          rw [hi_eq, lo_eq] at *
          omega
        rw [if_pos hbehind, existingFragment_of_le (show offset ≤ lo e by omega), max_eq_left hbehind,
          existingFragment_of_lt (by omega), within, hlen]
        rfl
      · have hpulled := @pulled_eq e offset hfit length (by omega)
        rw [pulled, endOffset_eq hfit] at hpulled
        rw [if_neg hbehind, hpulled]
  have hstrip := retainNonempty_eq (collapsed_spec h offset length).1.tiles
  exact (congrArg retainNonempty hflat).trans hstrip

theorem collapseRange_change (h : Ready m) (offset length : ℕ) :
    Change m (.collapseRange offset length) (m.collapseRange offset length) := by
  unfold collapseRange
  by_cases h0 : length = 0
  · rw [if_pos h0]
    refine ⟨⟨h, .inl ⟨.inl h0, ⟨[], rfl⟩, funext fun b => ?_⟩⟩, fun _ _ hes _ => hes⟩
    show content m.entries b = content m.entries (if b < offset then b else b + length)
    rw [h0, add_zero, ite_self]
  · rw [if_neg h0]
    by_cases hv : offset + length ≤ u64Max ∧ offset + length ≤ m.header.fileSize
    · obtain ⟨h1, h2⟩ := collapsed_spec h.layout offset length
      obtain ⟨h3, h4⟩ := mergeAdjacent_spec h1
      rw [if_neg (by omega), if_neg (by omega)]
      dsimp only
      rw [collapse_eq h.layout]
      split_ifs with hfull
      · exact refused h _
      · refine ok h _ (.inr hv) h3 ?_ rfl (le_refl (m.header.fileSize - length))
          (collapsed_kept h.layout offset length)
        show content (mergeAdjacent _) = _
        rw [h4]
        exact funext h2
    · by_cases h1 : u64Max < offset + length
      · rw [if_pos h1]
        exact refused h _
      · rw [if_neg h1, if_pos (by omega)]
        exact refused h _

/-- The extent found is replaced by its pieces in place. -/
theorem convert_eq {holds : ExtentMapEntryV2 → Bool} {data : ExtentMapEntryV2} (h : Layout es)
    (hfind : es.find? holds = some e) (hlo : lo e ≤ lo data) (hpos : lo data < hi data) (hhi : hi data ≤ hi e) :
    es.take (es.findIdx holds) ++ (if e.logicalOffset < lo data then [e.within e.logicalOffset (lo data)] else []) ++
      [data] ++ (if hi data < e.endOffset then [e.within (hi data) e.endOffset] else []) ++
      es.drop (es.findIdx holds + 1) = converted es e data (lo data) (hi data) := by
  obtain ⟨he, A, C, rfl, hA⟩ := List.find?_eq_some_iff_append.mp hfind
  have hmem : e ∈ A ++ e :: C := by simp
  have hidx : (A ++ e :: C).findIdx holds = A.length := by
    have hnone : A.findIdx holds = A.length := findIdx_eq_length.mpr fun x hx => by simpa using hA x hx
    rw [findIdx_append, hnone, if_neg (lt_irrefl _), findIdx_cons, he]
    exact zero_add _
  rw [converted_eq hlo hpos hhi h, hidx, take_left, drop_append, drop_eq_nil_of_le (by omega),
    endOffset_eq (h.fits e hmem), ← lo_eq e, fragment_eq, fragment_eq]
  simp [convertPieces]

theorem convertUnwrittenToData_change (h : Ready m) (offset length : ℕ) (locatorId : LocatorId) (checksum : Digest)
    (birthCommitGroup : ℕ) : Change m (.convertUnwrittenToData offset length locatorId checksum birthCommitGroup)
      (m.convertUnwrittenToData offset length locatorId checksum birthCommitGroup) := by
  unfold convertUnwrittenToData
  by_cases hv : 0 < length ∧ offset + length ≤ u64Max
  · rw [if_neg (by omega), if_neg (by omega)]
    dsimp only
    cases hfind : m.entries.find? fun e : ExtentMapEntryV2 =>
        e.isUnwritten && decide (e.logicalOffset ≤ offset) && decide (offset + length ≤ e.endOffset) with
    | none => exact refused h _
    | some e =>
      have he := mem_of_find?_eq_some hfind
      have hholds := List.find?_some hfind
      rw [Bool.and_eq_true, Bool.and_eq_true, decide_eq_true_eq, decide_eq_true_eq] at hholds
      obtain ⟨⟨hu, hlo⟩, hhi⟩ := hholds
      rw [endOffset_eq (h.layout.fits e he)] at hhi
      have hdata : lo (newData offset length locatorId checksum birthCommitGroup) <
          hi (newData offset length locatorId checksum birthCommitGroup) := show offset < offset + length by omega
      have heq := convert_eq h.layout hfind hlo hdata hhi
      obtain ⟨h2, h3⟩ := converted_spec hlo hdata hhi h.layout he
      obtain ⟨h4, h5⟩ := mergeAdjacent_spec h2
      rw [← heq] at h3 h4 h5
      dsimp only
      rw [raiseFileSize_eq]
      refine ok h () ⟨hv.1, hv.2, e, he, (isUnwritten_iff e).mp hu, hlo, hhi⟩ h4 ?_ rfl
        ⟨le_max_left .., le_max_right ..⟩ fun _ hQ hes hd => ?_
      · exact h5.trans (funext h3)
      · exact mergeAdjacent_kept hQ fun x hx => converted_kept he _ _ hQ hes hd x ((congrArg (x ∈ ·) heq).mp hx)
  · rw [invalid_range hv]
    exact refused h _

theorem fallocate_change (h : Ready m) (offset length : ℕ) (keepSize : Bool) :
    Change m (.fallocate offset length keepSize) (m.fallocate offset length keepSize) := by
  unfold fallocate
  by_cases hv : 0 < length ∧ offset + length ≤ u64Max
  · have hpos : lo (newUnwritten offset length 0) < hi (newUnwritten offset length 0) :=
      show offset < offset + length by omega
    rw [if_neg (by omega), if_neg (by omega), insertSingle_eq h.layout hpos hv.2]
    by_cases hfull : extentMapV1MaxEntries < (inserted m.entries [newUnwritten offset length 0]).length
    · rw [if_pos hfull]
      exact refused h _
    · obtain ⟨h1, h2⟩ := inserted_spec h.layout (insertable_unwritten hv)
      rw [if_neg hfull]
      refine ok h () hv h1 ?_ rfl ?_ inserted_kept
      · funext b
        refine (h2 b).trans ?_
        rw [content_cons, content_nil]
        split_ifs with hb
        · exact (if_pos hb).symm
        · exact (if_neg hb).symm
      · split_ifs
        · exact le_rfl
        · exact le_max_left ..
  · rw [invalid_range hv]
    exact refused h _

/-! ### Lookup -/

/-- A looked up extent, clipped if it is not in the range as a whole. -/
theorem clip_eq (hpos : lo e < hi e) (hfit : Fits e) (h1 : offset < hi e) (h2 : lo e < stop)
    (hos : offset < stop) : [if offset ≤ e.logicalOffset ∧ e.endOffset ≤ stop then e
      else e.within (max e.logicalOffset offset) (min e.endOffset stop)] = clippedOverlap e offset stop := by
  rw [clippedOverlap_eq hfit, endOffset_eq hfit, ← lo_eq]
  split_ifs with hin
  · rw [max_eq_left hin.1, min_eq_left hin.2, existingFragment_self hpos]
  · rw [existingFragment_of_lt (by omega)]

theorem takeWhile_clip (hos : offset < stop) : ∀ {es : List ExtentMapEntryV2}, Layout es →
    (∀ e ∈ es, offset < hi e) → ((es.takeWhile fun e => e.logicalOffset < stop).map fun e =>
      if offset ≤ e.logicalOffset ∧ e.endOffset ≤ stop then e
      else e.within (max e.logicalOffset offset) (min e.endOffset stop)) =
      es.flatMap fun e => clippedOverlap e offset stop
  | [], _, _ => rfl
  | e :: es, h, hends => by
    obtain ⟨hpos, hfit, hes, hapart⟩ := cons_iff.mp h
    obtain ⟨hend, hends'⟩ := forall_mem_cons.mp hends
    rw [takeWhile_cons]
    by_cases hlt : e.logicalOffset < stop
    · rw [if_pos (decide_eq_true hlt), map_cons, takeWhile_clip hos hes hends', flatMap_cons,
        ← clip_eq hpos hfit hend hlt hos, singleton_append]
    · rw [if_neg (by simpa using hlt), map_nil]
      refine (flatMap_eq_nil_iff.mpr fun x hx => if_pos (.inl ?_)).symm
      rcases mem_cons.mp hx with rfl | hx
      · exact not_lt.mp hlt
      · have := hapart x hx
        rw [lo_eq] at this hpos
        omega

theorem dropWhile_clip (hos : offset < stop) : ∀ {es : List ExtentMapEntryV2}, Layout es →
    (((es.dropWhile fun e => e.endOffset ≤ offset).takeWhile fun e => e.logicalOffset < stop).map fun e =>
      if offset ≤ e.logicalOffset ∧ e.endOffset ≤ stop then e
      else e.within (max e.logicalOffset offset) (min e.endOffset stop)) =
      es.flatMap fun e => clippedOverlap e offset stop
  | [], _ => rfl
  | e :: es, h => by
    obtain ⟨hpos, hfit, hes, hapart⟩ := cons_iff.mp h
    by_cases hend : e.endOffset ≤ offset
    · rw [dropWhile_cons_of_pos (by simpa using hend), dropWhile_clip hos hes, flatMap_cons, clippedOverlap,
        if_pos (.inr hend), nil_append]
    · rw [dropWhile_cons_of_neg (by simpa using hend)]
      rw [endOffset_eq hfit] at hend
      refine takeWhile_clip hos h (forall_mem_cons.mpr ⟨not_le.mp hend, fun x hx => ?_⟩)
      have := hapart x hx
      have := hes.tiles.pos x hx
      omega

/-- **A lookup returns the mapping of its range**, as in the tree-backed maps. -/
theorem lookupRange_spec (h : Layout m.entries) {length : ℕ} (hl : 0 < length) (hend : offset + length ≤ u64Max) :
    m.lookupRange offset length = .ok (clipped m.entries offset (offset + length)) := by
  have hos : offset < offset + length := by omega
  rw [lookupRange, if_neg (by omega), if_neg (by omega), clipped_eq h hos.le, ← dropWhile_clip hos h]

end InlineExtentMap

end Tidefs.ExtentMap
