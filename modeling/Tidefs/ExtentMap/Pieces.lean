/-
# The pieces an operation leaves

Truncation, holes, collapsing, conversion and lookup all replace each extent by
fragments of it. Here the lists these operations form, case by case, are brought to
that form, and from it follows what each does to the mapping of the bytes.
-/
import Tidefs.ExtentMap.Overlay

namespace Tidefs.ExtentMap

open Word Spans Spans.HasSpan ExtentMapEntryV2 List Layout Nat

variable {es : List ExtentMapEntryV2}

theorem within_self (e : ExtentMapEntryV2) : e.within (lo e) (hi e) = e := by
  show ({ e with logicalOffset := e.logicalOffset, length := e.logicalOffset + e.length - e.logicalOffset } :
    ExtentMapEntryV2) = e
  rw [Nat.add_sub_cancel_left]

variable {e : ExtentMapEntryV2} {offset stop : ℕ}

theorem existingFragment_of_lt {start : ℕ} (h : start < stop) :
    existingFragment e start stop = [e.within start stop] := if_neg (by omega)

theorem existingFragment_of_le {start : ℕ} (h : stop ≤ start) : existingFragment e start stop = [] := if_pos h

/-- A piece that is there only if it is not empty. -/
theorem fragment_eq (e : ExtentMapEntryV2) (start stop : ℕ) :
    (if start < stop then [e.within start stop] else []) = existingFragment e start stop := by
  split_ifs with h
  · rw [existingFragment_of_lt h]
  · rw [existingFragment_of_le (not_lt.mp h)]

/-- The whole extent as a fragment of itself. -/
theorem existingFragment_self (h : lo e < hi e) : existingFragment e (lo e) (hi e) = [e] := by
  rw [existingFragment_of_lt h, within_self]

/-! ### Two fragments of each extent -/

theorem fragments_spec {a c d : ℕ} (hac : a ≤ c) (ha : a ≤ u64Max) (hd : d ≤ u64Max) :
    Layout (existingFragment e (lo e) a ++ existingFragment e c d) ∧
      (∀ x ∈ existingFragment e (lo e) a ++ existingFragment e c d, lo e ≤ lo x ∧ hi x ≤ a ∨ c ≤ lo x ∧ hi x ≤ d) ∧
      ∀ b t, Maps (existingFragment e (lo e) a ++ existingFragment e c d) b t ↔
        (lo e ≤ b ∧ b < a ∨ c ≤ b ∧ b < d) ∧ tag e = t := by
  obtain ⟨h1, h2, h3⟩ := existingFragment_spec e (lo e) ha
  obtain ⟨h4, h5, h6⟩ := existingFragment_spec e c hd
  refine ⟨append_iff.mpr ⟨h1, h4, fun x hx y hy => ?_⟩, fun x hx => ?_, fun b t => ?_⟩
  · rw [(h2 x hx).2, (h5 y hy).1]
    exact hac
  · rcases mem_append.mp hx with hx | hx
    · exact .inl ⟨(h2 x hx).1.ge, (h2 x hx).2.le⟩
    · exact .inr ⟨(h5 x hx).1.ge, (h5 x hx).2.le⟩
  · rw [maps_append, h3, h6]
    tauto

variable (h : Layout es)
include h

/-- **Pieces in place of extents.** If the pieces of an extent keep to its place, up to a
monotone move, and say of the bytes kept what the extent says of their source, the list
of all pieces does so for the whole mapping. -/
theorem pieces_spec (src : ℕ → ℕ) (keep : ℕ → Prop) [DecidablePred keep]
    {g : ExtentMapEntryV2 → List ExtentMapEntryV2} {move : ℕ → ℕ} (hmove : Monotone move)
    (hg : ∀ e ∈ es, Layout (g e) ∧ (∀ x ∈ g e, move (lo e) ≤ lo x ∧ hi x ≤ move (hi e)) ∧
      ∀ b t, Maps (g e) b t ↔ keep b ∧ Covers e (src b) ∧ tag e = t) :
    Layout (es.flatMap g) ∧ ∀ b, content (es.flatMap g) b = if keep b then content es (src b) else none := by
  have htiles := h.tiles.flatMap hmove fun e he => ⟨(hg e he).1.tiles, (hg e he).2.1⟩
  refine ⟨⟨htiles, fun x hx => ?_⟩, fun b => ?_⟩
  · obtain ⟨e, he, hx⟩ := mem_flatMap.mp hx
    exact (hg e he).1.fits x hx
  · rw [content_flatMap h.tiles htiles src (fun t => if keep b then some t else none) fun e he t => ?_]
    · by_cases hb : keep b
      · simp [hb]
      · simp [hb]
    · rw [(hg e he).2.2]
      by_cases hb : keep b
      · simp [hb]
      · simp [hb]

/-! ### Truncation -/

/-- The extents that start below the new size, each cut off there. -/
def truncated (es : List ExtentMapEntryV2) (n : ℕ) : List ExtentMapEntryV2 :=
  (es.filter fun e => decide (lo e < n)).map fun e =>
    if n < e.endOffset then e.within e.logicalOffset n else e

theorem truncated_eq (n : ℕ) : truncated es n = es.flatMap fun e => existingFragment e (lo e) (min (hi e) n) := by
  have hsplit := flatMap_split h.tiles.ascend n
    (fun e => [if n < e.endOffset then e.within e.logicalOffset n else e]) fun _ => []
  have hnone : (es.filter fun e => decide (n ≤ lo e)).flatMap (fun _ => ([] : List ExtentMapEntryV2)) = [] := by simp
  rw [hnone, append_nil] at hsplit
  rw [truncated, map_eq_flatMap, hsplit]
  refine flatMap_congr fun e he => ?_
  have hpos := h.tiles.pos e he
  rw [endOffset_eq (h.fits e he), ← lo_eq]
  by_cases h1 : lo e < n
  · rw [if_pos h1]
    split_ifs with h2
    · rw [min_eq_right h2.le, existingFragment_of_lt h1]
    · rw [min_eq_left (not_lt.mp h2), existingFragment_self hpos]
  · rw [if_neg h1, existingFragment_of_le (by omega)]

/-- **Truncation keeps the bytes below the new size.** -/
theorem truncated_spec (n : ℕ) :
    Layout (truncated es n) ∧ ∀ b, content (truncated es n) b = if b < n then content es b else none := by
  rw [truncated_eq h]
  refine pieces_spec h id (fun b => b < n) monotone_id fun e he => ?_
  have hfit : hi e ≤ u64Max := h.fits e he
  obtain ⟨h1, h2, h3⟩ := existingFragment_spec e (lo e) (show min (hi e) n ≤ u64Max by omega)
  refine ⟨h1, fun x hx => ?_, fun b t => ?_⟩
  · rw [(h2 x hx).1, (h2 x hx).2]
    exact ⟨le_rfl, min_le_left ..⟩
  · rw [h3]
    show _ ↔ b < n ∧ (lo e ≤ b ∧ b < hi e) ∧ _
    rw [lt_min_iff]
    tauto

/-! ### Holes -/

/-- The part of an extent behind a range. -/
def behind (stop : ℕ) (e : ExtentMapEntryV2) : List ExtentMapEntryV2 :=
  if stop < e.endOffset then [e.within stop e.endOffset] else []

/-- The extents around a range, as `punch_hole` puts them together. -/
def punched (es : List ExtentMapEntryV2) (offset stop : ℕ) : List ExtentMapEntryV2 :=
  ((es.filter fun e => decide (lo e < offset)).flatMap fun e =>
    if e.endOffset ≤ offset then [e] else e.within e.logicalOffset offset :: behind stop e) ++
  (es.filter fun e => decide (offset ≤ lo e) && decide (lo e < stop)).flatMap (behind stop) ++
  es.filter fun e => decide (stop ≤ lo e)

theorem punched_eq (hos : offset < stop) : punched es offset stop =
      es.flatMap fun e => existingFragment e (lo e) (min (hi e) offset) ++ existingFragment e (max (lo e) stop) (hi e) := by
  have hid : (es.filter fun e => decide (stop ≤ lo e)) = (es.filter fun e => decide (stop ≤ lo e)).flatMap fun e => [e] :=
    (flatMap_singleton' _).symm
  rw [punched, hid, flatMap_split_between h.tiles.ascend hos.le]
  refine flatMap_congr fun e he => ?_
  have hpos := h.tiles.pos e he
  rw [behind, endOffset_eq (h.fits e he), fragment_eq, ← lo_eq]
  by_cases h1 : lo e < offset
  · rw [if_pos h1, max_eq_right (by omega)]
    split_ifs with h2
    · rw [min_eq_left h2, existingFragment_self hpos, existingFragment_of_le (by omega), append_nil]
    · rw [min_eq_right (by omega), existingFragment_of_lt h1]
      rfl
  · rw [if_neg h1, existingFragment_of_le (show min (hi e) offset ≤ lo e by omega), nil_append]
    split_ifs with h2
    · rw [max_eq_right h2.le]
    · rw [max_eq_left (not_lt.mp h2), existingFragment_self hpos]

/-- **A hole takes out exactly its range.** -/
theorem punched_spec (hos : offset < stop) : Layout (punched es offset stop) ∧
      ∀ b, content (punched es offset stop) b = if ¬ (offset ≤ b ∧ b < stop) then content es b else none := by
  rw [punched_eq h hos]
  refine pieces_spec h id (fun b => ¬ (offset ≤ b ∧ b < stop)) monotone_id fun e he => ?_
  have hfit : hi e ≤ u64Max := h.fits e he
  have hpos := h.tiles.pos e he
  obtain ⟨h1, h2, h3⟩ := fragments_spec (e := e) (a := min (hi e) offset) (c := max (lo e) stop) (d := hi e)
    (by omega) (by omega) hfit
  refine ⟨h1, fun x hx => ?_, fun b t => ?_⟩
  · show lo e ≤ lo x ∧ hi x ≤ hi e
    have := h2 x hx
    omega
  · rw [h3]
    show _ ↔ ¬ (offset ≤ b ∧ b < stop) ∧ (lo e ≤ b ∧ b < hi e) ∧ _
    rw [← and_assoc]
    refine and_congr_left fun _ => ?_
    omega

omit h

/-! ### Collapsing -/

/-- The part of an extent behind a range, moved to the start of the range. -/
def pulled (offset stop : ℕ) (e : ExtentMapEntryV2) : List ExtentMapEntryV2 :=
  if stop < e.endOffset then [{ e with logicalOffset := offset, length := e.endOffset - stop }] else []

/-- The extents before a range, and those after it moved down, as `collapse_range` puts
them together. -/
def collapsed (es : List ExtentMapEntryV2) (offset length : ℕ) : List ExtentMapEntryV2 :=
  ((es.filter fun e => decide (lo e < offset)).flatMap fun e =>
    if e.endOffset ≤ offset then [e] else e.within e.logicalOffset offset :: pulled offset (offset + length) e) ++
  (es.filter fun e => decide (offset ≤ lo e) && decide (lo e < offset + length)).flatMap
    (pulled offset (offset + length)) ++ (es.filter fun e => decide (offset + length ≤ lo e)).map fun e =>
    { e with logicalOffset := e.logicalOffset - length }

theorem pulled_eq (h : Fits e) {length : ℕ} (hlo : lo e < offset + length) :
    pulled offset (offset + length) e = existingFragment e (max (lo e) (offset + length) - length) (hi e - length) := by
  rw [pulled, endOffset_eq h, max_eq_right hlo.le, Nat.add_sub_cancel]
  split_ifs with h1
  · rw [existingFragment_of_lt (by omega), within]
    congr 2
    omega
  · rw [existingFragment_of_le (by omega)]

theorem collapsed_eq (h : Layout es) (offset length : ℕ) : collapsed es offset length =
      es.flatMap fun e => existingFragment e (lo e) (min (hi e) offset) ++
        existingFragment e (max (lo e) (offset + length) - length) (hi e - length) := by
  rw [collapsed, map_eq_flatMap, flatMap_split_between h.tiles.ascend (le_add_right offset length)]
  refine flatMap_congr fun e he => ?_
  have hpos := h.tiles.pos e he
  have hfit := h.fits e he
  rw [endOffset_eq hfit, ← lo_eq]
  by_cases h1 : lo e < offset
  · rw [if_pos h1, pulled_eq hfit (by omega)]
    split_ifs with h2
    · rw [min_eq_left h2, existingFragment_self hpos, existingFragment_of_le (by omega), append_nil]
    · rw [min_eq_right (by omega), existingFragment_of_lt h1]
      rfl
  · rw [if_neg h1, existingFragment_of_le (show min (hi e) offset ≤ lo e by omega), nil_append]
    split_ifs with h2
    · rw [pulled_eq hfit h2]
    · rw [max_eq_left (not_lt.mp h2), existingFragment_of_lt (by omega), within]
      congr 2
      rw [hi_eq, lo_eq] at *
      omega

/-- Where collapsing moves a point. -/
def collapseMove (offset length b : ℕ) : ℕ := if b < offset then b else max b (offset + length) - length

/-- **Collapsing takes out the range and moves the bytes behind it down.** -/
theorem collapsed_spec (h : Layout es) (offset length : ℕ) : Layout (collapsed es offset length) ∧
      ∀ b, content (collapsed es offset length) b = content es (if b < offset then b else b + length) := by
  rw [collapsed_eq h]
  have hmono : Monotone (collapseMove offset length) := fun a b hab => by
    unfold collapseMove
    split_ifs <;> omega
  have hall := pieces_spec h (fun b => if b < offset then b else b + length) (fun _ => True) hmono
    (g := fun e => existingFragment e (lo e) (min (hi e) offset) ++
      existingFragment e (max (lo e) (offset + length) - length) (hi e - length)) fun e he => by
    have hfit : hi e ≤ u64Max := h.fits e he
    have hpos := h.tiles.pos e he
    obtain ⟨h1, h2, h3⟩ := fragments_spec (e := e) (a := min (hi e) offset)
      (c := max (lo e) (offset + length) - length) (d := hi e - length) (by omega) (by omega) (by omega)
    refine ⟨h1, fun x hx => ?_, fun b t => ?_⟩
    · have := h2 x hx
      unfold collapseMove
      split_ifs <;> omega
    · rw [h3, true_and]
      refine and_congr_left fun _ => ?_
      unfold Covers
      split_ifs <;> omega
  refine ⟨hall.1, fun b => (hall.2 b).trans (if_pos trivial)⟩

/-! ### Conversion -/

/-- The extents after part of one was converted, as `convert_unwritten_to_data` puts
them together. -/
def converted (es : List ExtentMapEntryV2) (e data : ExtentMapEntryV2) (offset stop : ℕ) : List ExtentMapEntryV2 :=
  (es.filter fun x => decide (lo x < lo e)) ++
    (if e.logicalOffset < offset then [e.within e.logicalOffset offset] else []) ++ [data] ++
    (if stop < e.endOffset then [e.within stop e.endOffset] else []) ++ es.filter fun x => decide (stop ≤ lo x)

section Converted

variable {e data : ExtentMapEntryV2} {A C : List ExtentMapEntryV2} (hlo : lo e ≤ lo data) (hpos : lo data < hi data)
  (hhi : hi data ≤ hi e)

/-- The pieces in place of an extent: the data between the fragments around it. -/
def convertPieces (e data x : ExtentMapEntryV2) : List ExtentMapEntryV2 :=
  if x = e then existingFragment e (lo e) (lo data) ++ data :: existingFragment e (hi data) (hi e) else [x]

include hlo hpos hhi

/-- The other extents stay. -/
theorem converted_eq (h : Layout (A ++ e :: C)) :
    converted (A ++ e :: C) e data (lo data) (hi data) = A ++ (convertPieces e data e ++ C) := by
  obtain ⟨hA, hC, hAC⟩ := append_iff.mp h
  obtain ⟨hepos, hfit, -, heC⟩ := cons_iff.mp hC
  have hAe : ∀ a ∈ A, lo a < lo e := fun a ha =>
    lt_of_lt_of_le (hA.tiles.pos a ha) (hAC a ha e (mem_cons_self ..))
  have hbefore : (A ++ e :: C).filter (fun x => decide (lo x < lo e)) = A := by
    rw [filter_append, filter_eq_self.mpr fun a ha => by simpa using hAe a ha,
      filter_eq_nil_iff.mpr fun c hc => ?_, append_nil]
    rcases mem_cons.mp hc with rfl | hc
    · simp
    · have := heC c hc
      simp only [decide_eq_true_eq]
      omega
  have hafter : (A ++ e :: C).filter (fun x => decide (hi data ≤ lo x)) = C := by
    have hnone : A.filter (fun x => decide (hi data ≤ lo x)) = [] := filter_eq_nil_iff.mpr fun a ha => by
      have := hAe a ha
      simp only [decide_eq_true_eq]
      omega
    rw [filter_append, hnone, filter_cons_of_neg (by simpa using lt_of_le_of_lt hlo hpos), nil_append]
    exact filter_eq_self.mpr fun c hc => by simpa using hhi.trans (heC c hc)
  rw [converted, hbefore, hafter, endOffset_eq hfit, ← lo_eq e, fragment_eq, fragment_eq, convertPieces, if_pos rfl]
  simp

/-- The pieces have the bytes of the extent. -/
theorem convertPieces_spec (hfit : hi e ≤ u64Max) : Layout (convertPieces e data e) ∧
    (∀ y ∈ convertPieces e data e, lo e ≤ lo y ∧ hi y ≤ hi e) ∧
    ∀ b t, Maps (convertPieces e data e) b t ↔
      Covers e b ∧ (if lo data ≤ b ∧ b < hi data then tag data else tag e) = t := by
  obtain ⟨hf1, hf2, hf3⟩ := existingFragment_spec e (lo e) (show lo data ≤ u64Max by omega)
  obtain ⟨hr1, hr2, hr3⟩ := existingFragment_spec e (hi data) hfit
  rw [convertPieces, if_pos rfl]
  refine ⟨append_iff.mpr ⟨hf1, cons_iff.mpr ⟨hpos, show hi data ≤ u64Max by omega, hr1, ?_⟩, ?_⟩, ?_, fun b t => ?_⟩
  · exact fun y hy => (hr2 y hy).1.ge
  · intro y hy z hz
    rw [(hf2 y hy).2]
    rcases mem_cons.mp hz with rfl | hz
    · exact le_rfl
    · rw [(hr2 z hz).1]
      exact hpos.le
  · intro y hy
    rcases mem_append.mp hy with hy | hy
    · rw [(hf2 y hy).1, (hf2 y hy).2]
      omega
    · rcases mem_cons.mp hy with rfl | hy
      · exact ⟨hlo, hhi⟩
      · rw [(hr2 y hy).1, (hr2 y hy).2]
        omega
  · rw [maps_append, maps_cons, hf3, hr3]
    unfold Covers
    split_ifs with hb
    · constructor
      · rintro (h1 | h1 | h1)
        · omega
        · exact ⟨by omega, h1.2⟩
        · omega
      · intro h1
        exact .inr (.inl ⟨hb, h1.2⟩)
    · constructor
      · rintro (h1 | h1 | h1)
        · exact ⟨by omega, h1.2.2⟩
        · exact absurd h1.1 hb
        · exact ⟨by omega, h1.2.2⟩
      · intro h1
        by_cases h2 : b < lo data
        · exact .inl ⟨h1.1.1, h2, h1.2⟩
        · exact .inr (.inr ⟨by omega, h1.1.2, h1.2⟩)

theorem converted_spec (h : Layout es) (he : e ∈ es) : Layout (converted es e data (lo data) (hi data)) ∧
      ∀ b, content (converted es e data (lo data) (hi data)) b =
        if lo data ≤ b ∧ b < hi data then some (tag data) else content es b := by
  obtain ⟨h1, h2, h3⟩ := convertPieces_spec hlo hpos hhi (h.fits e he)
  obtain ⟨A, C, rfl⟩ := append_of_mem he
  rw [converted_eq hlo hpos hhi h]
  obtain ⟨hA, hC, hAC⟩ := append_iff.mp h
  obtain ⟨-, -, hC, heC⟩ := cons_iff.mp hC
  have hlayout : Layout (A ++ (convertPieces e data e ++ C)) := by
    refine append_iff.mpr ⟨hA, append_iff.mpr ⟨h1, hC, fun y hy c hc => (h2 y hy).2.trans (heC c hc)⟩, fun a ha => ?_⟩
    obtain ⟨hae, haC⟩ := forall_mem_cons.mp (hAC a ha)
    exact forall_mem_append.mpr ⟨fun y hy => hae.trans (h2 y hy).1, haC⟩
  refine ⟨hlayout, fun b => ?_⟩
  by_cases hb : lo data ≤ b ∧ b < hi data
  · rw [if_pos hb, content_eq_some hlayout.tiles, maps_append, maps_append, h3, if_pos hb]
    exact .inr (.inl ⟨⟨by omega, by omega⟩, rfl⟩)
  · refine Option.ext fun t => ?_
    rw [if_neg hb, content_eq_some hlayout.tiles, content_eq_some h.tiles, maps_append, maps_append, maps_append,
      maps_cons, h3, if_neg hb]

end Converted

/-! ### Lookup -/

theorem clippedOverlap_eq (h : Fits e) (offset stop : ℕ) :
    clippedOverlap e offset stop = existingFragment e (max (lo e) offset) (min (hi e) stop) := by
  rw [clippedOverlap, endOffset_eq h, ← lo_eq]
  split_ifs with h1
  · rw [existingFragment_of_le (by omega)]
  · rfl

/-- The overlaps that `lookup_range` collects: of the last extent that starts at or
before the range, if it starts before, and of those that start in it. -/
def clipped (es : List ExtentMapEntryV2) (offset stop : ℕ) : List ExtentMapEntryV2 :=
  ((es.filter fun e => decide (lo e ≤ offset)).getLast?.elim [] fun e =>
    if lo e < offset then clippedOverlap e offset stop else []) ++
  (es.filter fun e => decide (offset ≤ lo e) && decide (lo e < stop)).flatMap fun e => clippedOverlap e offset stop

/-- No other extent overlaps the range. -/
theorem clipped_eq (h : Layout es) (hos : offset ≤ stop) :
    clipped es offset stop = es.flatMap fun e => clippedOverlap e offset stop := by
  set f := fun e => clippedOverlap e offset stop
  have hafter : (es.filter fun e => decide (stop ≤ lo e)).flatMap f = [] := by
    refine flatMap_eq_nil_iff.mpr fun e he => ?_
    have : stop ≤ lo e := by simpa using (mem_filter.mp he).2
    exact if_pos (.inl this)
  have hall := flatMap_split_between h.tiles.ascend hos f f f
  simp only [ite_self] at hall
  rw [hafter, append_nil] at hall
  rw [clipped, ← hall]
  congr 1
  have hsub : (es.filter fun e => decide (lo e < offset)) =
      (es.filter fun e => decide (lo e ≤ offset)).filter fun e => decide (lo e < offset) := by
    rw [filter_filter]
    refine filter_congr fun e _ => ?_
    by_cases he : lo e < offset
    · simp [he, he.le]
    · simp [he]
  have hle := fun e (he : e ∈ es.filter fun e => decide (lo e ≤ offset)) => of_mem_filter he
  rw [hsub]
  have hl : Layout (es.filter fun e => decide (lo e ≤ offset)) :=
    ⟨h.tiles.filter _, fun e he => h.fits e (mem_of_mem_filter he)⟩
  generalize (es.filter fun e => decide (lo e ≤ offset)) = l at hl hle
  rcases eq_nil_or_concat l with rfl | ⟨A, p, rfl⟩
  · rfl
  · -- what comes before the last of them ends where the last starts
    rw [concat_eq_append] at hl hle ⊢
    have hp : lo p ≤ offset := by simpa using hle p (by simp)
    have hA : (A.filter fun e => decide (lo e < offset)).flatMap f = [] := by
      refine flatMap_eq_nil_iff.mpr fun a ha => if_pos (.inr ?_)
      have ha := mem_of_mem_filter ha
      have hapart := (append_iff.mp hl).2.2 a ha p (by simp)
      rw [endOffset_eq (hl.fits a (mem_append_left _ ha))]
      omega
    rw [List.getLast?_append_of_ne_nil _ (by simp), filter_append, flatMap_append, hA, nil_append]
    by_cases h1 : lo p < offset
    · simp [h1, f]
    · simp [h1, f]

/-- **A lookup returns the mapping of its range**, in pieces that lie in it. -/
theorem clipped_spec (h : Layout es) (hos : offset ≤ stop) :
    Layout (clipped es offset stop) ∧ (∀ x ∈ clipped es offset stop, offset ≤ lo x ∧ hi x ≤ stop) ∧
      ∀ b, content (clipped es offset stop) b = if offset ≤ b ∧ b < stop then content es b else none := by
  rw [clipped_eq h hos]
  have hpiece : ∀ e ∈ es, Layout (clippedOverlap e offset stop) ∧
      (∀ x ∈ clippedOverlap e offset stop, lo x = max (lo e) offset ∧ hi x = min (hi e) stop) ∧
      ∀ b t, Maps (clippedOverlap e offset stop) b t ↔ max (lo e) offset ≤ b ∧ b < min (hi e) stop ∧ tag e = t := by
    intro e he
    have hfit : hi e ≤ u64Max := h.fits e he
    rw [clippedOverlap_eq hfit]
    exact existingFragment_spec e _ (by omega)
  obtain ⟨h1, h2⟩ := pieces_spec h id (fun b => offset ≤ b ∧ b < stop) monotone_id
    (g := fun e => clippedOverlap e offset stop) fun e he => by
      obtain ⟨h1, h2, h3⟩ := hpiece e he
      refine ⟨h1, fun x hx => ?_, fun b t => ?_⟩
      · show lo e ≤ lo x ∧ hi x ≤ hi e
        have := h2 x hx
        omega
      · rw [h3]
        show _ ↔ _ ∧ (lo e ≤ b ∧ b < hi e) ∧ _
        rw [← and_assoc, ← and_assoc]
        refine and_congr_left fun _ => ?_
        omega
  refine ⟨h1, fun x hx => ?_, h2⟩
  obtain ⟨e, he, hx⟩ := mem_flatMap.mp hx
  have := (hpiece e he).2.1 x hx
  omega

/-! ### Insertion -/

/-- New extents that can be inserted together. -/
structure Insertable (new : List ExtentMapEntryV2) : Prop where
  pos : ∀ e ∈ new, 0 < e.length
  fits : ∀ e ∈ new, Fits e
  disjoint : new.Pairwise fun a b => hi a ≤ lo b ∨ hi b ≤ lo a

theorem anyOverlap_eq_false : ∀ {new : List ExtentMapEntryV2}, (∀ e ∈ new, Fits e) →
    (anyOverlap new = false ↔ new.Pairwise fun a b => hi a ≤ lo b ∨ hi b ≤ lo a)
  | [], _ => by simp [anyOverlap]
  | e :: new, h => by
    obtain ⟨h1, h2⟩ := forall_mem_cons.mp h
    have hcross : ∀ f ∈ new, e.intersects f.logicalOffset f.length = false ↔ hi e ≤ lo f ∨ hi f ≤ lo e := by
      intro f hf
      have h3 : ¬ u64Max < e.logicalOffset + e.length := not_lt.mpr h1
      have h4 : ¬ u64Max < f.logicalOffset + f.length := not_lt.mpr (h2 f hf)
      rw [intersects, if_neg h3, if_neg h4, Bool.and_eq_false_iff, decide_eq_false_iff_not, decide_eq_false_iff_not,
        not_lt, not_lt]
      exact Or.comm
    rw [anyOverlap, Bool.or_eq_false_iff, anyOverlap_eq_false h2, pairwise_cons, any_eq_false]
    refine and_congr_left fun _ => forall₂_congr fun f hf => ?_
    rw [← hcross f hf, Bool.not_eq_true]

variable {new : List ExtentMapEntryV2}

theorem sortByOffset_layout (h : Insertable new) : Layout (sortByOffset new) := by
  have hperm : (sortByOffset new).Perm new := perm_insertionSort _ _
  have hsym : ∀ {a b : ExtentMapEntryV2}, hi a ≤ lo b ∨ hi b ≤ lo a → hi b ≤ lo a ∨ hi a ≤ lo b := Or.symm
  have hsorted : (sortByOffset new).Pairwise fun a b => a.logicalOffset ≤ b.logicalOffset :=
    pairwise_insertionSort _ _
  have hdisjoint := (hperm.pairwise_iff hsym).mpr h.disjoint
  have hpos : ∀ e ∈ sortByOffset new, lo e < hi e := fun e he => by
    have := h.pos e (hperm.mem_iff.mp he)
    rw [lo_eq, hi_eq]
    omega
  refine ⟨⟨hpos, ?_⟩, fun e he => h.fits e (hperm.mem_iff.mp he)⟩
  refine (hsorted.and hdisjoint).imp_of_mem fun {a b} ha hb hab => ?_
  have hle : lo a ≤ lo b := hab.1
  have := hpos b hb
  rcases hab.2 with h1 | h1
  · exact h1
  · omega

def inserted (es new : List ExtentMapEntryV2) : List ExtentMapEntryV2 :=
  mergeAdjacent (retainNonempty (applyInserts es (sortByOffset new) 0))

/-- **Insertion overwrites the ranges of the new extents**, and nothing else. -/
theorem inserted_spec (h : Layout es) (hnew : Insertable new) :
    Layout (inserted es new) ∧ ∀ b, content (inserted es new) b = (content new b).or (content es b) := by
  have hsorted := sortByOffset_layout hnew
  obtain ⟨h1, -, h2⟩ := applyInserts_spec h hsorted fun n _ => zero_le (lo n)
  obtain ⟨h3, h4⟩ := mergeAdjacent_spec h1
  rw [inserted, retainNonempty_eq h1.tiles]
  refine ⟨h3, fun b => ?_⟩
  rw [h4, content_perm hsorted.tiles (perm_insertionSort _ _)]
  refine content_overlay h1.tiles hsorted.tiles h.tiles fun t => ?_
  rw [h2]
  simp

end Tidefs.ExtentMap
