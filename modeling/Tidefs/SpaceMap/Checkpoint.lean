/-
# Checkpoints of the segment free map

A checkpoint writes the free segments of each segment group as a bitmap, all
groups or only those changed since the last one. Each entry carries the index
of its group, but the decoder does not read it: it takes the first entry for
group 0, the second for group 1, and so on. So a restored map has the free
segments of the `i`-th entry at group `i` (`fromCheckpoint_spec`), and it is the
map that was written exactly if no group with a free segment follows a group
that was left out (`checkpoint_round_trip_iff`).
-/
import Tidefs.Lib.Bits
import Tidefs.SpaceMap.Sound

namespace Tidefs.SpaceMap

open Ordered Word Bits List SegmentFreeMap Nat

/-! ### The bitmaps -/

/-- One byte for eight segments, the lowest bit first. -/
abbrev Bitmap := List (BitVec 8)

/-- The number of segment groups, as a 32-bit count, and the bytes of a group's
bitmap. There is no result for a group size of zero: the division panics. -/
def bitmapLayout (segmentCount segmentGroupSegments : ℕ) : Option (ℕ × ℕ) :=
  if segmentGroupSegments = 0 then none
  else some (asU32 (divCeil segmentCount segmentGroupSegments), segmentGroupSegments / 8)

/-- The body of the loops of `encode_bitmaps`. -/
def setBit (segmentGroupSegments : ℕ) (bitmaps : List Bitmap) (seg : ℕ) : List Bitmap :=
  let ms := seg / segmentGroupSegments
  let bitInMs := seg % segmentGroupSegments
  let byteIdx := bitInMs / 8
  let bitIdx := bitInMs % 8
  if ms < bitmaps.length ∧ byteIdx < (bitmaps.getD ms []).length then
    bitmaps.modify ms fun bitmap => bitmap.modify byteIdx (· ||| mask 8 bitIdx)
  else bitmaps

def encodeBitmaps (freeRuns : List Run) (segmentCount segmentGroupSegments : ℕ) : Option (List Bitmap) :=
  (bitmapLayout segmentCount segmentGroupSegments).map fun layout =>
    freeRuns.foldl
      (fun bitmaps r => (List.range' r.start (r.stop - r.start)).foldl (setBit segmentGroupSegments) bitmaps)
      (List.replicate layout.1 (List.replicate layout.2 0#8))

/-- The test `bitmap[bit / 8] & (1 << (bit % 8)) != 0`. The length of the bitmap
is checked before any bit is read. -/
def bitIsFree (bitmap : Bitmap) (bit : ℕ) : Bool := bitmap.getD (bit / 8) 0#8 &&& mask 8 (bit % 8) != 0#8

/-- The loop of `decode_bitmaps` over the bitmaps from position `msIdx` on. -/
def decodeGroups (segmentCount segmentGroupSegments : ℕ) : ℕ → List Bitmap → List Run → Except FreeMapError (List Run)
  | _, [], runs => .ok runs
  | msIdx, bitmap :: bitmaps, runs =>
    let msStart := wrap64 (msIdx * segmentGroupSegments)
    let validBits := min segmentGroupSegments (segmentCount - msStart)
    if bitmap.length < divCeil validBits 8 then .error .corruptCheckpoint
    else
      decodeGroups segmentCount segmentGroupSegments (msIdx + 1) bitmaps
        (scan (fun seg => bitIsFree bitmap (seg - msStart)) msStart (msStart + validBits) runs)

/-- The runs of the bitmaps; runs that meet at a group boundary are merged. -/
def decodeBitmaps (bitmaps : List Bitmap) (segmentCount segmentGroupSegments : ℕ) : Except FreeMapError (List Run) :=
  match decodeGroups segmentCount segmentGroupSegments 0 bitmaps [] with
  | .error e => .error e
  | .ok [] => .ok []
  | .ok (r :: runs) => .ok (SegmentFreeMap.coalesceLoop r runs)

/-! ### The checkpoint record -/

structure SegmentGroupBitmapEntry where
  segmentGroupIndex : ℕ
  bitmapLen : ℕ
  bitmapData : Bitmap
deriving DecidableEq

structure SpaceMapCheckpointV1 where
  magic : List (BitVec 8)
  version : ℕ
  segmentCount : ℕ
  segmentGroupSegments : ℕ
  segmentGroupCount : ℕ
  dirtySegmentGroupCount : ℕ
  generation : ℕ
  entries : List SegmentGroupBitmapEntry
deriving DecidableEq

/-- `SPACEMAP_CHECKPOINT_MAGIC`: the bytes of "SPMP". -/
def spacemapCheckpointMagic : List (BitVec 8) := [0x53#8, 0x50#8, 0x4d#8, 0x50#8]

/-- The group at position `i` goes into the checkpoint. -/
def includes (fm : SegmentFreeMap) (dirtyOnly : Bool) (i : ℕ) : Bool :=
  !dirtyOnly || decide (asU32 i ∈ fm.dirtySegmentGroups)

/-- `from_free_map`. There is no checkpoint if the group size is zero. -/
def SpaceMapCheckpointV1.fromFreeMap (fm : SegmentFreeMap) (dirtyOnly : Bool) : Option SpaceMapCheckpointV1 :=
  (encodeBitmaps fm.runs fm.segmentCount fm.segmentGroupSegments).map fun bitmaps =>
    let entries := (bitmaps.zipIdx.filter fun p => includes fm dirtyOnly p.2).map fun p =>
      { segmentGroupIndex := asU32 p.2, bitmapLen := asU32 p.1.length, bitmapData := p.1 }
    { magic := spacemapCheckpointMagic
      version := 1
      segmentCount := fm.segmentCount
      segmentGroupSegments := fm.segmentGroupSegments
      segmentGroupCount := asU32 (divCeil fm.segmentCount fm.segmentGroupSegments)
      dirtySegmentGroupCount := asU32 entries.length
      generation := fm.generation
      entries := entries }

def SegmentFreeMap.fromCheckpoint (checkpoint : SpaceMapCheckpointV1) : Except FreeMapError SegmentFreeMap :=
  match decodeBitmaps (checkpoint.entries.map SegmentGroupBitmapEntry.bitmapData) checkpoint.segmentCount
      checkpoint.segmentGroupSegments with
  | .error e => .error e
  | .ok runs =>
    match SegmentFreeMap.new checkpoint.segmentCount runs with
    | .error e => .error e
    | .ok fm => .ok { fm with
        generation := max checkpoint.generation 1
        segmentGroupSegments := checkpoint.segmentGroupSegments }

/-! ### What the encoder writes -/

theorem bitIsFree_eq (bitmap : Bitmap) (bit : ℕ) : bitIsFree bitmap bit = bitAt bitmap bit := by
  unfold bitIsFree
  have h := getD_and_mask (by decide) bitmap bit
  cases hb : bitAt bitmap bit with
  | false => rw [h.mpr hb]; rfl
  | true =>
    rw [hb] at h
    exact bne_iff_ne.mpr fun he => absurd (h.mp he) (by decide)

structure Shaped (count bytes : ℕ) (bitmaps : List Bitmap) : Prop where
  length : bitmaps.length = count
  bytes : ∀ bitmap ∈ bitmaps, bitmap.length = bytes

theorem shaped_replicate (count bytes : ℕ) : Shaped count bytes (replicate count (replicate bytes 0#8)) where
  length := length_replicate
  bytes := fun _ h => (eq_of_mem_replicate h) ▸ length_replicate

/-- The bit of a segment, by group and place in the group. -/
def hasBit (bitmaps : List Bitmap) (g b : ℕ) : Bool := bitIsFree (bitmaps.getD g []) b

variable {G count g n : ℕ} {bitmaps : List Bitmap} {fm : SegmentFreeMap} {dirtyOnly : Bool}

theorem Shaped.getD_length {bytes : ℕ} (h : Shaped count bytes bitmaps)
    (hg : g < count) : (bitmaps.getD g []).length = bytes := by
  have hg' : g < bitmaps.length := h.length ▸ hg
  rw [getD_eq_getElem _ _ hg']
  exact h.bytes _ (getElem_mem hg')

theorem setBit_shaped (h : Shaped count (G / 8) bitmaps) (seg : ℕ) : Shaped count (G / 8) (setBit G bitmaps seg) := by
  unfold setBit
  simp only
  split_ifs with hc
  · refine ⟨by rw [length_modify]; exact h.length, fun bitmap hb => ?_⟩
    obtain ⟨i, hi, rfl⟩ := getElem_of_mem hb
    rw [length_modify] at hi
    rw [getElem_modify]
    split_ifs
    · rw [length_modify]; exact h.bytes _ (getElem_mem hi)
    · exact h.bytes _ (getElem_mem hi)
  · exact h

theorem hasBit_setBit (h : Shaped count (G / 8) bitmaps) (hG : 0 < G)
    (h8 : 8 ∣ G) (seg g b : ℕ) : hasBit (setBit G bitmaps seg) g b = true ↔
      hasBit bitmaps g b = true ∨ g < count ∧ seg / G = g ∧ seg % G = b := by
  have hlt : seg % G < G := mod_lt _ hG
  have hbyte : seg % G / 8 < G / 8 := div_lt_div_of_lt_of_dvd h8 hlt
  unfold setBit
  simp only
  by_cases hc : seg / G < count
  · rw [if_pos ⟨h.length ▸ hc, by rw [h.getD_length hc]; exact hbyte⟩]
    unfold hasBit
    rw [getD_modify _ _ _ _ (h.length ▸ hc)]
    by_cases hg : seg / G = g
    · subst hg
      rw [if_pos rfl, bitIsFree_eq, bitIsFree_eq, bitAt_set (by decide) (by rw [h.getD_length hc]; exact hbyte),
        Bool.or_eq_true, decide_eq_true_iff]
      exact or_congr_right ⟨fun h1 => ⟨hc, rfl, h1.symm⟩, fun h1 => h1.2.2.symm⟩
    · rw [if_neg hg]
      exact ⟨Or.inl, fun h1 => h1.resolve_right fun h2 => hg h2.2.1⟩
  · rw [if_neg fun h1 => hc (h.length ▸ h1.1)]
    exact ⟨Or.inl, fun h1 => h1.resolve_right fun h2 => hc (h2.2.1 ▸ h2.1)⟩

theorem setBit_foldl (hG : 0 < G) (h8 : 8 ∣ G) : ∀ (segs : List ℕ) (bitmaps : List Bitmap),
    Shaped count (G / 8) bitmaps → Shaped count (G / 8) (segs.foldl (setBit G) bitmaps) ∧
      ∀ g b, hasBit (segs.foldl (setBit G) bitmaps) g b = true ↔
        hasBit bitmaps g b = true ∨ g < count ∧ ∃ seg ∈ segs, seg / G = g ∧ seg % G = b
  | [], bitmaps, h => ⟨h, fun g b => by simp⟩
  | seg :: segs, bitmaps, h => by
    obtain ⟨h1, h2⟩ := setBit_foldl hG h8 segs _ (setBit_shaped h seg)
    refine ⟨h1, fun g b => ?_⟩
    rw [foldl_cons, h2, hasBit_setBit h hG h8]
    simp only [mem_cons, exists_eq_or_imp]
    tauto

/-- The number of groups a checkpoint can hold. -/
def groupCount (fm : SegmentFreeMap) : ℕ := asU32 (divCeil fm.segmentCount fm.segmentGroupSegments)

theorem div_mod_iff {seg b : ℕ} (hb : b < G) : seg / G = g ∧ seg % G = b ↔ seg = g * G + b := by
  rw [Nat.div_mod_unique (Nat.zero_lt_of_lt hb), mul_comm]
  omega

/-- The encoder sets the bit of each free segment of each group it counts. -/
theorem encodeBitmaps_spec (hG : 0 < G) (h8 : 8 ∣ G) (runs : List Run) (n : ℕ) :
    ∃ bitmaps, encodeBitmaps runs n G = some bitmaps ∧ Shaped (asU32 (divCeil n G)) (G / 8) bitmaps ∧
      ∀ g b, b < G → (hasBit bitmaps g b = true ↔ g < asU32 (divCeil n G) ∧ Held runs (g * G + b)) := by
  obtain ⟨h1, h2⟩ := setBit_foldl hG h8 (runs.flatMap fun r => range' r.start (r.stop - r.start)) _
    (shaped_replicate (asU32 (divCeil n G)) (G / 8))
  rw [foldl_flatMap] at h1 h2
  have henc : encodeBitmaps runs n G = some (runs.foldl
      (fun bitmaps r => (range' r.start (r.stop - r.start)).foldl (setBit G) bitmaps)
      (replicate (asU32 (divCeil n G)) (replicate (G / 8) 0#8))) := by
    unfold encodeBitmaps bitmapLayout
    rw [if_neg hG.ne']
    rfl
  refine ⟨_, henc, h1, fun g b hb => ?_⟩
  have hzero : hasBit (replicate (asU32 (divCeil n G)) (replicate (G / 8) 0#8)) g b = false := by
    unfold hasBit
    rw [bitIsFree_eq, bitAt]
    simp only [getD_eq_getElem?_getD, getElem?_replicate]
    split_ifs <;> simp only [Option.getD_some, Option.getD_none, getElem?_replicate, getElem?_nil]
    · split_ifs <;> exact BitVec.getLsbD_zero
    · exact BitVec.getLsbD_zero
  rw [h2 g b, hzero]
  simp only [Bool.false_eq_true, false_or, div_mod_iff hb, exists_eq_right, Held, Run.mem_def, mem_flatMap,
    mem_range'_1]
  refine and_congr_right fun _ => exists_congr fun r => and_congr_right fun _ => ?_
  omega

/-! ### What the decoder reads -/

/-- Every run is non-empty and inside the pool. -/
def ValidRuns (n : ℕ) (l : List Run) : Prop := ∀ r ∈ l, r.start < r.stop ∧ r.stop ≤ n

/-- Merging runs that meet changes neither what they hold nor that they are valid. -/
theorem coalesceLoop_spec : ∀ (l : List Run) (r : Run), ValidRuns n (r :: l) →
    ValidRuns n (coalesceLoop r l) ∧ ∀ s, Held (coalesceLoop r l) s ↔ Held (r :: l) s
  | [], r, h => ⟨h, fun _ => Iff.rfl⟩
  | x :: l, r, h => by
    have hr := h r mem_cons_self
    have hx := h x (mem_cons_of_mem _ mem_cons_self)
    have hl : ∀ y ∈ l, y.start < y.stop ∧ y.stop ≤ n := fun y hy =>
      h y (mem_cons_of_mem _ (mem_cons_of_mem _ hy))
    unfold coalesceLoop
    split_ifs with hm
    · obtain ⟨h1, h2⟩ := coalesceLoop_spec l ⟨r.start, x.stop⟩
        (forall_mem_cons.mpr ⟨⟨by dsimp only; omega, hx.2⟩, hl⟩)
      refine ⟨h1, fun s => ?_⟩
      rw [h2]
      simp only [Held, mem_cons, exists_eq_or_imp, Run.mem_def]
      rw [← or_assoc]
      refine or_congr_left ?_
      omega
    · obtain ⟨h1, h2⟩ := coalesceLoop_spec l x (forall_mem_cons.mpr ⟨hx, hl⟩)
      refine ⟨forall_mem_cons.mpr ⟨hr, h1⟩, fun s => ?_⟩
      have h3 := h2 s
      simp only [Held, mem_cons, exists_eq_or_imp] at h3 ⊢
      rw [h3]

/-- The loop over the bitmaps takes the one at position `j` for group `msIdx + j`. -/
theorem decodeGroups_spec (hG : 0 < G) (h8 : 8 ∣ G) : ∀ (bitmaps : List Bitmap) (msIdx : ℕ) (runs : List Run),
    (∀ bitmap ∈ bitmaps, bitmap.length = G / 8) → (∀ j < bitmaps.length, (msIdx + j) * G < 2 ^ 64) → ValidRuns n runs →
    ∃ runs', decodeGroups n G msIdx bitmaps runs = .ok runs' ∧ ValidRuns n runs' ∧ ∀ s, Held runs' s ↔ Held runs s ∨
        s < n ∧ msIdx ≤ s / G ∧ s / G < msIdx + bitmaps.length ∧ hasBit bitmaps (s / G - msIdx) (s % G) = true
  | [], msIdx, runs, _, _, hv => ⟨runs, rfl, hv, fun s => by simp; omega⟩
  | bitmap :: bitmaps, msIdx, runs, hb, hw, hv => by
    have hstart : wrap64 (msIdx * G) = msIdx * G := Nat.mod_eq_of_lt (by simpa using hw 0 (by simp))
    have hlen : ¬ bitmap.length < divCeil (min G (n - msIdx * G)) 8 := by
      rw [hb bitmap mem_cons_self, not_lt, divCeil_le_iff (by decide), Nat.div_mul_cancel h8]
      exact min_le_left _ _
    have hle : msIdx * G ≤ msIdx * G + min G (n - msIdx * G) := le_add_right _ _
    let p : ℕ → Bool := fun seg => bitIsFree bitmap (seg - msIdx * G)
    have hv' : ValidRuns n (scan p (msIdx * G) (msIdx * G + min G (n - msIdx * G)) runs) := fun r hr => by
      rcases scan_valid p hle runs r hr with h1 | ⟨h1, h2, h3⟩
      · exact hv r h1
      · exact ⟨h2, by omega⟩
    obtain ⟨runs', h1, h2, h3⟩ := decodeGroups_spec hG h8 bitmaps (msIdx + 1) _
      (fun x hx => hb x (mem_cons_of_mem _ hx))
      (fun j hj => by
        have := hw (j + 1) (by simpa using hj)
        rwa [← add_assoc, add_right_comm] at this) hv'
    refine ⟨runs', ?_, h2, fun s => ?_⟩
    · unfold decodeGroups
      simp only [hstart]
      rw [if_neg hlen]
      exact h1
    · -- the segments of this group are those the scan went over
      have hscan : msIdx * G ≤ s ∧ s < msIdx * G + min G (n - msIdx * G) ∧ p s = true ↔
          s < n ∧ s / G = msIdx ∧ bitIsFree bitmap (s % G) = true := by
        constructor
        · rintro ⟨h4, h5, h6⟩
          obtain ⟨h7, h8⟩ := (div_mod_iff (b := s - msIdx * G) (by omega)).mpr (show s = msIdx * G + _ by omega)
          exact ⟨by omega, h7, h8 ▸ h6⟩
        · rintro ⟨h4, rfl, h6⟩
          have h7 := div_add_mod' s G
          have h9 := mod_lt s hG
          refine ⟨by omega, by omega, ?_⟩
          have h10 : s - s / G * G = s % G := by omega
          exact (congrArg (bitIsFree bitmap) h10).trans h6
      rw [h3, scan_covers p hle, hscan, or_assoc, length_cons]
      refine or_congr_right ?_
      rcases lt_or_ge (s / G) msIdx with hlt | hge
      · constructor
        · rintro (h4 | h4) <;> omega
        · intro h4; omega
      · obtain ⟨j, hj⟩ := Nat.exists_eq_add_of_le hge
        rw [hj, Nat.add_sub_cancel_left]
        cases j with
        | zero => simp [hasBit]
        | succ j =>
          have hsub : msIdx + (j + 1) - (msIdx + 1) = j := by omega
          simp [hasBit, hsub, add_assoc, add_comm 1]

theorem decodeBitmaps_spec (hn : n ≤ u64Max) (hG : 0 < G) (h8 : 8 ∣ G) (bitmaps : List Bitmap)
    (hb : ∀ bitmap ∈ bitmaps, bitmap.length = G / 8) (hlen : bitmaps.length ≤ divCeil n G) :
    ∃ runs, decodeBitmaps bitmaps n G = .ok runs ∧ ValidRuns n runs ∧
      ∀ s, Held runs s ↔ s < n ∧ s / G < bitmaps.length ∧ hasBit bitmaps (s / G) (s % G) = true := by
  have hword : ∀ j < bitmaps.length, (0 + j) * G < 2 ^ 64 := fun j hj => by
    have h1 := (lt_divCeil_iff hG).mp (hj.trans_le hlen)
    unfold u64Max at hn
    rw [zero_add]
    omega
  obtain ⟨runs, h1, h2, h3⟩ := decodeGroups_spec (n := n) hG h8 bitmaps 0 [] hb hword (by simp [ValidRuns])
  have hheld : ∀ s, Held runs s ↔ s < n ∧ s / G < bitmaps.length ∧ hasBit bitmaps (s / G) (s % G) = true := by
    intro s
    rw [h3]
    simp [Held]
  unfold decodeBitmaps
  rw [h1]
  cases runs with
  | nil => exact ⟨[], rfl, h2, hheld⟩
  | cons r l =>
    obtain ⟨h4, h5⟩ := coalesceLoop_spec l r h2
    exact ⟨_, rfl, h4, fun s => (h5 s).trans (hheld s)⟩

/-! ### Which group stands at which position -/

/-- The member at position `i` of a filtered range is the one that `i` members precede. -/
theorem length_filter_range {p : ℕ → Bool} {i g n : ℕ} (h : ((range n).filter p)[i]? = some g) :
    ((range g).filter p).length = i := by
  obtain ⟨hg, hp⟩ := mem_filter.mp (mem_of_getElem? h)
  have hplace : ((range n).filter p)[((range g).filter p).length]? = some g := by
    obtain ⟨k, rfl⟩ := Nat.exists_eq_add_of_lt (mem_range.mp hg)
    rw [Nat.add_assoc, range_add, range_succ_eq_map, filter_append, List.getElem?_append_right le_rfl, Nat.sub_self]
    simp [hp]
  exact (getElem?_inj (List.getElem?_eq_some_iff.mp hplace).1 (nodup_range.filter p)).mp (hplace.trans h.symm)

/-- The groups a checkpoint holds, in order. -/
def kept (fm : SegmentFreeMap) (dirtyOnly : Bool) : List ℕ :=
  (List.range (groupCount fm)).filter (includes fm dirtyOnly)

theorem mem_kept : g ∈ kept fm dirtyOnly ↔ g < groupCount fm ∧ includes fm dirtyOnly g = true := by
  simp [kept]

/-- A group never stands after its own position, and it stands there exactly if
the groups before it are all in the checkpoint. -/
theorem kept_position {i : ℕ} (h : (kept fm dirtyOnly)[i]? = some g) :
    i ≤ g ∧ (i = g ↔ ∀ k < g, includes fm dirtyOnly k = true) := by
  have hi := length_filter_range h
  have hle : ((range g).filter (includes fm dirtyOnly)).length ≤ (range g).length :=
    length_filter_le _ _
  rw [hi, length_range] at hle
  refine ⟨hle, ?_⟩
  rw [← hi]
  have := length_filter_eq_length_iff (p := includes fm dirtyOnly) (l := range g)
  rw [length_range] at this
  rw [this]
  simp

theorem zipIdx_eq_map_range (bitmaps : List Bitmap) :
    bitmaps.zipIdx = (range bitmaps.length).map fun i => (bitmaps.getD i [], i) := by
  refine ext_getElem (by simp) fun i h1 h2 => ?_
  have h3 : i < bitmaps.length := by simpa using h1
  simp [getElem?_eq_getElem h3]

/-- The entries of a checkpoint are the groups it keeps, each with the bits of
its free segments. -/
theorem fromFreeMap_spec (dirtyOnly : Bool) (hG : 0 < fm.segmentGroupSegments) (h8 : 8 ∣ fm.segmentGroupSegments) :
    ∃ cp bitmaps, SpaceMapCheckpointV1.fromFreeMap fm dirtyOnly = some cp ∧
      cp.segmentCount = fm.segmentCount ∧ cp.segmentGroupSegments = fm.segmentGroupSegments ∧
      cp.entries = (kept fm dirtyOnly).map (fun g =>
        { segmentGroupIndex := g, bitmapLen := asU32 (bitmaps.getD g []).length, bitmapData := bitmaps.getD g [] }) ∧
      Shaped (groupCount fm) (fm.segmentGroupSegments / 8) bitmaps ∧ ∀ g b, b < fm.segmentGroupSegments →
        (hasBit bitmaps g b = true ↔ g < groupCount fm ∧ g * fm.segmentGroupSegments + b ∈ fm.freeSet) := by
  obtain ⟨bitmaps, h1, h2, h3⟩ := encodeBitmaps_spec hG h8 fm.runs fm.segmentCount
  refine ⟨_, bitmaps, by unfold SpaceMapCheckpointV1.fromFreeMap; rw [h1]; rfl, rfl, rfl, ?_, h2, h3⟩
  dsimp only
  rw [zipIdx_eq_map_range, filter_map, map_map, h2.length]
  refine map_congr_left fun g hg => ?_
  have hlt : g < groupCount fm := by
    rw [mem_filter, mem_range] at hg
    exact hg.1
  have hword : asU32 g = g := mod_eq_of_lt (hlt.trans (mod_lt _ (by decide)))
  simp only [Function.comp_apply, hword]

theorem hasBit_kept (bitmaps : List Bitmap) (l : List ℕ) (j b : ℕ) :
    j < (l.map fun g => bitmaps.getD g []).length ∧ hasBit (l.map fun g => bitmaps.getD g []) j b = true ↔
      ∃ g, l[j]? = some g ∧ hasBit bitmaps g b = true := by
  unfold hasBit
  rw [length_map]
  by_cases hj : j < l.length
  · simp [hj]
  · simp [hj]

variable (h : SegmentFreeMap.Inv fm)
include h

/-- **The restored map.** It has at group `i` the free segments of the `i`-th
group the checkpoint holds, as far as the pool reaches. -/
theorem fromCheckpoint_spec (dirtyOnly : Bool) (hG : 0 < fm.segmentGroupSegments) (h8 : 8 ∣ fm.segmentGroupSegments) :
    ∃ cp fm', SpaceMapCheckpointV1.fromFreeMap fm dirtyOnly = some cp ∧
      cp.entries.map SegmentGroupBitmapEntry.segmentGroupIndex = kept fm dirtyOnly ∧
      fromCheckpoint cp = .ok fm' ∧ SegmentFreeMap.Inv fm' ∧
      ∀ s, s ∈ fm'.freeSet ↔ s < fm.segmentCount ∧ ∃ g, (kept fm dirtyOnly)[s / fm.segmentGroupSegments]? = some g ∧
        g * fm.segmentGroupSegments + s % fm.segmentGroupSegments ∈ fm.freeSet := by
  obtain ⟨cp, bitmaps, h1, h2, h3, h4, h5, h6⟩ := fromFreeMap_spec dirtyOnly hG h8
  have hdata : cp.entries.map SegmentGroupBitmapEntry.bitmapData = (kept fm dirtyOnly).map fun g => bitmaps.getD g [] := by
    rw [h4, map_map]
    rfl
  have hbytes : ∀ bitmap ∈ (kept fm dirtyOnly).map (fun g => bitmaps.getD g []),
      bitmap.length = fm.segmentGroupSegments / 8 := fun bitmap hb => by
    obtain ⟨g, hg, rfl⟩ := mem_map.mp hb
    exact h5.getD_length (mem_kept.mp hg).1
  have hlen : ((kept fm dirtyOnly).map fun g => bitmaps.getD g []).length ≤
      divCeil fm.segmentCount fm.segmentGroupSegments := by
    rw [length_map]
    calc (kept fm dirtyOnly).length ≤ (range (groupCount fm)).length := length_filter_le _ _
      _ = groupCount fm := length_range
      _ ≤ _ := mod_le _ _
  obtain ⟨runs, e1, e2, e3⟩ := decodeBitmaps_spec h.word hG h8 _ hbytes hlen
  obtain ⟨fm', n1, n2, n3, n4, -⟩ := new_spec h.word runs e2
  refine ⟨cp, { fm' with generation := max cp.generation 1, segmentGroupSegments := cp.segmentGroupSegments }, h1,
    ?_, ?_, n2.congr rfl rfl rfl, fun s => ?_⟩
  · rw [h4, map_map]
    exact map_id' _
  · unfold fromCheckpoint
    rw [hdata, h2, h3, e1]
    dsimp only
    rw [n1]
  · have hfree : s ∈ fm'.freeSet ↔ Held runs s := by rw [n4]; rfl
    have hmod := mod_lt s hG
    have hkept : ∀ g, (kept fm dirtyOnly)[s / fm.segmentGroupSegments]? = some g → g < groupCount fm := fun g hg =>
      (mem_kept.mp (mem_of_getElem? hg)).1
    refine hfree.trans ?_
    rw [e3, hasBit_kept]
    refine and_congr_right fun _ => exists_congr fun g => and_congr_right fun hg => ?_
    rw [h6 _ _ hmod]
    exact ⟨And.right, fun h7 => ⟨hkept g hg, h7⟩⟩

/-! ### When a checkpoint restores the map -/

/-- What a checkpoint is for: restoring it frees a segment of a group it holds
exactly if the segment was free, no segment of another group, and, for a full
checkpoint, it gives the same runs. -/
def RoundTrips (fm : SegmentFreeMap) (dirtyOnly : Bool) : Prop :=
  ∃ cp fm', SpaceMapCheckpointV1.fromFreeMap fm dirtyOnly = some cp ∧ SegmentFreeMap.fromCheckpoint cp = .ok fm' ∧
    (∀ s, s / fm.segmentGroupSegments ∈ cp.entries.map SegmentGroupBitmapEntry.segmentGroupIndex →
      fm'.isFree s = fm.isFree s) ∧
    (∀ s, s / fm.segmentGroupSegments ∉ cp.entries.map SegmentGroupBitmapEntry.segmentGroupIndex →
      fm'.isFree s = false) ∧ (dirtyOnly = false → fm'.runs = fm.runs)

def GroupEmpty (fm : SegmentFreeMap) (g : ℕ) : Prop := ∀ s, s / fm.segmentGroupSegments = g → fm.isFree s = false

/-- The condition for it, on the map that is written. A dirty group behind one
that is not dirty has no free segment; for a full checkpoint, the 32-bit group
count reaches every free segment. -/
structure PositionsMatch (fm : SegmentFreeMap) (dirtyOnly : Bool) : Prop where
  groupSize : 0 < fm.segmentGroupSegments
  dirty : dirtyOnly = true → ∀ g < groupCount fm, g ∈ fm.dirtySegmentGroups →
    (∃ k < g, k ∉ fm.dirtySegmentGroups) → GroupEmpty fm g
  full : dirtyOnly = false → ∀ s, fm.isFree s = true → s / fm.segmentGroupSegments < groupCount fm

/-- Every group that does not stand at its own position is empty. -/
def DisplacedEmpty (fm : SegmentFreeMap) (K : List ℕ) : Prop := ∀ i g : ℕ, K[i]? = some g → i ≠ g → GroupEmpty fm g

theorem groupEmpty_iff (hG : 0 < fm.segmentGroupSegments) :
    GroupEmpty fm g ↔ ∀ b < fm.segmentGroupSegments, g * fm.segmentGroupSegments + b ∉ fm.freeSet := by
  unfold GroupEmpty
  simp only [← Bool.not_eq_true, isFree_iff h]
  constructor
  · intro h1 b hb
    exact h1 _ ((div_mod_iff hb).mpr rfl).1
  · rintro h1 s rfl
    have := h1 (s % fm.segmentGroupSegments) (mod_lt _ hG)
    rwa [div_add_mod'] at this

/-- The map with the free segments of the `i`-th kept group at group `i` agrees
with `fm` on the kept groups, and has nothing elsewhere, exactly if the groups
out of place are empty. -/
theorem restored_iff (hG : 0 < fm.segmentGroupSegments) {F : Set ℕ}
    (hF : ∀ s, s ∈ F ↔ s < fm.segmentCount ∧ ∃ g, (kept fm dirtyOnly)[s / fm.segmentGroupSegments]? = some g ∧
      g * fm.segmentGroupSegments + s % fm.segmentGroupSegments ∈ fm.freeSet) :
    ((∀ s, s / fm.segmentGroupSegments ∈ kept fm dirtyOnly → (s ∈ F ↔ s ∈ fm.freeSet)) ∧
      ∀ s, s / fm.segmentGroupSegments ∉ kept fm dirtyOnly → s ∉ F) ↔ DisplacedEmpty fm (kept fm dirtyOnly) := by
  constructor
  · rintro ⟨h1, h2⟩ i
    -- by strong induction on the position: the group read at `i` is group `i`, itself out of place
    induction i using Nat.strong_induction_on with
    | _ i ih =>
      intro g hg hne
      rw [groupEmpty_iff h hG]
      intro b hb hfree
      have hi : i ≤ g := (kept_position hg).1
      obtain ⟨e1, e2⟩ := (div_mod_iff hb).mpr (rfl : i * fm.segmentGroupSegments + b = _)
      have hlt := h.lt_segmentCount hfree
      have hle := mul_le_mul_right fm.segmentGroupSegments hi
      have hF' : i * fm.segmentGroupSegments + b ∈ F := (hF _).mpr ⟨by omega, g, by rw [e1]; exact hg, by rw [e2]; exact hfree⟩
      by_cases hk : i ∈ kept fm dirtyOnly
      · obtain ⟨j, hj⟩ := getElem?_of_mem hk
        have hji : j ≤ i := (kept_position hj).1
        have hjne : j ≠ i := by
          rintro rfl
          rw [hj] at hg
          exact hne (Option.some.inj hg)
        exact (groupEmpty_iff h hG).mp (ih j (by omega) i hj hjne) b hb ((h1 _ (by rw [e1]; exact hk)).mp hF')
      · exact h2 _ (by rw [e1]; exact hk) hF'
  · intro hd
    -- only a group at its own position contributes
    have hmem : ∀ s, s ∈ F ↔ s ∈ fm.freeSet ∧
        (kept fm dirtyOnly)[s / fm.segmentGroupSegments]? = some (s / fm.segmentGroupSegments) := by
      intro s
      rw [hF]
      constructor
      · rintro ⟨-, g, hg, hs⟩
        by_cases he : s / fm.segmentGroupSegments = g
        · subst he
          rw [div_add_mod'] at hs
          exact ⟨hs, hg⟩
        · exact absurd hs ((groupEmpty_iff h hG).mp (hd _ g hg he) _ (mod_lt _ hG))
      · rintro ⟨hs, hg⟩
        exact ⟨h.lt_segmentCount hs, _, hg, by rw [div_add_mod']; exact hs⟩
    refine ⟨fun s hk => ?_, fun s hk hs => hk (mem_of_getElem? ((hmem s).mp hs).2)⟩
    rw [hmem]
    refine ⟨And.left, fun hs => ⟨hs, ?_⟩⟩
    obtain ⟨i, hi⟩ := getElem?_of_mem hk
    by_cases he : i = s / fm.segmentGroupSegments
    · rw [← he] at hi ⊢
      exact hi
    · have := (groupEmpty_iff h hG).mp (hd i _ hi he) _ (mod_lt s hG)
      rw [div_add_mod'] at this
      exact absurd hs this

omit h

theorem displacedEmpty_dirty_iff : DisplacedEmpty fm (kept fm true) ↔
    ∀ g < groupCount fm, g ∈ fm.dirtySegmentGroups → (∃ k < g, k ∉ fm.dirtySegmentGroups) → GroupEmpty fm g := by
  -- below the group count, an index is its own 32-bit value
  have hinc : ∀ k < groupCount fm, includes fm true k = true ↔ k ∈ fm.dirtySegmentGroups := fun k hk => by
    have hword : asU32 k = k := mod_eq_of_lt (hk.trans (mod_lt _ (by decide)))
    simp [includes, hword]
  constructor
  · rintro hd g hg hdirty ⟨k, hk, hclean⟩
    obtain ⟨i, hi⟩ := getElem?_of_mem (mem_kept.mpr ⟨hg, (hinc g hg).mpr hdirty⟩)
    refine hd i g hi fun he => hclean ?_
    exact (hinc k (hk.trans hg)).mp ((kept_position hi).2.mp he k hk)
  · intro h i g hi hne
    obtain ⟨hg, hdirty⟩ := mem_kept.mp (mem_of_getElem? hi)
    refine h g hg ((hinc g hg).mp hdirty) ?_
    by_contra hall
    push Not at hall
    exact hne ((kept_position hi).2.mpr fun k hk => (hinc k (hk.trans hg)).mpr (hall k hk))

theorem displacedEmpty_full (fm : SegmentFreeMap) : DisplacedEmpty fm (kept fm false) :=
  fun _ _ hi hne => absurd ((kept_position hi).2.mpr fun _ _ => rfl) hne

theorem runs_eq_iff {fm' : SegmentFreeMap} (h : SegmentFreeMap.Inv fm) (h' : SegmentFreeMap.Inv fm') :
    fm'.runs = fm.runs ↔ fm'.freeSet = fm.freeSet := by
  constructor
  · intro he
    ext s
    show Held fm'.runs s ↔ Held fm.runs s
    rw [he]
  · intro he
    have hR : fm'.freeRuns = fm.freeRuns := h'.canonical.ext h.canonical fun s => (Set.ext_iff.mp he s)
    unfold runs
    rw [hR]

/-- **A checkpoint restores the map that was written exactly if the positions
match.** The decoder goes by position, so a dirty group behind one that was
left out lands on another group, which matters if it has a free segment. -/
theorem checkpoint_round_trip_iff (fm : SegmentFreeMap) (h : SegmentFreeMap.Inv fm)
    (h8 : 8 ∣ fm.segmentGroupSegments) (dirtyOnly : Bool) : RoundTrips fm dirtyOnly ↔ PositionsMatch fm dirtyOnly := by
  rcases Nat.eq_zero_or_pos fm.segmentGroupSegments with h0 | hG
  · refine ⟨?_, fun hp => absurd hp.groupSize (by omega)⟩
    rintro ⟨cp, -, hcp, -⟩
    simp [SpaceMapCheckpointV1.fromFreeMap, encodeBitmaps, bitmapLayout, h0] at hcp
  obtain ⟨cp, fm', h1, h2, h3, h4, h5⟩ := fromCheckpoint_spec h dirtyOnly hG h8
  have hagree := restored_iff h hG h5
  have hfree : ∀ s, fm'.isFree s = fm.isFree s ↔ (s ∈ fm'.freeSet ↔ s ∈ fm.freeSet) := fun s => by
    rw [Bool.eq_iff_iff, SegmentFreeMap.isFree_iff h, SegmentFreeMap.isFree_iff h4]
  have hused : ∀ s, fm'.isFree s = false ↔ s ∉ fm'.freeSet := fun s => by
    rw [← Bool.not_eq_true, SegmentFreeMap.isFree_iff h4]
  -- the only checkpoint, and the only restored map, there is
  have hrt : RoundTrips fm dirtyOnly ↔ DisplacedEmpty fm (kept fm dirtyOnly) ∧ (dirtyOnly = false → fm'.runs = fm.runs) := by
    rw [← hagree]
    constructor
    · rintro ⟨cp', fm'', e1, e2, e3, e4, e5⟩
      obtain rfl : cp = cp' := Option.some.inj (h1.symm.trans e1)
      obtain rfl : fm' = fm'' := Except.ok.inj (h3.symm.trans e2)
      rw [h2] at e3 e4
      exact ⟨⟨fun s hs => (hfree s).mp (e3 s hs), fun s hs => (hused s).mp (e4 s hs)⟩, e5⟩
    · rintro ⟨⟨e3, e4⟩, e5⟩
      refine ⟨cp, fm', h1, h3, ?_, ?_, e5⟩
      · rw [h2]; exact fun s hs => (hfree s).mpr (e3 s hs)
      · rw [h2]; exact fun s hs => (hused s).mpr (e4 s hs)
  rw [hrt]
  cases dirtyOnly with
  | true =>
    rw [displacedEmpty_dirty_iff]
    exact ⟨fun hd => ⟨hG, fun _ => hd.1, fun hf => absurd hf (by decide)⟩,
      fun hp => ⟨hp.dirty rfl, fun hf => absurd hf (by decide)⟩⟩
  | false =>
    obtain ⟨e3, e4⟩ := hagree.mpr (displacedEmpty_full fm)
    have hk : ∀ s, s / fm.segmentGroupSegments ∈ kept fm false ↔ s / fm.segmentGroupSegments < groupCount fm :=
      fun s => by rw [mem_kept]; exact and_iff_left rfl
    have hall : fm'.freeSet = fm.freeSet ↔ ∀ s, fm.isFree s = true → s / fm.segmentGroupSegments < groupCount fm := by
      simp only [SegmentFreeMap.isFree_iff h]
      constructor
      · intro he s hs
        by_contra hlt
        exact e4 s (fun hm => hlt ((hk s).mp hm)) (he ▸ hs)
      · intro ha
        ext s
        by_cases hm : s / fm.segmentGroupSegments ∈ kept fm false
        · exact e3 s hm
        · exact ⟨fun hs => absurd hs (e4 s hm), fun hs => absurd ((hk s).mpr (ha s hs)) hm⟩
    rw [runs_eq_iff h h4, hall]
    exact ⟨fun hd => ⟨hG, fun hf => absurd hf (by decide), fun _ => hd.2 rfl⟩,
      fun hp => ⟨displacedEmpty_full fm, hp.full⟩⟩

/-- Two groups of eight segments, of which only the second is dirty: segment 8
was added and is free, segment 0 is not. -/
def dirtySecondGroup : SegmentFreeMap :=
  ({ SegmentFreeMap.empty 16 with segmentGroupSegments := 8 }.addFree 8).1

/-- The incremental checkpoint of that map frees segment 0 when it is restored. -/
theorem dirty_second_group_lost : ¬ RoundTrips dirtySecondGroup true := by
  rintro ⟨cp, fm', h1, h2, h3, h4, -⟩
  have hrestored : ((SpaceMapCheckpointV1.fromFreeMap dirtySecondGroup true).map fun cp =>
      (cp.entries.map SegmentGroupBitmapEntry.segmentGroupIndex,
        (SegmentFreeMap.fromCheckpoint cp).toOption.map fun fm => fm.isFree 0)) = some ([1], some true) := by
    decide +kernel
  rw [h1, Option.map_some, h2] at hrestored
  obtain ⟨hi, hf⟩ := Prod.mk.inj (Option.some.inj hrestored)
  have h0 := h4 0 (by rw [hi]; decide)
  have hf' : fm'.isFree 0 = true := Option.some.inj hf
  rw [h0] at hf'
  exact Bool.false_ne_true hf'

/-- The first group is dirty instead: segment 0 was added. -/
def dirtyFirstGroup : SegmentFreeMap :=
  ({ SegmentFreeMap.empty 16 with segmentGroupSegments := 8 }.addFree 0).1

/-- A full checkpoint of the first map restores it, and so does an incremental one of the other. -/
theorem checkpoint_round_trip_full : RoundTrips dirtySecondGroup false ∧ RoundTrips dirtyFirstGroup true := by
  have hstart : SegmentFreeMap.Inv { SegmentFreeMap.empty 16 with segmentGroupSegments := 8 } :=
    (SegmentFreeMap.empty_inv 16 (by decide)).congr rfl rfl rfl
  have hi : SegmentFreeMap.Inv dirtySecondGroup := (SegmentFreeMap.addFree_spec hstart 8).1
  refine ⟨(checkpoint_round_trip_iff dirtySecondGroup hi (by decide) false).mpr
    ⟨by decide, fun hf => absurd hf (by decide), fun _ s hs => ?_⟩,
    (checkpoint_round_trip_iff dirtyFirstGroup (SegmentFreeMap.addFree_spec hstart 0).1 (by decide) true).mpr
      ⟨by decide, fun _ g _ hg ⟨k, hk, _⟩ => ?_, fun hf => absurd hf (by decide)⟩⟩
  swap
  · have hfirst : g ∈ [0] := hg
    rw [List.mem_singleton.mp hfirst] at hk
    exact absurd hk (Nat.not_lt_zero k)
  have hlt := hi.lt_segmentCount ((SegmentFreeMap.isFree_iff hi s).mp hs)
  have hcount : groupCount dirtySecondGroup = 2 := by decide +kernel
  have hsize : dirtySecondGroup.segmentGroupSegments = 8 := by decide +kernel
  have hsegs : dirtySecondGroup.segmentCount = 16 := by decide +kernel
  rw [hcount, hsize]
  omega

end Tidefs.SpaceMap
