/-
# Changing the representation

Moving the extents of a file from one representation to another leaves the mapping of
its bytes as it is (`checkAndSwitch_spec`), so lookups do not tell which one is active.
Each operation changes the mapping as it does in a single representation, whether or
not extents are moved before or after it (`step_spec`).

What can fail is the room in the inline form: six extents. An insertion is only
estimated to fit, and an insertion into the middle of an extent leaves one more than
the estimate; `fallocate` does not estimate at all. A move between the two trees fails
if the check of the new one finds extents without their locators, or a tree too deep.
-/
import Tidefs.ExtentMap.Polymorphic

namespace Tidefs.ExtentMap

open Word Btree Ordered Spans Spans.HasSpan ExtentMapEntryV2 List Option MultiLevelBTreeExtentMap Nat Layout

/-! ### Extents in order -/

section Lists

variable {es : List ExtentMapEntryV2}

theorem Layout.insertable (h : Layout es) : Insertable es := by
  refine ⟨fun e he => ?_, h.fits, h.tiles.apart.imp .inl⟩
  have := h.tiles.pos e he
  rw [lo_eq, hi_eq] at this
  omega

theorem sortByOffset_eq (h : Layout es) : sortByOffset es = es :=
  List.Pairwise.insertionSort_eq (h.tiles.ascend.imp le_of_lt)

/-- The whole range clips nothing. -/
theorem clipped_all (h : Layout es) : clipped es 0 u64Max = es := by
  rw [clipped_eq h (zero_le _)]
  refine (flatMap_congr fun e he => ?_).trans (flatMap_singleton' es)
  have hfit : hi e ≤ u64Max := h.fits e he
  rw [clippedOverlap_eq (h.fits e he), max_zero, min_eq_left hfit, existingFragment_self (h.tiles.pos e he)]

theorem mergeLoop_unjoined : ∀ {es : List ExtentMapEntryV2} {last : ExtentMapEntryV2},
    ∃ first rest, mergeLoop last es = first :: rest ∧ Unjoined (first :: rest) ∧
      first.logicalOffset = last.logicalOffset ∧ first.extentType = last.extentType ∧
      first.locatorId = last.locatorId ∧ first.checksum = last.checksum
  | [], last => ⟨last, [], rfl, isChain_singleton _, rfl, rfl, rfl, rfl⟩
  | e :: es, last => by
    rw [mergeLoop]
    split_ifs with hj
    · exact mergeLoop_unjoined
    · obtain ⟨first, rest, h1, h2, h3, h4, h5, h6⟩ := @mergeLoop_unjoined es e
      refine ⟨last, first :: rest, by rw [h1], isChain_cons_cons.mpr ⟨?_, h2⟩, rfl, rfl, rfl, rfl⟩
      rintro ⟨h7, h8, h9, h10⟩
      exact hj ⟨h7.trans h3, h8.trans h4, h9.trans h5, h10.trans h6⟩

/-- Joining neighbours leaves none that could be joined. -/
theorem mergeAdjacent_unjoined : ∀ es : List ExtentMapEntryV2, Unjoined (mergeAdjacent es)
  | [] => isChain_nil
  | _ :: _ => by
    obtain ⟨first, rest, h1, h2, -⟩ := mergeLoop_unjoined
    rw [mergeAdjacent, h1]
    exact h2

/-- Extents that cannot be joined stay as they are. -/
theorem mergeLoop_eq : ∀ {es : List ExtentMapEntryV2} {last : ExtentMapEntryV2}, Unjoined (last :: es) →
    mergeLoop last es = last :: es
  | [], _, _ => rfl
  | e :: es, last, h => by
    obtain ⟨h1, h2⟩ := isChain_cons_cons.mp h
    rw [mergeLoop, if_neg h1, mergeLoop_eq h2]

theorem mergeAdjacent_eq : ∀ {es : List ExtentMapEntryV2}, Unjoined es → mergeAdjacent es = es
  | [], _ => rfl
  | _ :: _, h => mergeLoop_eq h

/-- Extents in order that cannot be joined are inserted as they are. -/
theorem insertedEach_eq : ∀ {new es : List ExtentMapEntryV2}, Layout (es ++ new) → Unjoined (es ++ new) →
    insertedEach es new = es ++ new
  | [], es, _, _ => (append_nil es).symm
  | n :: new, es, h, hj => by
    have happ : es ++ n :: new = (es ++ [n]) ++ new := by simp
    have hfront : Layout (es ++ [n]) := (append_iff.mp (happ ▸ h)).1
    have hins : inserted es [n] = es ++ [n] := by
      have hu : Unjoined (es ++ [n]) := List.IsChain.prefix (happ ▸ hj) (prefix_append ..)
      rw [inserted_append hfront, mergeAdjacent_eq hu]
    show insertedEach (inserted es [n]) new = _
    rw [hins, happ]
    exact insertedEach_eq (happ ▸ h) (happ ▸ hj)

theorem fitsInline_length : ∀ {new es : List ExtentMapEntryV2}, FitsInline es new →
    es.length ≤ extentMapV1MaxEntries → (insertedEach es new).length ≤ extentMapV1MaxEntries
  | [], _, _, hlen => hlen
  | n :: new, es, h, _ => by
    show (insertedEach (inserted es [n]) new).length ≤ extentMapV1MaxEntries
    exact fitsInline_length h.2 h.1

theorem mergeExtentsLoop_spec : ∀ {es : List ExtentMapEntryV2} {last : ExtentMapEntryV2}, Layout (last :: es) →
    Layout (mergeExtentsLoop last es) ∧ (∀ x ∈ mergeExtentsLoop last es, lo last ≤ lo x) ∧
      ∀ b, content (mergeExtentsLoop last es) b = content (last :: es) b
  | [], last, h => ⟨h, by simp [mergeExtentsLoop], fun _ => rfl⟩
  | e :: es, last, h => by
    rw [mergeExtentsLoop]
    split_ifs with hj
    · obtain ⟨hloc, hkind, hadj, hsum⟩ := hj
      have htype : last.extentType = e.extentType := by rw [extentType, extentType, hkind]
      obtain ⟨h1, h2⟩ := joined_spec h ⟨hadj, htype, hloc, hsum⟩
      obtain ⟨h3, h4, h5⟩ := mergeExtentsLoop_spec h1
      exact ⟨h3, h4, fun b => (h5 b).trans (h2 b)⟩
    · exact h.keep_last (mergeExtentsLoop_spec (cons_iff.mp h).2.2.1)

theorem mergeAdjacentExtents_spec : ∀ {es : List ExtentMapEntryV2}, Layout es →
    Layout (mergeAdjacentExtents es) ∧ content (mergeAdjacentExtents es) = content es
  | [], h => ⟨h, rfl⟩
  | _ :: _, h => ⟨(mergeExtentsLoop_spec h).1, funext (mergeExtentsLoop_spec h).2.2⟩

/-- Extents in order that could not be joined go into an empty map as they are. -/
theorem inserted_nil (h : Layout es) (hu : Unjoined es) : inserted [] es = es := by
  show mergeAdjacent (retainNonempty (sortByOffset es)) = es
  rw [sortByOffset_eq h, retainNonempty_eq h.tiles, mergeAdjacent_eq hu]

/-- The same extents, or as they go into an empty map. -/
def Copied (es es' : List ExtentMapEntryV2) : Prop := es' = es ∨ es' = inserted [] es ∨ es' = insertedEach [] es

variable {es' : List ExtentMapEntryV2}

theorem Copied.content (hc : Copied es es') (h : Layout es) : content es' = content es := by
  rcases hc with rfl | rfl | rfl
  · rfl
  · exact funext fun b => ((inserted_spec nil h.insertable).2 b).trans or_none
  · exact funext fun b => ((insertedEach_spec nil h).2 b).trans or_none

theorem Copied.kept (hc : Copied es es') : Kept es [] es' := by
  intro Q hQ hes hnil
  rcases hc with rfl | rfl | rfl
  · exact hes
  · exact inserted_kept hQ hnil hes
  · exact insertedEach_kept hQ hnil hes

/-- **Extents that could not be joined are copied as they are.** -/
theorem Copied.eq (hc : Copied es es') (h : Layout es) (hu : Unjoined es) : es' = es := by
  rcases hc with rfl | rfl | rfl
  · rfl
  · exact inserted_nil h hu
  · exact insertedEach_eq h hu

/-- What lies within the file is a matter of its bytes. -/
theorem Within.congr {size size' : ℕ} (h : Layout es) (h' : Layout es')
    (hw : Within size es) (hb : content es' = content es) (hs : size ≤ size') : Within size' es' :=
  (within_iff h').mpr fun b t ht hu => lt_of_lt_of_le ((within_iff h).mp hw b t (hb ▸ ht) hu) hs

end Lists

/-! ### Insertion into the trees -/

section Trees

variable {P : Params} {H : Type} [MapHeader H] {m : TreeMap H} {op : Op} {α : Type} {r : TreeMap H × Outcome α}

theorem Effect.content_eq {deep : Bool} (h : Effect P deep m op r)
    (hacc : Accepts m op) : content r.1.extents = applyOp m.fileSize (content m.extents) op := by
  rcases h.bytes with ⟨-, -, h1⟩ | ⟨h1, -⟩
  · exact h1
  · exact absurd hacc h1

/-- What an effect says of bytes and errors. -/
theorem Effect.acts {deep : Bool} (h : Effect P deep m op r) :
    AcceptsOn m.fileSize m.extents op ∧ content r.1.extents = applyOp m.fileSize (content m.extents) op ∨
      (∃ e, r.2 = .error e) ∧ content r.1.extents = content m.extents := by
  rcases h.bytes with ⟨h1, -, h2⟩ | ⟨-, h1, h2⟩
  · exact .inl ⟨(accepts_iff m op).mp h1, h2⟩
  · refine .inr ⟨?_, by rw [h2]⟩
    cases hr : r.2 with
    | error e => exact ⟨e, rfl⟩
    | ok a =>
      rw [hr] at h1
      exact Bool.noConfusion h1

/-- An insertion of entries rebuilds the map from the merged extents and reports. -/
theorem insertWith_eq (hP : P.Valid) (h : Sound P m) {bad : ExtentMapEntryV2 → Bool}
    {report : TreeMap H → Outcome Unit} (hbad : ∀ e, Fits e → (bad e = true ↔ e.length = 0))
    {entries : List ExtentMapEntryV2} (hnew : Insertable entries) (hne : entries ≠ []) :
    ∃ m', insertWith P bad report m entries = some (m', report m') ∧
      rebuild P m (inserted m.extents entries) = some m' ∧ m'.extents = inserted m.extents entries := by
  obtain ⟨m', h1, -, h2⟩ := rebuild_spec hP m (inserted_spec h.layout hnew).1
  have hany : ¬ entries.any bad = true := fun hc => by
    obtain ⟨e, he, hb⟩ := any_eq_true.mp hc
    have := (hbad e (hnew.fits e he)).mp hb
    have := hnew.pos e he
    omega
  have hover : ¬ anyOverlap entries = true := by
    rw [((insertable_iff hnew.fits).mp hnew).2]
    exact Bool.noConfusion
  refine ⟨m', ?_, h1, h2⟩
  rw [insertWith, if_neg (by simpa using hne), if_neg hany, if_neg hover, insertChecked_eq hP h, h1, map_some]

theorem rebuild_depth (hP : P.Valid) {m m' : MultiLevelBTreeExtentMap} {es : List ExtentMapEntryV2} (h : Layout es)
    (hr : rebuild P m es = some m') (hfew : es.length < deepLimit P) : checkDepth m' = .ok () := by
  obtain ⟨m'', h1, h2, h3⟩ := rebuild_spec hP m h
  obtain rfl := some.inj (hr.symm.trans h1)
  obtain ⟨packed, -, hr⟩ := bind_eq_some_iff.mp hr
  obtain ⟨tree, -, hr⟩ := bind_eq_some_iff.mp hr
  obtain ⟨depth, hd, rfl⟩ := map_eq_some_iff.mp hr
  exact if_neg (not_lt.mpr (depth_le_of_few hP h2 (h3.symm ▸ hfew) hd))

variable {t : TreeMap H} {entries : List ExtentMapEntryV2}

variable [CountsEntries H]

/-- The map as it was if there is nothing to insert, else the merged extents and their number. -/
def Receives (t : TreeMap H) (entries : List ExtentMapEntryV2) (t' : TreeMap H) : Prop :=
  entries = [] ∧ t' = t ∨ entries ≠ [] ∧ t'.extents = inserted t.extents entries ∧
    CountsEntries.entryCount t'.header = (inserted t.extents entries).length

theorem Receives.extents {t' : TreeMap H} (h : Receives t entries t') (hne : entries ≠ []) :
    t'.extents = inserted t.extents entries := by
  rcases h with ⟨rfl, -⟩ | ⟨-, h, -⟩
  · exact absurd rfl hne
  · exact h

/-- An insertion that is reported as done leaves the merged extents, and their number in the header. -/
theorem insertWith_ok (hP : P.Valid) (h : Sound P t) {bad : ExtentMapEntryV2 → Bool}
    {report : TreeMap H → Outcome Unit} (hbad : ∀ e, Fits e → (bad e = true ↔ e.length = 0)) (hnew : Insertable entries)
    (hreport : entries ≠ [] → ∀ t', rebuild P t (inserted t.extents entries) = some t' → report t' = .ok ()) :
    ∃ t', insertWith P bad report t entries = some (t', .ok ()) ∧ Receives t entries t' := by
  rcases eq_or_ne entries [] with rfl | hne
  · exact ⟨t, rfl, .inl ⟨rfl, rfl⟩⟩
  · obtain ⟨t', h1, h2, h3⟩ := insertWith_eq hP h hbad hnew hne
    refine ⟨t', by rw [h1, hreport hne t' h2], .inr ⟨hne, h3, ?_⟩⟩
    obtain ⟨packed, -, hr⟩ := bind_eq_some_iff.mp h2
    obtain ⟨tree, -, hr⟩ := bind_eq_some_iff.mp hr
    obtain ⟨depth, -, rfl⟩ := map_eq_some_iff.mp hr
    exact (CountsEntries.entryCount_setFileSize ..).trans (CountsEntries.entryCount_refresh ..)

theorem BTreeExtentMap.insertExtent_ok (hP : P.Valid) {t : BTreeExtentMap} (h : Sound P t) (hnew : Insertable entries) :
    ∃ t', BTreeExtentMap.insertExtent P t entries = some (t', .ok ()) ∧ Receives t entries t' :=
  insertWith_ok hP h bad_iff hnew fun _ _ _ => rfl

theorem MultiLevelBTreeExtentMap.insertExtent_ok (hP : P.Valid) {t : MultiLevelBTreeExtentMap} (h : Sound P t)
    (hnew : Insertable entries) (hfew : entries ≠ [] → (inserted t.extents entries).length < deepLimit P) :
    ∃ t', insertExtent P t entries = some (t', .ok ()) ∧ Receives t entries t' :=
  insertWith_ok hP h (fun _ _ => beq_iff_eq) hnew fun hne _ hr =>
    rebuild_depth hP (inserted_spec h.layout hnew).1 hr (hfew hne)

end Trees

namespace PolymorphicExtentMap

variable {P : Params} {m : PolymorphicExtentMap}

/-! ### The active representation -/

/-- The extents of the active representation. -/
def extents (m : PolymorphicExtentMap) : List ExtentMapEntryV2 :=
  match m.active with
  | .inline => m.inline.entries
  | .btree => m.btree.extents
  | .multiLevel => m.multiLevel.extents

/-- The active representation is as its operations leave it. -/
def Held (P : Params) (m : PolymorphicExtentMap) : Prop :=
  match m.active with
  | .inline => m.inline.Ready
  | .btree => Settled P m.btree
  | .multiLevel => Settled P m.multiLevel

/-- Between operations, the inline form counts six extents at most. -/
structure AtRest (P : Params) (m : PolymorphicExtentMap) : Prop where
  held : Held P m
  few : m.active = .inline → m.inline.header.entryCount ≤ promoteThreshold

theorem atRest_of_active (h : Held P m) (hact : m.active ≠ .inline) : AtRest P m := ⟨h, fun hi => absurd hi hact⟩

theorem Held.layout (h : Held P m) : Layout m.extents := by
  obtain ⟨_ | _ | _, inline, btree, multiLevel⟩ := m
  · exact (show inline.Ready from h).layout
  · exact (show Settled P btree from h).sound.layout
  · exact (show Settled P multiLevel from h).sound.layout

theorem collect_tree {H : Type} [MapHeader H] (hP : P.Valid) {t : TreeMap H} (h : Sound P t) :
    (ExtentMap.lookupRange t 0 u64Max).map orDefault = some t.extents := by
  rw [ExtentMap.lookupRange_spec hP h (by decide) (by decide), map_some, zero_add]
  exact congrArg some (clipped_all h.layout)

theorem collectEntries_eq (hP : P.Valid) (h : Held P m) : m.collectEntries = some m.extents := by
  obtain ⟨_ | _ | _, inline, btree, multiLevel⟩ := m
  · rfl
  · exact collect_tree hP (show Settled P btree from h).sound
  · exact collect_tree hP (show Settled P multiLevel from h).sound

/-! ### Moves -/

/-- **The move to the tree succeeds** and keeps extents and size. -/
theorem promoteToBtree_spec (hP : P.Valid) (h : m.inline.Ready) :
    ∃ m', m.promoteToBtree P m.inline.entries = some (m', .ok ()) ∧ m'.active = .btree ∧ AtRest P m' ∧
      m'.extents = inserted [] m.inline.entries := by
  have hnew : Settled P (BTreeExtentMap.new P) := settled_new ExtentMapV2.new
  have hins := h.layout.insertable
  obtain ⟨t, h1, ht, hes⟩ : ∃ t, (if m.inline.entries.isEmpty then some (BTreeExtentMap.new P, .ok ())
      else BTreeExtentMap.insertExtent P (BTreeExtentMap.new P) m.inline.entries) = some (t, .ok ()) ∧ Settled P t ∧
      t.extents = inserted [] m.inline.entries := by
    by_cases hnil : m.inline.entries.isEmpty = true
    · rw [if_pos hnil, isEmpty_iff.mp hnil]
      exact ⟨_, rfl, hnew, rfl⟩
    · obtain ⟨r, h1, h2⟩ := BTreeExtentMap.insertExtent_change hP hnew.sound h.layout.fits
      obtain ⟨t, h3, h4⟩ := BTreeExtentMap.insertExtent_ok hP hnew.sound hins
      obtain rfl := some.inj (h1.symm.trans h3)
      exact ⟨t, (if_neg hnil).trans h3, hnew.after h2, h4.extents (by simpa using hnil)⟩
  refine ⟨{ m with
    btree := { t with header := { t.header with
      fileSize := m.inline.header.fileSize, allocBytes := m.inline.header.allocBytes } },
    active := .btree }, ?_, rfl, atRest_of_active (show Settled P _ from
      ⟨⟨ht.sound.refines, ht.sound.layout⟩, ht.counted, ?_⟩) (by simp), hes⟩
  · rw [promoteToBtree, h1]
    rfl
  · exact h.within.congr h.layout ht.sound.layout (Copied.content (.inr (.inl hes)) h.layout) le_rfl

/-- **Few extents are moved back to the inline form.** -/
theorem demoteToInline_spec (h : Settled P m.btree) (hfew : m.btree.extents.length ≤ extentMapV1MaxEntries) :
    ∃ m', m.demoteToInline m.btree.extents = (m', .ok ()) ∧ AtRest P m' ∧
      m'.extents = insertedEach [] m.btree.extents := by
  have hlayout := h.sound.layout
  have hsort := sortByOffset_eq hlayout
  unfold demoteToInline
  by_cases hnil : m.btree.extents.isEmpty = true
  · rw [if_pos hnil]
    refine ⟨_, rfl, ⟨show InlineExtentMap.Ready _ from ⟨nil, zero_le _, ?_⟩, fun _ => zero_le _⟩, ?_⟩
    · exact fun e he => nomatch (show e ∈ [] from he)
    · rw [isEmpty_iff.mp hnil]
      rfl
  · rw [if_neg hnil, InlineExtentMap.insertExtent, if_neg hnil]
    have hfits : FitsInline [] m.btree.extents := fitsInline_of_length hlayout (by simpa using hfew)
    rcases InlineExtentMap.stageInsert_spec (m := InlineExtentMap.new) nil m.btree.extents with
      ⟨-, i, h1, h2, h3, -⟩ | ⟨hno, -⟩
    · obtain ⟨h4, -⟩ := insertedEach_spec nil hlayout
      rw [hsort] at h2
      rw [h1]
      refine ⟨_, rfl, ⟨show InlineExtentMap.Ready _ from ⟨?_, h3.ge, ?_⟩, fun _ => ?_⟩, h2⟩
      · rw [h2]
        exact h4
      · exact h.within.congr hlayout (h2 ▸ h4) (Copied.content (.inr (.inr h2)) hlayout) le_rfl
      · rw [h3, h2]
        exact fitsInline_length hfits (zero_le _)
    · exact absurd ⟨hlayout.insertable, hsort.symm ▸ hfits⟩ hno

/-- What the check of the other tree asks of the extents to be moved. -/
structure Movable (es : List ExtentMapEntryV2) : Prop where
  unjoined : Unjoined es
  located : ∀ e ∈ es, e.Located

variable {inline : InlineExtentMap} {btree : BTreeExtentMap} {multiLevel : MultiLevelBTreeExtentMap}

theorem promoteBtreeToMultiLevel_spec (hP : P.Valid) (h : Settled P btree) :
    ∃ m' r, promoteBtreeToMultiLevel P ⟨.btree, inline, btree, multiLevel⟩ = some (m', r) ∧ AtRest P m' ∧
      m'.extents = btree.extents ∧ (btree.extents.length < deepLimit P → (r = .ok () ↔ Movable btree.extents)) := by
  obtain ⟨r, h1, h2, h3⟩ := MultiLevelBTreeExtentMap.rebuilt_spec hP h.sound.layout (MultiLevelBTreeExtentMap.new P)
    btree.header.fileSize
  rw [promoteBtreeToMultiLevel, h.sound.scan_all hP, bind_some, h1, map_some]
  cases r with
  | error e =>
    refine ⟨_, .error e, rfl, atRest_of_active h (by simp), rfl, fun hfew => ⟨nofun, fun hm => ?_⟩⟩
    obtain ⟨t, ht⟩ := h2 hm.unjoined hm.located hfew
    exact nomatch ht
  | ok t =>
    obtain ⟨h4, h5, h6, h7⟩ := h3 t rfl
    exact ⟨⟨.multiLevel, inline, btree, t⟩, .ok (), rfl, atRest_of_active h4 (by simp), h5,
      fun _ => ⟨fun _ => ⟨h6, h7⟩, fun _ => rfl⟩⟩

theorem demoteMultiLevelToBtree_spec (hP : P.Valid) (h : Settled P multiLevel) :
    ∃ m' r, demoteMultiLevelToBtree P ⟨.multiLevel, inline, btree, multiLevel⟩ = some (m', r) ∧ AtRest P m' ∧
      m'.extents = multiLevel.extents ∧ (r = .ok () ↔ Movable multiLevel.extents) := by
  obtain ⟨r, h1, h2, h3⟩ := BTreeExtentMap.rebuilt_spec hP h.sound.layout (BTreeExtentMap.new P)
    multiLevel.header.fileSize
  rw [demoteMultiLevelToBtree, h.sound.scan_all hP, bind_some, h1, map_some]
  cases r with
  | error e =>
    refine ⟨_, .error e, rfl, atRest_of_active h (by simp), rfl, nofun, fun hm => ?_⟩
    obtain ⟨t, ht⟩ := h2 hm.unjoined hm.located
    exact nomatch ht
  | ok t =>
    obtain ⟨h4, h5, h6, h7⟩ := h3 t rfl
    exact ⟨⟨.btree, inline, t, multiLevel⟩, .ok (), rfl, atRest_of_active h4 (by simp), h5,
      fun _ => ⟨h6, h7⟩, fun _ => rfl⟩

/-- The extents are to be moved from one tree to the other. -/
def Due (m : PolymorphicExtentMap) : Prop :=
  match m.active with
  | .inline => False
  | .btree => v2V3PromotionThreshold ≤ m.btree.header.entryCount
  | .multiLevel =>
    m.multiLevel.header.entryCount ≤ v3V2DemotionThreshold ∧ hasUnwrittenOrHoles m.multiLevel.extents = false

/-- How the representation is changed: not at all, or by one of the moves. -/
inductive Switched (P : Params) : PolymorphicExtentMap → PolymorphicExtentMap × Outcome Unit → Prop
  | stays {m : PolymorphicExtentMap} (few : m.active = .btree → m.btree.header.entryCount < v2V3PromotionThreshold) :
    Switched P m (m, .ok ())
  | promotes {inline : InlineExtentMap} {btree : BTreeExtentMap} {multiLevel : MultiLevelBTreeExtentMap}
    {r : PolymorphicExtentMap × Outcome Unit}
    (h : promoteToBtree P ⟨.inline, inline, btree, multiLevel⟩ inline.entries = some r) :
    Switched P ⟨.inline, inline, btree, multiLevel⟩ r
  | demotes {inline : InlineExtentMap} {btree : BTreeExtentMap} {multiLevel : MultiLevelBTreeExtentMap}
    {r : PolymorphicExtentMap × Outcome Unit} (few : btree.header.entryCount ≤ demoteThreshold)
    (h : demoteToInline ⟨.btree, inline, btree, multiLevel⟩ btree.extents = r) :
    Switched P ⟨.btree, inline, btree, multiLevel⟩ r
  | deepens {inline : InlineExtentMap} {btree : BTreeExtentMap} {multiLevel : MultiLevelBTreeExtentMap}
    {r : PolymorphicExtentMap × Outcome Unit}
    (h : promoteBtreeToMultiLevel P ⟨.btree, inline, btree, multiLevel⟩ = some r) :
    Switched P ⟨.btree, inline, btree, multiLevel⟩ r
  | flattens {inline : InlineExtentMap} {btree : BTreeExtentMap} {multiLevel : MultiLevelBTreeExtentMap}
    {r : PolymorphicExtentMap × Outcome Unit} (few : multiLevel.header.entryCount ≤ v3V2DemotionThreshold)
    (h : demoteMultiLevelToBtree P ⟨.multiLevel, inline, btree, multiLevel⟩ = some r) :
    Switched P ⟨.multiLevel, inline, btree, multiLevel⟩ r

/-- **A change of the representation copies the extents**, and fails only between the trees, exactly if the extents
cannot be moved. -/
theorem checkAndSwitch_spec (hP : P.Valid) (h : Held P m) :
    ∃ m' r, m.checkAndSwitch P = some (m', r) ∧ AtRest P m' ∧ Copied m.extents m'.extents ∧
      ((m.Due → m.extents.length < deepLimit P) → (r = .ok () ↔ (m.Due → Movable m.extents))) ∧
      Switched P m (m', r) := by
  have hstays : ∀ {m : PolymorphicExtentMap} {r : Outcome Unit}, ¬ m.Due → r = .ok () →
      (m.Due → m.extents.length < deepLimit P) → (r = .ok () ↔ (m.Due → Movable m.extents)) :=
    fun hno hr _ => ⟨fun _ hd => absurd hd hno, fun _ => hr⟩
  have hcollect := collectEntries_eq hP h
  obtain ⟨_ | _ | _, inline, btree, multiLevel⟩ := m
  · have hr : inline.Ready := h
    rw [checkAndSwitch, hcollect]
    show ∃ m' r, (some _).bind _ = some (m', r) ∧ _
    rw [bind_some]
    split_ifs with hcond
    · obtain ⟨m', h1, -, h2, h3⟩ := promoteToBtree_spec (m := ⟨.inline, inline, btree, multiLevel⟩) hP hr
      exact ⟨m', _, h1, h2, .inr (.inl h3), hstays id rfl, .promotes h1⟩
    · rw [not_or] at hcond
      exact ⟨_, _, rfl, ⟨hr, fun _ => not_lt.mp hcond.1⟩, .inl rfl, hstays id rfl, .stays fun hact => nomatch hact⟩
  · have hs : Settled P btree := h
    have hrest : AtRest P ⟨.btree, inline, btree, multiLevel⟩ := atRest_of_active h (by simp)
    rw [checkAndSwitch]
    show ∃ m' r, (if btree.header.entryCount ≤ demoteThreshold then _ else _) = some (m', r) ∧ _
    by_cases hlow : btree.header.entryCount ≤ demoteThreshold
    · have hno : ¬ Due ⟨.btree, inline, btree, multiLevel⟩ := not_le.mpr (hlow.trans_lt (by decide))
      rw [if_pos hlow, hcollect, map_some]
      by_cases hu : hasUnwrittenOrHoles btree.extents = true
      · exact ⟨_, _, congrArg some (if_pos hu), hrest, .inl rfl, hstays hno rfl,
          .stays fun _ => hlow.trans_lt (by decide)⟩
      · have hlen : btree.extents.length ≤ extentMapV1MaxEntries :=
          le_trans (hs.counted.trans hlow) (by decide)
        obtain ⟨m', h1, h2, h3⟩ := demoteToInline_spec (m := ⟨.btree, inline, btree, multiLevel⟩) hs hlen
        exact ⟨m', _, congrArg some ((if_neg hu).trans h1), h2, .inr (.inr h3), hstays hno rfl, .demotes hlow h1⟩
    · rw [if_neg hlow]
      by_cases hhigh : v2V3PromotionThreshold ≤ btree.header.entryCount
      · obtain ⟨m', r, h1, h2, h3, h4⟩ := promoteBtreeToMultiLevel_spec hP hs
        exact ⟨m', r, (if_pos hhigh).trans h1, h2, .inl h3,
          fun hfew => (h4 (hfew hhigh)).trans ⟨fun hm _ => hm, fun hm => hm hhigh⟩, .deepens h1⟩
      · exact ⟨_, _, if_neg hhigh, hrest, .inl rfl, hstays hhigh rfl, .stays fun _ => not_le.mp hhigh⟩
  · have hs : Settled P multiLevel := h
    have hrest : AtRest P ⟨.multiLevel, inline, btree, multiLevel⟩ := atRest_of_active h (by simp)
    rw [checkAndSwitch]
    show ∃ m' r, (if multiLevel.header.entryCount ≤ v3V2DemotionThreshold then _ else _) = some (m', r) ∧ _
    by_cases hlow : multiLevel.header.entryCount ≤ v3V2DemotionThreshold
    · rw [if_pos hlow, hs.sound.scan_all hP, bind_some]
      by_cases hu : hasUnwrittenOrHoles multiLevel.extents = true
      · exact ⟨_, _, if_pos hu, hrest, .inl rfl, hstays (fun hd => Bool.noConfusion (hu.symm.trans hd.2)) rfl,
          .stays fun hact => nomatch hact⟩
      · obtain ⟨m', r, h1, h2, h3, h4⟩ := demoteMultiLevelToBtree_spec hP hs
        exact ⟨m', r, (if_neg hu).trans h1, h2, .inl h3,
          fun _ => h4.trans ⟨fun hm _ => hm, fun hm => hm ⟨hlow, by simpa using hu⟩⟩, .flattens hlow h1⟩
    · exact ⟨_, _, if_neg hlow, hrest, .inl rfl, hstays (fun hd => hlow hd.1) rfl, .stays fun hact => nomatch hact⟩

/-! ### Operations -/

/-- An operation that was carried out changed the mapping as it should, one that was not
reported an error and left the mapping as it was. -/
def Acts (m : PolymorphicExtentMap) (op : Op) (m' : PolymorphicExtentMap) (r : Reply) : Prop :=
  AcceptsOn m.fileSize m.extents op ∧ content m'.extents = applyOp m.fileSize (content m.extents) op ∨
    (∃ e, r = .error e) ∧ content m'.extents = content m.extents

variable {op : Op}

theorem inline_step {i : InlineExtentMap} (h : i.Ready) (op : Op) : InlineExtentMap.Change i op (i.step op) := by
  cases op with
  | insertExtent entries => exact (InlineExtentMap.insertExtent_change h entries).map _
  | truncate newSize => exact InlineExtentMap.truncate_change h newSize
  | punchHole offset length => exact InlineExtentMap.punchHole_change h offset length
  | zeroRange offset length => exact InlineExtentMap.zeroRange_change h offset length
  | collapseRange offset length => exact InlineExtentMap.collapseRange_change h offset length
  | convertUnwrittenToData offset length locatorId checksum birthCommitGroup =>
    exact (InlineExtentMap.convertUnwrittenToData_change h offset length locatorId checksum birthCommitGroup).map _
  | fallocate offset length keepSize => exact (InlineExtentMap.fallocate_change h offset length keepSize).map _

/-- The operation of the active representation. -/
theorem onActive_spec (hP : P.Valid) (h : AtRest P m) (hop : op.Fits) :
    ∃ m' r, m.onActive (InlineExtentMap.step · op) (BTreeExtentMap.step P · op)
        (MultiLevelBTreeExtentMap.step P · op) = some (m', r) ∧
      Held P m' ∧ (∀ e, r = .error e → AtRest P m') ∧ Acts m op m' r ∧ Kept m.extents op.brings m'.extents := by
  have hh := h.held
  obtain ⟨_ | _ | _, inline, btree, multiLevel⟩ := m
  · have hd := inline_step (show inline.Ready from hh) op
    refine ⟨_, _, rfl, hd.ready, fun e he => ⟨hd.ready, fun _ => ?_⟩, ?_, hd.kept⟩
    · rcases hd.bytes with ⟨-, ⟨a, h1⟩, -⟩ | ⟨-, h1⟩
      · exact nomatch he.symm.trans h1
      · exact (congrArg (fun i : InlineExtentMap => i.header.entryCount) h1).trans_le (h.few rfl)
    · rcases hd.bytes with ⟨h1, -, h2⟩ | ⟨h1, h2⟩
      · exact .inl ⟨h1, h2⟩
      · exact .inr ⟨h1, congrArg (fun i : InlineExtentMap => content i.entries) h2⟩
  · have hs : Settled P btree := hh
    obtain ⟨⟨t, r⟩, h1, h2⟩ := BTreeExtentMap.step_change hP hs.sound hop
    have ht := hs.after h2
    exact ⟨_, r, congrArg (Option.map _) h1, ht, fun _ _ => atRest_of_active ht (by simp), h2.acts, h2.kept⟩
  · have hs : Settled P multiLevel := hh
    obtain ⟨⟨t, r⟩, h1, h2⟩ := MultiLevelBTreeExtentMap.step_change hP hs.sound hop
    have ht := hs.after h2
    exact ⟨_, r, congrArg (Option.map _) h1, ht, fun _ _ => atRest_of_active ht (by simp), h2.acts, h2.kept⟩

/-- A map an insertion finds: promoted if it has to be. -/
theorem ready_spec (hP : P.Valid) (h : AtRest P m) (entries : List ExtentMapEntryV2) :
    ∃ m', (if m.promotesBefore entries then m.collectEntries.bind (m.promoteToBtree P) else some (m, .ok ())) =
        some (m', .ok ()) ∧ AtRest P m' ∧ Copied m.extents m'.extents ∧
      (m.promotesBefore entries = true ∧ m'.active = .btree ∧ m'.extents = inserted [] m.inline.entries ∨
        m.promotesBefore entries = false ∧ m' = m) := by
  split_ifs with hp
  · rw [collectEntries_eq hP h.held, bind_some]
    have hact : m.active = .inline := of_decide_eq_true (Bool.and_eq_true_iff.mp hp).1
    obtain ⟨_, inline, btree, multiLevel⟩ := m
    obtain rfl := hact
    obtain ⟨m', h1, h2, h3, h4⟩ := promoteToBtree_spec (m := ⟨.inline, inline, btree, multiLevel⟩) hP h.held
    exact ⟨m', h1, h3, .inr (.inl h4), .inl ⟨hp, h2, h4⟩⟩
  · exact ⟨m, rfl, h, .inl rfl, .inr ⟨by simpa using hp, rfl⟩⟩

theorem insertActive_eq {m' : PolymorphicExtentMap} {entries : List ExtentMapEntryV2}
    (h : (if m.promotesBefore entries then m.collectEntries.bind (m.promoteToBtree P) else some (m, .ok ())) =
      some (m', .ok ())) : m.stepActive P (.insertExtent entries) =
      m'.onActive (InlineExtentMap.step · (.insertExtent entries)) (BTreeExtentMap.step P · (.insertExtent entries))
        (MultiLevelBTreeExtentMap.step P · (.insertExtent entries)) := by
  rw [stepActive, insertActive, h, bind_some]
  obtain ⟨_ | _ | _, inline, btree, multiLevel⟩ := m'
  · rfl
  · show ((BTreeExtentMap.insertExtent P btree entries).map _).map _ =
      ((BTreeExtentMap.insertExtent P btree entries).map _).map _
    rw [Option.map_map, Option.map_map]
    rfl
  · show ((insertExtent P multiLevel entries).map _).map _ =
      ((insertExtent P multiLevel entries).map _).map _
    rw [Option.map_map, Option.map_map]
    rfl

variable (hP : P.Valid)
include hP

theorem stepActive_spec (h : AtRest P m) (hop : op.Fits) :
    ∃ m' r, m.stepActive P op = some (m', r) ∧ Held P m' ∧ (∀ e, r = .error e → AtRest P m') ∧ Acts m op m' r ∧
      Kept m.extents op.brings m'.extents := by
  cases op with
  | insertExtent entries =>
    obtain ⟨m₁, h1, h2, h3, -⟩ := ready_spec hP h entries
    obtain ⟨m', r, h4, h5, h6, h7, h8⟩ := onActive_spec hP h2 hop
    have hbytes := h3.content h.held.layout
    refine ⟨m', r, (insertActive_eq h1).trans h4, h5, h6, ?_, fun _ hQ hes => h8 hQ (h3.kept hQ hes (by simp))⟩
    rcases h7 with ⟨h9, h10⟩ | ⟨h9, h10⟩
    · exact .inl ⟨h9, by rw [h10, hbytes]; rfl⟩
    · exact .inr ⟨h9, h10.trans hbytes⟩
  | truncate | punchHole | zeroRange | collapseRange | convertUnwrittenToData | fallocate =>
    exact onActive_spec hP h hop

/-- **Every operation does what it does in one representation.** -/
theorem step_spec (h : AtRest P m) (hop : op.Fits) :
    ∃ m' r, m.step P op = some (m', r) ∧ AtRest P m' ∧ Acts m op m' r ∧ Kept m.extents op.brings m'.extents := by
  obtain ⟨m₁, r₁, h1, h2, h3, h4, hk⟩ := stepActive_spec hP h hop
  rw [step, h1, bind_some]
  cases r₁ with
  | error e => exact ⟨m₁, .error e, rfl, h3 e rfl, h4, hk⟩
  | ok freed =>
    obtain ⟨m', s, h5, h6, h7, -⟩ := checkAndSwitch_spec hP h2
    refine ⟨m', s.map fun _ => freed, congrArg (Option.map _) h5, h6, .inl ?_,
      fun _ hQ hes hnew => h7.kept hQ (hk hQ hes hnew) (by simp)⟩
    rcases h4 with ⟨h8, h9⟩ | ⟨⟨e, h8⟩, -⟩
    · exact ⟨h8, (h7.content h2.layout).trans h9⟩
    · exact nomatch h8

/-! ### Defragmentation -/

/-- Extents in order, put into an empty tree. -/
theorem refill_spec {H : Type} [MapHeader H] [CountsEntries H] (header : H)
    (bad : ExtentMapEntryV2 → Bool) (report : TreeMap H → Outcome Unit)
    (hbad : ∀ e, Fits e → (bad e = true ↔ e.length = 0)) {es : List ExtentMapEntryV2} (h : Layout es) (hne : es ≠ []) :
    ∃ t, (insertWith P bad report (⟨header, BPlusTree.new P⟩ : TreeMap H) es).map Prod.fst = some t ∧ Sound P t ∧
      t.extents.length ≤ es.length ∧ content t.extents = content es ∧ ∀ e ∈ t.extents, hi e ≤ t.fileSize := by
  obtain ⟨t, h1, h2, h7⟩ := @insertWith_eq P H _ ⟨header, BPlusTree.new P⟩ hP (sound_new header) bad report hbad es
    h.insertable hne
  obtain ⟨h3, h4⟩ := inserted_spec nil h.insertable
  obtain ⟨t', h5, h6, -, -, -, h8⟩ := rebuild_counted hP (⟨header, BPlusTree.new P⟩ : TreeMap H) h3
  obtain rfl := some.inj (h2.symm.trans h5)
  refine ⟨t, by rw [h1]; rfl, h6, ?_, ?_, h7.symm ▸ h8⟩
  · rw [h7]
    show (mergeAdjacent (retainNonempty (sortByOffset es))).length ≤ _
    rw [sortByOffset_eq h, retainNonempty_eq h.tiles]
    exact mergeAdjacent_length es
  · rw [h7]
    exact funext fun b => (h4 b).trans or_none

/-- **Rebuilding from extents in order keeps their bytes.** -/
theorem rebuildWithEntries_spec (m : PolymorphicExtentMap) {es : List ExtentMapEntryV2} (h : Layout es)
    (hfew : m.active = .inline → es.length ≤ extentMapV1MaxEntries) (fileSize allocBytes : ℕ) :
    ∃ m', m.rebuildWithEntries P es fileSize allocBytes = some m' ∧ AtRest P m' ∧ content m'.extents = content es := by
  rcases eq_or_ne es [] with rfl | hne
  · obtain ⟨_ | _ | _, inline, btree, multiLevel⟩ := m
    · refine ⟨_, rfl, ⟨⟨nil, le_rfl, ?_⟩, fun _ => zero_le _⟩, rfl⟩
      exact fun e he => nomatch (show e ∈ [] from he)
    · exact ⟨_, rfl, atRest_of_active (settled_new _) (by simp), rfl⟩
    · exact ⟨_, rfl, atRest_of_active (settled_new _) (by simp), rfl⟩
  have hempty : ¬ es.isEmpty = true := by simpa using hne
  obtain ⟨_ | _ | _, inline, btree, multiLevel⟩ := m
  · have hlen : es.length ≤ extentMapV1MaxEntries := hfew rfl
    rw [rebuildWithEntries]
    dsimp only
    rw [if_neg hempty, InlineExtentMap.insertExtent, if_neg hempty]
    have hfits : FitsInline [] es := fitsInline_of_length h (by simpa using hlen)
    rcases InlineExtentMap.stageInsert_spec
        (m := ⟨{ InlineExtentMap.new.header with fileSize, allocBytes }, []⟩) nil es with
      ⟨-, i, h1, h2, -, -, h3⟩ | ⟨hno, -⟩
    · obtain ⟨h4, h5⟩ := insertedEach_spec nil h
      rw [sortByOffset_eq h] at h2
      rw [h1]
      refine ⟨_, rfl, ⟨⟨?_, ?_, fun e he _ => h3 e he⟩, fun _ => hlen⟩, ?_⟩
      · rw [h2]
        exact h4
      · rw [h2]
        exact (@insertedEach_length es [] h).trans (by simp)
      · rw [h2]
        exact funext fun b => (h5 b).trans or_none
    · exact absurd ⟨h.insertable, (sortByOffset_eq h).symm ▸ hfits⟩ hno
  · rw [rebuildWithEntries]
    dsimp only
    rw [if_neg hempty]
    obtain ⟨t, h1, h2, h3, h4, h5⟩ := refill_spec hP ({ ExtentMapV2.new with fileSize, allocBytes } : ExtentMapV2)
      _ (fun _ => .ok ()) BTreeExtentMap.bad_iff h hne
    refine ⟨_, congrArg (Option.map _) h1, atRest_of_active ⟨⟨h2.refines, h2.layout⟩, h3, fun e he _ => h5 e he⟩ ?_, h4⟩
    simp
  · rw [rebuildWithEntries]
    dsimp only
    rw [if_neg hempty]
    obtain ⟨t, h1, h2, h3, h4, h5⟩ := refill_spec hP ({ ExtentMapV3.new with fileSize, allocBytes } : ExtentMapV3)
      (fun e => e.length == 0) checkDepth (fun _ _ => beq_iff_eq) h hne
    refine ⟨_, congrArg (Option.map _) h1, atRest_of_active ⟨⟨h2.refines, h2.layout⟩, h3, fun e he _ => h5 e he⟩ ?_, h4⟩
    simp

theorem defrag_spec (h : AtRest P m) :
    ∃ m' counts, m.defrag P = some (m', counts) ∧ AtRest P m' ∧ content m'.extents = content m.extents := by
  rw [defrag]
  dsimp only
  split_ifs with hone
  · exact ⟨m, _, rfl, h, rfl⟩
  · obtain ⟨h1, h2⟩ := mergeAdjacentExtents_spec h.held.layout
    rw [collectEntries_eq hP h.held, bind_some]
    split_ifs with hmore
    · exact ⟨m, _, rfl, h, rfl⟩
    · have hfew : m.active = .inline → (mergeAdjacentExtents m.extents).length ≤ extentMapV1MaxEntries := fun hact => by
        have hcount : m.entryCount = m.inline.header.entryCount := by rw [entryCount, hact]
        have hle : m.inline.header.entryCount ≤ 6 := h.few hact
        show _ ≤ 6
        omega
      obtain ⟨m', h3, h4, h5⟩ := rebuildWithEntries_spec hP m h1 hfew m.fileSize
        (allocatedBytes (mergeAdjacentExtents m.extents))
      exact ⟨m', _, by rw [h3, map_some], h4, h5.trans h2⟩

omit hP

end PolymorphicExtentMap

end Tidefs.ExtentMap
