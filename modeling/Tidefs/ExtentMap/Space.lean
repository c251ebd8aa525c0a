/-
# Maps of allocated space

A map all of whose extents are unwritten is changed in two ways: an unwritten extent is
inserted, and a range is punched out. No such call fails with the map changed. What has
to be shown for that is that the representation can be changed when that is due, so that
no two extents could be joined (`Spaced`) and their number is bounded: an insertion adds
two at most (`inserted_length`), a hole doubles them at most (`punched_length`).
-/
import Tidefs.ExtentMap.Switch

namespace Tidefs.ExtentMap

open Word Btree Spans Spans.HasSpan ExtentMapEntryV2 List Option BTreeExtentMap

variable {es : List ExtentMapEntryV2} {e : ExtentMapEntryV2}

/-! ### How many extents there are -/

theorem existingFragment_length (e : ExtentMapEntryV2) (start stop : ℕ) : (existingFragment e start stop).length ≤ 1 := by
  unfold existingFragment
  split_ifs
  · exact Nat.zero_le _
  · exact le_rfl

theorem pushBefore_length (start : ℕ) : ∀ (new : List ExtentMapEntryV2) (covered : ℕ),
    (pushBefore start new covered).pushed.length + (pushBefore start new covered).rest.length = new.length
  | [], _ => rfl
  | n :: new, covered => by
    have hrec := pushBefore_length start new (max covered n.endOffset)
    rw [pushBefore]
    split_ifs
    · simp only [length_cons]
      omega
    · simp

theorem pushOver_length (e : ExtentMapEntryV2) : ∀ (new : List ExtentMapEntryV2) (covered start : ℕ),
    (pushOver e new covered start).pushed.length + 2 * (pushOver e new covered start).rest.length ≤ 2 * new.length + 1
  | [], _, start => existingFragment_length e start _
  | n :: new, covered, start => by
    have hrec := pushOver_length e new (max covered n.endOffset) (max start n.endOffset)
    have hfront := existingFragment_length e start n.logicalOffset
    have hback := existingFragment_length e (max start n.endOffset) e.endOffset
    have hall := existingFragment_length e start e.endOffset
    rw [pushOver]
    split_ifs
    · simp only [length_append, length_cons]
      omega
    · simp only [length_append, length_cons]
      omega
    · simp only [length_cons]
      omega

theorem applyInserts_length : ∀ (es new : List ExtentMapEntryV2) (covered : ℕ),
    (applyInserts es new covered).length ≤ es.length + 2 * new.length
  | [], new, _ => by
    rw [applyInserts, length_nil]
    omega
  | e :: es, new, covered => by
    have h1 := pushBefore_length e.logicalOffset new covered
    have h2 := pushOver_length e (pushBefore e.logicalOffset new covered).rest
      (pushBefore e.logicalOffset new covered).coveredUntil
      (max e.logicalOffset (pushBefore e.logicalOffset new covered).coveredUntil)
    rw [applyInserts]
    refine (length_append ..).trans_le ((Nat.add_le_add_left (applyInserts_length es _ _) _).trans ?_)
    rw [length_append, length_cons]
    omega

/-- An insertion adds two extents for each new one at most. -/
theorem inserted_length (es new : List ExtentMapEntryV2) : (inserted es new).length ≤ es.length + 2 * new.length := by
  have h1 := applyInserts_length es (sortByOffset new) 0
  have h2 : (retainNonempty (applyInserts es (sortByOffset new) 0)).length ≤ _ := length_filter_le ..
  have h3 := mergeAdjacent_length (retainNonempty (applyInserts es (sortByOffset new) 0))
  have h4 : (sortByOffset new).length = new.length := (perm_insertionSort _ _).length_eq
  rw [h4] at h1
  exact h3.trans (h2.trans h1)

theorem punched_length (h : Layout es) {offset stop : ℕ} (hos : offset < stop) :
    (punched es offset stop).length ≤ 2 * es.length := by
  rw [punched_eq h hos, length_flatMap]
  have hle : ∀ n ∈ es.map fun e => (existingFragment e (lo e) (min (hi e) offset) ++
      existingFragment e (max (lo e) stop) (hi e)).length, n ≤ 2 := by
    intro n hn
    obtain ⟨e, -, rfl⟩ := mem_map.mp hn
    have h1 := existingFragment_length e (lo e) (min (hi e) offset)
    have h2 := existingFragment_length e (max (lo e) stop) (hi e)
    rw [length_append]
    omega
  have hsum := sum_le_card_nsmul _ 2 hle
  rw [length_map, smul_eq_mul] at hsum
  omega

/-! ### Extents that could not be joined -/

theorem joins_iff {a b : ExtentMapEntryV2} (ha : Fits a) : Joins a b ↔ hi a = lo b ∧ tag a = tag b := by
  show a.endOffset = lo b ∧ _ ↔ hi a = lo b ∧ (⟨_, _, _⟩ : ByteTag) = ⟨_, _, _⟩
  rw [endOffset_eq ha, ByteTag.mk.injEq]

/-- **No two extents could be joined exactly if no extent goes on where it ends.** -/
theorem unjoined_iff : ∀ {es : List ExtentMapEntryV2}, Layout es →
    (Unjoined es ↔ ∀ x ∈ es, content es (hi x) ≠ some (tag x))
  | [], _ => by simp [Unjoined]
  | [e], h => by
    have hself : ¬ Covers e (hi e) := fun hc => absurd hc.2 (lt_irrefl _)
    simp [Unjoined, content_cons, hself]
  | e :: y :: es, h => by
    obtain ⟨hpos, hfit, hes, hapart⟩ := Layout.cons_iff.mp h
    obtain ⟨hypos, -, -, hyapart⟩ := Layout.cons_iff.mp hes
    have hself : ¬ Covers e (hi e) := fun hc => absurd hc.2 (lt_irrefl _)
    have hle := hapart y (mem_cons_self ..)
    -- only the next extent can start where the first ends
    have hnext : content (y :: es) (hi e) = some (tag e) ↔ Joins e y := by
      rw [joins_iff hfit, content_cons]
      by_cases hc : Covers y (hi e)
      · rw [if_pos hc, some.injEq]
        exact ⟨fun ht => ⟨le_antisymm hle hc.1, ht.symm⟩, fun hj => hj.2.symm⟩
      · have hnone : content es (hi e) = none := content_eq_none.mpr fun x hx hcx => by
          have := hyapart x hx
          have := hcx.1
          omega
        rw [if_neg hc, hnone]
        refine ⟨fun ht => (nomatch ht), fun hj => absurd ⟨hj.1.ge, ?_⟩ hc⟩
        rw [hj.1]
        exact hypos
    have hrest : ∀ x ∈ y :: es, content (e :: y :: es) (hi x) = content (y :: es) (hi x) := fun x hx => by
      have h1 := hapart x hx
      have h2 := hes.tiles.pos x hx
      exact (content_cons e).trans (if_neg fun hc => absurd hc.2 (by omega))
    have hfirst : content (e :: y :: es) (hi e) = content (y :: es) (hi e) := (content_cons e).trans (if_neg hself)
    refine (show Unjoined (e :: y :: es) ↔ ¬ Joins e y ∧ Unjoined (y :: es) from isChain_cons_cons).trans ?_
    rw [unjoined_iff hes, @forall_mem_cons _ _ e, hfirst, ne_eq, hnext]
    refine and_congr_right fun _ => forall₂_congr fun x hx => ?_
    rw [hrest x hx]

/-- A hole makes no extents that could be joined. -/
theorem punched_unjoined (h : Layout es) (hu : Unjoined es) {offset stop : ℕ} (hos : offset < stop) :
    Unjoined (punched es offset stop) := by
  obtain ⟨h1, h2⟩ := punched_spec h hos
  refine (unjoined_iff h1).mpr fun x hx => ?_
  rw [h2]
  rw [punched_eq h hos] at hx
  obtain ⟨e, he, hx⟩ := mem_flatMap.mp hx
  have hend := (unjoined_iff h).mp hu e he
  have hfit : hi e ≤ u64Max := h.fits e he
  rcases mem_append.mp hx with hx | hx
  · obtain ⟨hlo, hhi⟩ := (existingFragment_spec e (lo e) (show min (hi e) offset ≤ u64Max by omega)).2.1 x hx
    have htag : tag x = tag e := existingFragment_kept (Q := fun x => tag x = tag e) (fun _ _ _ h => h) rfl _ _ x hx
    rw [hhi, htag]
    by_cases hcut : offset ≤ hi e
    · rw [min_eq_right hcut, if_neg fun hn => hn ⟨le_rfl, hos⟩]
      exact fun hnone => nomatch hnone
    · rw [min_eq_left (by omega), if_pos (by omega)]
      exact hend
  · obtain ⟨hlo, hhi⟩ := (existingFragment_spec e (max (lo e) stop) hfit).2.1 x hx
    have htag : tag x = tag e := existingFragment_kept (Q := fun x => tag x = tag e) (fun _ _ _ h => h) rfl _ _ x hx
    rw [hhi, htag]
    by_cases hin : offset ≤ hi e ∧ hi e < stop
    · rw [if_neg fun hn => hn hin]
      exact fun hnone => nomatch hnone
    · rw [if_pos hin]
      exact hend

/-! ### Space -/

/-- Space for data that was not written yet. -/
def Space (e : ExtentMapEntryV2) : Prop := e.extentKind = kindUnwritten ∧ e.locatorId = LocatorId.none

theorem fixed_space : Fixed Space := fun _ _ _ h => h

theorem Space.located (h : Space e) : e.Located := by
  refine ⟨fun _ => h.2, fun hd => ?_⟩
  rw [isData, isPendingData, h.1] at hd
  exact absurd hd (by decide)

namespace PolymorphicExtentMap

variable {P : Params} {m : PolymorphicExtentMap}

/-- A map of space, as the calls leave it. -/
structure Spaced (P : Params) (m : PolymorphicExtentMap) : Prop where
  rest : AtRest P m
  unjoined : Unjoined m.extents
  space : ∀ e ∈ m.extents, Space e
  few : m.active ≠ .multiLevel → m.extents.length < v2V3PromotionThreshold

theorem spaced_new : Spaced P (new P) := by
  refine ⟨⟨⟨Layout.nil, Nat.zero_le _, ?_⟩, fun _ => Nat.zero_le _⟩, isChain_nil, ?_,
    fun _ => show 0 < v2V3PromotionThreshold by decide⟩
  · exact fun e he => nomatch (show e ∈ [] from he)
  · exact fun e he => nomatch (show e ∈ [] from he)

variable {m' : PolymorphicExtentMap}

theorem promoteBtreeToMultiLevel_active
    (h : m.promoteBtreeToMultiLevel P = some (m', .ok ())) : m'.active = .multiLevel := by
  obtain ⟨es, -, h⟩ := bind_eq_some_iff.mp h
  obtain ⟨r, -, h⟩ := map_eq_some_iff.mp h
  cases r with
  | error e => exact nomatch (Prod.mk.inj h).2
  | ok t => rw [← (Prod.mk.inj h).1]

/-- **A map of space stays one when its representation is checked.** -/
theorem settle_spaced (hP : P.Valid) (h : Held P m) (hu : Unjoined m.extents) (hspace : ∀ e ∈ m.extents, Space e)
    (hinline : m.active = .inline → m.extents.length < v2V3PromotionThreshold)
    (hdeep : m.active = .btree → m.extents.length < deepLimit P) (hlow : v3V2DemotionThreshold < deepLimit P) :
    ∃ m', m.checkAndSwitch P = some (m', .ok ()) ∧ Spaced P m' ∧ m'.extents = m.extents := by
  obtain ⟨m', r, h1, h2, hcopy, h3, hs⟩ := checkAndSwitch_spec hP h
  have hes := hcopy.eq h.layout hu
  have hfew : m.Due → m.extents.length < deepLimit P := fun hdue => by
    obtain ⟨_ | _ | _, inline, btree, multiLevel⟩ := m
    · exact hdue.elim
    · exact hdeep rfl
    · exact ((show Settled P multiLevel from h).counted.trans hdue.1).trans_lt hlow
  have hok : r = .ok () := (h3 hfew).mpr fun _ => ⟨hu, fun e he => (hspace e he).located⟩
  subst hok
  refine ⟨m', h1, ⟨h2, hes.symm ▸ hu, hes.symm ▸ hspace, fun hact => ?_⟩, hes⟩
  rw [hes]
  cases hs with
  | stays few =>
    obtain ⟨_ | _ | _, inline, btree, multiLevel⟩ := m
    · exact hinline rfl
    · exact (show Settled P btree from h).counted.trans_lt (few rfl)
    · exact absurd rfl hact
  | promotes => exact hinline rfl
  | @demotes _ btree _ _ few => exact (show Settled P btree from h).counted.trans_lt (few.trans_lt (by decide))
  | deepens hd => exact absurd (promoteBtreeToMultiLevel_active hd) hact
  | @flattens _ _ multiLevel _ few =>
    exact (show Settled P multiLevel from h).counted.trans_lt (few.trans_lt (by decide))

/-! ### The calls -/

/-- Trees deep enough for what the two thresholds allow. -/
def Roomy (P : Params) : Prop := P.Valid ∧ 2 * v2V3PromotionThreshold + 2 < deepLimit P

theorem deepLimit_extentParams (blake3 : List UInt8 → Digest) : deepLimit (extentParams blake3) = 296071778 := by
  have hmin : divCeil 45 2 = 23 := by decide
  show 2 * (divCeil 45 2 ^ 5 * divCeil 45 2) = 296071778
  rw [hmin]
  norm_num

theorem roomy_extentParams (blake3 : List UInt8 → Digest) : Roomy (extentParams blake3) := by
  refine ⟨extentParams_valid blake3, ?_⟩
  rw [deepLimit_extentParams, v2V3PromotionThreshold]
  norm_num

theorem Roomy.low (h : Roomy P) : v3V2DemotionThreshold < deepLimit P := by
  have hlow : v3V2DemotionThreshold < 2 * v2V3PromotionThreshold + 2 := by
    rw [v3V2DemotionThreshold, v2V3PromotionThreshold]
    norm_num
  exact lt_trans hlow h.2

/-- Space moved to the tree before it takes unwritten extents. -/
theorem ready_spaced (hP : P.Valid) (h : Spaced P m) (offset length : ℕ) :
    ∃ m₁, (if m.promotesBefore [newUnwritten offset length 0] then m.collectEntries.bind (m.promoteToBtree P)
        else some (m, .ok ())) = some (m₁, .ok ()) ∧ Spaced P m₁ ∧ m₁.extents = m.extents ∧ m₁.active ≠ .inline ∧
      (m₁.active = .multiLevel → m.active = .multiLevel) := by
  obtain ⟨m₁, h1, h2, hcopy, h3⟩ := ready_spec hP h.rest [newUnwritten offset length 0]
  have hpro : m.promotesBefore [newUnwritten offset length 0] = decide (m.active = .inline) := Bool.and_true _
  refine ⟨m₁, h1, ?_⟩
  rcases h3 with ⟨h4, h5, -⟩ | ⟨h4, rfl⟩
  · have hact : m.active = .inline := of_decide_eq_true (hpro.symm.trans h4)
    have hes := hcopy.eq h.rest.held.layout h.unjoined
    have hne : m₁.active ≠ .multiLevel := by rw [h5]; decide
    refine ⟨⟨h2, hes.symm ▸ h.unjoined, hes.symm ▸ h.space, fun _ => hes.symm ▸ h.few ?_⟩, hes, ?_,
      fun hm => absurd hm hne⟩
    · rw [hact]
      decide
    · rw [h5]
      decide
  · exact ⟨h, rfl, of_decide_eq_false (hpro.symm.trans h4), id⟩

variable {length offset : ℕ}

/-- What an unwritten extent makes of the tree that is active. -/
theorem insertActive_spaced (hP : P.Valid) (h : Spaced P m) (hact : m.active ≠ .inline)
    (hv : 0 < length ∧ offset + length ≤ u64Max)
    (hdeep : m.active = .multiLevel → (inserted m.extents [newUnwritten offset length 0]).length < deepLimit P) :
    ∃ m₂, m.onActive (InlineExtentMap.step · (.insertExtent [newUnwritten offset length 0]))
        (BTreeExtentMap.step P · (.insertExtent [newUnwritten offset length 0]))
        (MultiLevelBTreeExtentMap.step P · (.insertExtent [newUnwritten offset length 0])) = some (m₂, .ok []) ∧
      Held P m₂ ∧ m₂.active = m.active ∧ m₂.extents = inserted m.extents [newUnwritten offset length 0] := by
  have hins := insertable_unwritten hv
  have hop : (Op.insertExtent [newUnwritten offset length 0]).Fits := hins.fits
  have hh := h.rest.held
  obtain ⟨_ | _ | _, inline, btree, multiLevel⟩ := m
  · exact absurd rfl hact
  · have hs : Settled P btree := hh
    obtain ⟨t, h1, h2⟩ := BTreeExtentMap.insertExtent_ok hP hs.sound hins
    have hstep : BTreeExtentMap.step P btree (.insertExtent [newUnwritten offset length 0]) = some (t, .ok []) :=
      congrArg (Option.map _) h1
    exact ⟨⟨.btree, inline, t, multiLevel⟩, congrArg (Option.map _) hstep, BTreeExtentMap.step_settled hP hs hop hstep,
      rfl, h2.extents (by simp)⟩
  · have hs : Settled P multiLevel := hh
    obtain ⟨t, h1, h2⟩ := MultiLevelBTreeExtentMap.insertExtent_ok hP hs.sound hins fun _ => hdeep rfl
    have hstep : MultiLevelBTreeExtentMap.step P multiLevel (.insertExtent [newUnwritten offset length 0]) =
        some (t, .ok []) := congrArg (Option.map _) h1
    exact ⟨⟨.multiLevel, inline, btree, t⟩, congrArg (Option.map _) hstep,
      MultiLevelBTreeExtentMap.step_settled hP hs hop hstep, rfl, h2.extents (by simp)⟩

/-- **Space is inserted.** -/
theorem insert_spaced (hroom : Roomy P) (h : Spaced P m) (hv : 0 < length ∧ offset + length ≤ u64Max)
    (hdeep : m.active = .multiLevel → (inserted m.extents [newUnwritten offset length 0]).length < deepLimit P) :
    ∃ m', m.step P (.insertExtent [newUnwritten offset length 0]) = some (m', .ok []) ∧ Spaced P m' ∧
      m'.extents = inserted m.extents [newUnwritten offset length 0] := by
  have hP := hroom.1
  obtain ⟨m₁, h1, h2, h3, h4, h5⟩ := ready_spaced hP h offset length
  obtain ⟨m₂, h6, h7, h8, h9⟩ := insertActive_spaced hP h2 h4 hv (fun hact => h3.symm ▸ hdeep (h5 hact))
  have hspace : ∀ e ∈ m₂.extents, Space e := by
    rw [h9]
    exact inserted_kept fixed_space h2.space (forall_mem_singleton.mpr ⟨rfl, rfl⟩)
  obtain ⟨m', h10, h11, h12⟩ := settle_spaced hP h7 (h9.symm ▸ mergeAdjacent_unjoined _) hspace
    (fun hact => absurd (h8.symm.trans hact) h4)
    (fun hact => by
      have hlen := inserted_length m₁.extents [newUnwritten offset length 0]
      have hfew := h2.few (by rw [h8.symm.trans hact]; decide)
      have hdeep := hroom.2
      rw [h9]
      simp only [length_singleton] at hlen
      omega) hroom.low
  refine ⟨m', ?_, h11, by rw [h12, h9, h3]⟩
  rw [step, insertActive_eq h1, h6, bind_some]
  rw [h10]
  rfl

/-- Space that reaches past the last byte is refused, but by the multi-level tree. -/
theorem refuse_spaced (hP : P.Valid) (h : Spaced P m) (hact : m.active ≠ .multiLevel)
    (hover : u64Max < offset + length) :
    ∃ m', m.step P (.insertExtent [newUnwritten offset length 0]) = some (m', .error .invalidRange) ∧ Spaced P m' ∧
      m'.extents = m.extents := by
  obtain ⟨m₁, h1, h2, h3, h4, h5⟩ := ready_spaced hP h offset length
  refine ⟨m₁, ?_, h2, h3⟩
  rw [step, insertActive_eq h1]
  obtain ⟨_ | _ | _, inline, btree, multiLevel⟩ := m₁
  · exact absurd rfl h4
  · have hbad : insertExtent P btree [newUnwritten offset length 0] = some (btree, .error .invalidRange) := by
      rw [insertExtent, insertWith, if_neg (by simp), if_pos]
      exact any_eq_true.mpr ⟨_, mem_singleton_self _, by simp [newUnwritten, hover]⟩
    show (((insertExtent P btree [newUnwritten offset length 0]).map _).map _).bind _ = _
    rw [hbad]
    rfl
  · exact absurd (h5 rfl) hact

/-- What a hole makes of the representation that is active. -/
theorem punchActive_spaced (hP : P.Valid) (h : Spaced P m) (hv : 0 < length ∧ offset + length ≤ u64Max) :
    ∃ m₂ freed, m.stepActive P (.punchHole offset length) = some (m₂, .ok freed) ∧ m₂.active = m.active ∧
      Unjoined m₂.extents ∧ m₂.extents.length ≤ 2 * m.extents.length := by
  have hos : offset < offset + length := by omega
  have hh := h.rest.held
  have hu := h.unjoined
  have htree : ∀ {H : Type} [MapHeader H] {t : TreeMap H}, Sound P t → Unjoined t.extents →
      ∃ t' freed, ExtentMap.punchHole P t offset length = some (t', .ok freed) ∧ Unjoined t'.extents ∧
        t'.extents.length ≤ 2 * t.extents.length := fun {H} _ {t} ht hj => by
    obtain ⟨freed, h1⟩ := punchHole_eq hP ht hv
    obtain ⟨t', h2, -, h3⟩ := rebuild_spec hP t (punched_spec ht.layout hos).1
    refine ⟨t'.raiseFileSize (offset + length), freed, by rw [h1, h2]; rfl, ?_, ?_⟩
    · rw [extents_raiseFileSize, h3]
      exact punched_unjoined ht.layout hj hos
    · rw [extents_raiseFileSize, h3]
      exact punched_length ht.layout hos
  obtain ⟨_ | _ | _, inline, btree, multiLevel⟩ := m
  · have hl := (show inline.Ready from hh).layout
    obtain ⟨i, freed, h1, h2⟩ : ∃ i freed, inline.punchHole offset length = (i, .ok freed) ∧
        i.entries = mergeAdjacent (retainNonempty (punched inline.entries offset (offset + length))) := by
      unfold InlineExtentMap.punchHole
      rw [if_neg (by omega), if_neg (by omega)]
      dsimp only
      rw [InlineExtentMap.punch_eq hl hos, InlineExtentMap.raiseFileSize_eq]
      exact ⟨_, _, rfl, rfl⟩
    refine ⟨⟨.inline, i, btree, multiLevel⟩, freed,
      congrArg (fun r : InlineExtentMap × Reply => some ((⟨.inline, r.1, btree, multiLevel⟩ : PolymorphicExtentMap), r.2))
        h1, rfl,
      show Unjoined i.entries from h2.symm ▸ mergeAdjacent_unjoined _, ?_⟩
    show i.entries.length ≤ 2 * inline.entries.length
    rw [h2]
    exact (mergeAdjacent_length _).trans ((length_filter_le ..).trans (punched_length hl hos))
  · obtain ⟨t, freed, h1, h2, h3⟩ := htree (show Settled P btree from hh).sound hu
    exact ⟨⟨.btree, inline, t, multiLevel⟩, freed, congrArg (Option.map _) h1, rfl, h2, h3⟩
  · obtain ⟨t, freed, h1, h2, h3⟩ := htree (show Settled P multiLevel from hh).sound hu
    exact ⟨⟨.multiLevel, inline, btree, t⟩, freed, congrArg (Option.map _) h1, rfl, h2, h3⟩

/-- **A range is punched out of space.** -/
theorem punch_spaced (hroom : Roomy P) (h : Spaced P m) (hv : 0 < length ∧ offset + length ≤ u64Max) :
    ∃ m' freed, m.step P (.punchHole offset length) = some (m', .ok freed) ∧ Spaced P m' ∧
      content m'.extents = applyOp m.fileSize (content m.extents) (.punchHole offset length) := by
  have hP := hroom.1
  obtain ⟨m₂, freed, h1, h2, h3, h4⟩ := punchActive_spaced hP h hv
  have hop : (Op.punchHole offset length).Fits := trivial
  obtain ⟨m₃, r, h5, h6, -, h7, hkept⟩ := stepActive_spec hP h.rest hop
  obtain ⟨rfl, rfl⟩ := Prod.mk.inj (some.inj (h1.symm.trans h5))
  have hspace := hkept fixed_space h.space (fun e he => by cases he)
  have hlen : m₂.active ≠ .multiLevel → m₂.extents.length < 2 * v2V3PromotionThreshold := fun hact => by
    have := h.few (h2 ▸ hact)
    omega
  obtain ⟨m', h8, h9, h10⟩ := settle_spaced hP h6 h3 hspace
    (fun hact => by
      have hsix := h.rest.few (h2.symm.trans hact)
      have hcount : m.extents.length ≤ promoteThreshold := by
        have hh := h.rest.held
        obtain ⟨_, inline, btree, multiLevel⟩ := m
        obtain rfl : _ = ExtentMapRepr.inline := h2.symm.trans hact
        exact (show inline.Ready from hh).counted.trans hsix
      have : promoteThreshold = 6 := rfl
      have : v2V3PromotionThreshold = 100000 := rfl
      omega)
    (fun hact => lt_trans (hlen (by rw [hact]; decide)) (by have := hroom.2; omega)) hroom.low
  refine ⟨m', freed, ?_, h9, ?_⟩
  · rw [step, h1, bind_some]
    rw [h8]
    rfl
  · rw [h10]
    rcases h7 with ⟨-, h7⟩ | ⟨⟨e, h7⟩, -⟩
    · exact h7
    · cases h7

end PolymorphicExtentMap

end Tidefs.ExtentMap
