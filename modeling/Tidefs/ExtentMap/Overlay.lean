/-
# New extents over old ones

Extents that do not overlap map each byte of the file to the type, the locator and
the checksum of the extent it is in. Merging new extents into the existing ones lays
the new mapping over the old (`applyInserts_spec`), and joining neighbours leaves the
mapping as it is (`mergeAdjacent_spec`).
-/
import Tidefs.ExtentMap.Entry

namespace Tidefs.ExtentMap

open Word Spans Spans.HasSpan ExtentMapEntryV2 List Nat

/-- What the map says of a byte. -/
structure ByteTag where
  extentType : ExtentType
  locatorId : LocatorId
  checksum : Btree.Digest
deriving DecidableEq

instance : HasSpan ExtentMapEntryV2 ByteTag where
  lo e := e.logicalOffset
  hi e := e.logicalOffset + e.length
  tag e := ⟨e.extentType, e.locatorId, e.checksum⟩

/-- The extent does not wrap around. -/
def Fits (e : ExtentMapEntryV2) : Prop := e.logicalOffset + e.length ≤ u64Max

instance (e : ExtentMapEntryV2) : Decidable (Fits e) := inferInstanceAs (Decidable (_ ≤ _))

theorem lo_eq (e : ExtentMapEntryV2) : lo e = e.logicalOffset := rfl

theorem hi_eq (e : ExtentMapEntryV2) : hi e = e.logicalOffset + e.length := rfl

theorem wrap64_of_le {a : ℕ} (h : a ≤ u64Max) : wrap64 a = a :=
  mod_eq_of_lt (lt_of_le_of_lt h (by decide))

theorem endOffset_eq {e : ExtentMapEntryV2} (h : Fits e) : e.endOffset = hi e := wrap64_of_le h

/-- Extents in order that neither overlap nor wrap around. -/
structure Layout (es : List ExtentMapEntryV2) : Prop where
  tiles : Tiles es
  fits : ∀ e ∈ es, Fits e

open Layout

theorem Layout.nil : Layout [] := ⟨Tiles.nil, by simp⟩

variable {es new : List ExtentMapEntryV2} {e : ExtentMapEntryV2}

theorem Layout.append_iff {es' : List ExtentMapEntryV2} :
    Layout (es ++ es') ↔ Layout es ∧ Layout es' ∧ ∀ x ∈ es, ∀ y ∈ es', hi x ≤ lo y := by
  constructor
  · intro h
    obtain ⟨h1, h2, h3⟩ := Tiles.append_iff.mp h.tiles
    exact ⟨⟨h1, fun x hx => h.fits x (mem_append_left _ hx)⟩, ⟨h2, fun x hx => h.fits x (mem_append_right _ hx)⟩, h3⟩
  · intro ⟨h1, h2, h3⟩
    exact ⟨Tiles.append_iff.mpr ⟨h1.tiles, h2.tiles, h3⟩, forall_mem_append.mpr ⟨h1.fits, h2.fits⟩⟩

theorem Layout.cons_iff : Layout (e :: es) ↔ lo e < hi e ∧ Fits e ∧ Layout es ∧ ∀ y ∈ es, hi e ≤ lo y := by
  constructor
  · intro h
    obtain ⟨h1, h2, h3⟩ := Tiles.cons_iff.mp h.tiles
    obtain ⟨h4, h5⟩ := forall_mem_cons.mp h.fits
    exact ⟨h1, h4, ⟨h2, h5⟩, h3⟩
  · intro ⟨h1, h2, h3, h4⟩
    exact ⟨Tiles.cons_iff.mpr ⟨h1, h3.tiles, h4⟩, forall_mem_cons.mpr ⟨h2, h3.fits⟩⟩

theorem retainNonempty_eq (h : Tiles es) : retainNonempty es = es :=
  filter_eq_self.mpr fun x hx => by
    have := h.pos x hx
    rw [lo_eq, hi_eq] at this
    simpa using this

/-! ### A part of an extent -/

theorem lo_within (e : ExtentMapEntryV2) (start stop : ℕ) : lo (e.within start stop) = start := rfl

variable {start stop : ℕ}

theorem hi_within (e : ExtentMapEntryV2) (h : start ≤ stop) : hi (e.within start stop) = stop :=
  add_sub_of_le h

theorem tag_within (e : ExtentMapEntryV2) (start stop : ℕ) : tag (e.within start stop) = tag e := rfl

theorem fits_within (h : start ≤ stop) (hs : stop ≤ u64Max) : Fits (e.within start stop) := by
  show hi (e.within start stop) ≤ u64Max
  rw [hi_within e h]
  exact hs

theorem covers_within {b : ℕ} (h : start ≤ stop) : Covers (e.within start stop) b ↔ start ≤ b ∧ b < stop := by
  rw [Covers, lo_within, hi_within e h]

/-- A fragment is empty, or one piece from `start` to `stop`. -/
theorem existingFragment_spec (e : ExtentMapEntryV2) (start : ℕ) (hs : stop ≤ u64Max) :
    Layout (existingFragment e start stop) ∧ (∀ x ∈ existingFragment e start stop, lo x = start ∧ hi x = stop) ∧
      ∀ b t, Maps (existingFragment e start stop) b t ↔ start ≤ b ∧ b < stop ∧ tag e = t := by
  unfold existingFragment
  by_cases h : stop ≤ start
  · rw [if_pos h]
    refine ⟨nil, by simp, fun b t => ⟨fun hm => absurd hm not_maps_nil, fun hm => ?_⟩⟩
    omega
  · have hle : start ≤ stop := by omega
    rw [if_neg h]
    refine ⟨cons_iff.mpr ⟨?_, fits_within hle hs, nil, by simp⟩, ?_, fun b t => ?_⟩
    · rw [lo_within, hi_within e hle]
      omega
    · intro x hx
      rw [mem_singleton.mp hx]
      exact ⟨lo_within e start stop, hi_within e hle⟩
    · rw [maps_cons, covers_within hle, tag_within]
      simp [and_assoc]

/-! ### The merge -/

/-- The new entries that are pushed first end before the existing one starts. -/
theorem pushBefore_spec (start : ℕ) : ∀ {new : List ExtentMapEntryV2} (covered : ℕ), Layout new →
    (∀ n ∈ new, covered ≤ lo n) → let r := pushBefore start new covered
    new = r.pushed ++ r.rest ∧ (∀ x ∈ r.pushed, hi x ≤ start ∧ hi x ≤ r.coveredUntil) ∧
      (∀ n ∈ r.rest, r.coveredUntil ≤ lo n) ∧ covered ≤ r.coveredUntil ∧ r.coveredUntil ≤ max covered start
  | [], covered, _, _ => ⟨rfl, by simp [pushBefore], by simp [pushBefore], le_rfl, le_max_left ..⟩
  | n :: new, covered, hnew, hcov => by
    obtain ⟨hpos, hfit, hrest, happart⟩ := cons_iff.mp hnew
    obtain ⟨hn, hcov'⟩ := forall_mem_cons.mp hcov
    rw [pushBefore]
    split_ifs with hend
    · rw [endOffset_eq hfit] at hend ⊢
      dsimp only
      obtain ⟨h1, h2, h3, h4, h5⟩ := pushBefore_spec start (max covered (hi n)) hrest fun x hx => by
        have := hcov' x hx
        have := happart x hx
        omega
      refine ⟨?_, ?_, h3, ?_, ?_⟩
      · rw [cons_append, ← h1]
      · refine forall_mem_cons.mpr ⟨⟨hend, ?_⟩, h2⟩
        omega
      · omega
      · omega
    · exact ⟨rfl, by simp, forall_mem_cons.mpr ⟨hn, hcov'⟩, le_rfl, le_max_left ..⟩

/-- What merging new entries over one existing entry leaves: the entries used, the
pieces pushed, and the entries still to come, all of which start after it. -/
structure Pushed (e : ExtentMapEntryV2) (new : List ExtentMapEntryV2) (covered retainStart : ℕ) (r : Merge)
    (used : List ExtentMapEntryV2) : Prop where
  split : new = used ++ r.rest
  layout : Layout r.pushed
  pieces : ∀ x ∈ r.pushed, x ∈ used ∨ retainStart ≤ lo x ∧ hi x ≤ hi e
  maps : ∀ b t, Maps r.pushed b t ↔ Maps used b t ∨ retainStart ≤ b ∧ b < hi e ∧ (∀ x ∈ used, ¬ Covers x b) ∧ tag e = t
  after : ∀ n ∈ r.rest, r.coveredUntil ≤ lo n ∧ hi e ≤ lo n
  grows : covered ≤ r.coveredUntil
  reach : ∀ x ∈ used, hi x ≤ r.coveredUntil
  filled : ∀ b, hi e ≤ b → b < r.coveredUntil → b < covered ∨ ∃ x ∈ used, Covers x b

/-- No new entry is over what is left of the existing one. -/
theorem pushed_none (covered retainStart : ℕ) (he : Fits e) (hcov : ∀ n ∈ new, covered ≤ lo n ∧ hi e ≤ lo n) :
    Pushed e new covered retainStart ⟨existingFragment e retainStart e.endOffset, new, covered⟩ [] := by
  rw [endOffset_eq he]
  obtain ⟨h1, h2, h3⟩ := existingFragment_spec e retainStart (show hi e ≤ u64Max from he)
  refine ⟨rfl, h1, fun x hx => .inr ?_, fun b t => ?_, hcov, le_rfl, by simp, fun b _ hb => .inl hb⟩
  · obtain ⟨h4, h5⟩ := h2 x hx
    exact ⟨h4.ge, h5.le⟩
  · rw [h3]
    simp

/-- One more new entry over the existing one, between the fragment in front of it and
what `r` goes on with from its end. -/
theorem Pushed.cons {n : ExtentMapEntryV2} {covered : ℕ} {r : Merge} {used : List ExtentMapEntryV2}
    (he : Fits e) (hnew : Layout (n :: new)) (hcov : covered ≤ lo n) (hn : lo n < hi e)
    (h : Pushed e new (max covered (hi n)) (max (lo e) (max covered (hi n))) r used) :
    Pushed e (n :: new) covered (max (lo e) covered)
      { r with pushed := existingFragment e (max (lo e) covered) n.logicalOffset ++ n :: r.pushed } (n :: used) := by
  obtain ⟨hpos, hfit, -, hapart⟩ := cons_iff.mp hnew
  have husedApart : ∀ x ∈ used, hi n ≤ lo x := fun x hx => hapart x (h.split ▸ mem_append_left _ hx)
  have hstop : n.logicalOffset ≤ u64Max := by
    have : hi e ≤ u64Max := he
    rw [lo_eq] at hn
    omega
  obtain ⟨hf1, hf2, hf3⟩ := existingFragment_spec e (max (lo e) covered) hstop
  rw [← lo_eq] at hf1 hf2 hf3 ⊢
  have hpushed : ∀ x ∈ r.pushed, hi n ≤ lo x := fun x hx => by
    rcases h.pieces x hx with hx | hx
    · exact husedApart x hx
    · omega
  refine ⟨?_, ?_, ?_, fun b t => ?_, h.after, ?_, ?_, ?_⟩
  · rw [cons_append, ← h.split]
  · refine append_iff.mpr ⟨hf1, cons_iff.mpr ⟨hpos, hfit, h.layout, hpushed⟩, fun x hx y hy => ?_⟩
    rw [(hf2 x hx).2]
    rcases mem_cons.mp hy with rfl | hy
    · exact le_rfl
    · exact hpos.le.trans (hpushed y hy)
  · intro x hx
    rcases mem_append.mp hx with hx | hx
    · obtain ⟨h1, h2⟩ := hf2 x hx
      exact .inr ⟨h1.ge, h2.le.trans hn.le⟩
    · rcases mem_cons.mp hx with rfl | hx
      · exact .inl (mem_cons_self ..)
      · rcases h.pieces x hx with hx | hx
        · exact .inl (mem_cons_of_mem _ hx)
        · exact .inr ⟨by omega, hx.2⟩
  · rw [maps_append, maps_cons, maps_cons, hf3, h.maps, forall_mem_cons]
    constructor
    · rintro (⟨h1, h2, h3⟩ | h1 | h1 | ⟨h1, h2, h3, h4⟩)
      · refine .inr ⟨h1, h2.trans hn, ⟨fun hc => ?_, fun x hx hc => ?_⟩, h3⟩
        · exact absurd hc.1 (by omega)
        · have := husedApart x hx
          exact absurd hc.1 (by omega)
      · exact .inl (.inl h1)
      · exact .inl (.inr h1)
      · exact .inr ⟨by omega, h2, ⟨fun hc => absurd hc.2 (by omega), h3⟩, h4⟩
    · rintro ((h1 | h1) | ⟨h1, h2, ⟨h3, h4⟩, h5⟩)
      · exact .inr (.inl h1)
      · exact .inr (.inr (.inl h1))
      · by_cases hb : b < lo n
        · exact .inl ⟨h1, hb, h5⟩
        · have hge : hi n ≤ b := by
            by_contra hlt
            exact h3 ⟨not_lt.mp hb, not_le.mp hlt⟩
          exact .inr (.inr (.inr ⟨by omega, h2, h4, h5⟩))
  · exact (le_max_left ..).trans h.grows
  · have := h.grows
    refine forall_mem_cons.mpr ⟨?_, h.reach⟩
    show hi n ≤ r.coveredUntil
    omega
  · intro b hb hlt
    rcases h.filled b hb hlt with h1 | ⟨x, hx, hxb⟩
    · by_cases h2 : b < covered
      · exact .inl h2
      · exact .inr ⟨n, mem_cons_self .., by omega, by omega⟩
    · exact .inr ⟨x, mem_cons_of_mem _ hx, hxb⟩

/-- **Over one existing entry**, the new entries are pushed that start before its end,
and of the entry what they leave. -/
theorem pushOver_spec (he : Fits e) (hpos : lo e < hi e) : ∀ {new : List ExtentMapEntryV2} {covered : ℕ}, Layout new →
    (∀ n ∈ new, covered ≤ lo n) →
    ∃ used, Pushed e new covered (max (lo e) covered) (pushOver e new covered (max (lo e) covered)) used
  | [], covered, _, _ => ⟨[], pushed_none covered _ he (by simp)⟩
  | n :: new, covered, hnew, hcov => by
    obtain ⟨hposn, hfit, hrest, hapart⟩ := cons_iff.mp hnew
    obtain ⟨hn, hcov'⟩ := forall_mem_cons.mp hcov
    have hcov'' : ∀ m ∈ new, max covered (hi n) ≤ lo m := fun m hm => max_le (hcov' m hm) (hapart m hm)
    rw [pushOver, endOffset_eq hfit, ← lo_eq n, endOffset_eq he, max_assoc]
    by_cases hover : lo n < hi e
    · rw [if_pos hover]
      by_cases hend : hi e ≤ max (lo e) (max covered (hi n))
      · -- the entry is used up
        rw [if_pos hend]
        have hlast := pushed_none (max covered (hi n)) (max (lo e) (max covered (hi n))) he fun m (hm : m ∈ new) => by
          have := hcov'' m hm
          exact ⟨this, by omega⟩
        have := hlast.cons he hnew hn hover
        rw [endOffset_eq he] at this
        exact ⟨[n], this⟩
      · rw [if_neg hend]
        obtain ⟨used, ih⟩ := pushOver_spec he hpos hrest hcov''
        exact ⟨n :: used, ih.cons he hnew hn hover⟩
    · rw [if_neg hover]
      have := pushed_none covered (max (lo e) covered) he fun m (hm : m ∈ n :: new) => by
        refine ⟨hcov m hm, ?_⟩
        rcases mem_cons.mp hm with rfl | hm
        · exact not_lt.mp hover
        · have := hapart m hm
          omega
      rw [endOffset_eq he] at this
      exact ⟨[], this⟩

/-- **Merging lays the new extents over the existing ones.** Of those, only what is at or
after `covered` still counts. -/
theorem applyInserts_spec : ∀ {es new : List ExtentMapEntryV2} {covered : ℕ}, Layout es → Layout new →
    (∀ n ∈ new, covered ≤ lo n) → Layout (applyInserts es new covered) ∧
      (∀ m, (∀ n ∈ new, m ≤ lo n) → (∀ e ∈ es, m ≤ max (lo e) covered) → ∀ x ∈ applyInserts es new covered, m ≤ lo x) ∧
      ∀ b t, Maps (applyInserts es new covered) b t ↔
        Maps new b t ∨ covered ≤ b ∧ (∀ n ∈ new, ¬ Covers n b) ∧ Maps es b t
  | [], new, covered, _, hnew, _ =>
    ⟨hnew, fun m hm _ => hm, fun b t => by rw [applyInserts]; simp⟩
  | e :: es, new, covered, hes, hnew, hcov => by
    obtain ⟨hpos, hfit, hes', hapart⟩ := cons_iff.mp hes
    rw [applyInserts, ← lo_eq e]
    obtain ⟨h1, h2, h3, h4, h5⟩ := pushBefore_spec (lo e) covered hnew hcov
    generalize pushBefore (lo e) new covered = r1 at h1 h2 h3 h4 h5 ⊢
    obtain ⟨before, rest1, covered1⟩ := r1
    dsimp only at h1 h2 h3 h4 h5 ⊢
    rw [h1] at hnew hcov
    obtain ⟨hbefore, hrest1, hbeforeApart⟩ := append_iff.mp hnew
    obtain ⟨used, h6⟩ := pushOver_spec hfit hpos hrest1 h3
    generalize pushOver e rest1 covered1 (max (lo e) covered1) = r2 at h6 ⊢
    obtain ⟨hit, rest2, covered2⟩ := r2
    obtain ⟨h7, hhit, hpieces, hmaps, hafter, hgrows, hreach, hfilled⟩ := h6
    dsimp only at h7 hhit hpieces hmaps hafter hgrows hreach hfilled ⊢
    rw [h7] at hrest1 hbeforeApart
    obtain ⟨hused, hrest2, husedApart⟩ := append_iff.mp hrest1
    obtain ⟨ih1, ih2, ih3⟩ := applyInserts_spec hes' hrest2 fun n hn => (hafter n hn).1
    -- every piece at hand ends before the pieces to come
    have hbeforeLast : ∀ x ∈ before, ∀ y ∈ applyInserts es rest2 covered2, hi x ≤ lo y := fun x hx =>
      ih2 (hi x) (fun n hn => hbeforeApart x hx n (mem_append_right _ hn)) fun f hf => by
        have := (h2 x hx).1
        have := hapart f hf
        omega
    have hhitLast : ∀ x ∈ hit, ∀ y ∈ applyInserts es rest2 covered2, hi x ≤ lo y := fun x hx => by
      rcases hpieces x hx with hx | hx
      · exact ih2 (hi x) (husedApart x hx) fun f hf => (hreach x hx).trans (le_max_right ..)
      · refine ih2 (hi x) (fun n hn => hx.2.trans (hafter n hn).2) fun f hf => ?_
        have := hapart f hf
        omega
    have hbeforeHit : ∀ x ∈ before, ∀ y ∈ hit, hi x ≤ lo y := fun x hx y hy => by
      rcases hpieces y hy with hy | hy
      · exact hbeforeApart x hx y (mem_append_left _ hy)
      · have := (h2 x hx).1
        omega
    refine ⟨?_, ?_, fun b t => ?_⟩
    · exact append_iff.mpr ⟨append_iff.mpr ⟨hbefore, hhit, hbeforeHit⟩, ih1,
        forall_mem_append.mpr ⟨hbeforeLast, hhitLast⟩⟩
    · intro m hm he x hx
      rw [h1, h7] at hm
      have hme := he e (mem_cons_self ..)
      rcases mem_append.mp hx with hx | hx
      · rcases mem_append.mp hx with hx | hx
        · exact hm x (mem_append_left _ hx)
        · rcases hpieces x hx with hx | hx
          · exact hm x (mem_append_right _ (mem_append_left _ hx))
          · omega
      · refine ih2 m (fun n hn => hm n (mem_append_right _ (mem_append_right _ hn))) (fun f hf => ?_) x hx
        have := hapart f hf
        have := he f (mem_cons_of_mem _ hf)
        omega
    · rw [h1, h7, maps_append, maps_append, maps_append, maps_append, maps_cons, hmaps, ih3]
      simp only [forall_mem_append]
      constructor
      · rintro ((h8 | h8 | ⟨h8, h9, h10, h11⟩) | h8 | ⟨h8, h9, h10⟩)
        · exact .inl (.inl h8)
        · exact .inl (.inr (.inl h8))
        · refine .inr ⟨by omega, ⟨fun x hx hc => ?_, h10, fun n hn hc => ?_⟩, .inl ⟨⟨by omega, h9⟩, h11⟩⟩
          · exact absurd hc.2 (by have := (h2 x hx).1; omega)
          · exact absurd hc.1 (by have := (hafter n hn).2; omega)
        · exact .inl (.inr (.inr h8))
        · refine .inr ⟨by omega, ⟨fun x hx hc => ?_, fun x hx hc => ?_, h9⟩, .inr h10⟩
          · exact absurd hc.2 (by have := (h2 x hx).2; omega)
          · exact absurd hc.2 (by have := hreach x hx; omega)
      · rintro ((h8 | h8 | h8) | ⟨h8, ⟨h9, h10, h11⟩, ⟨h12, h13⟩ | h12⟩)
        · exact .inl (.inl h8)
        · exact .inl (.inr (.inl h8))
        · exact .inr (.inl h8)
        · have hlo := h12.1
          exact .inl (.inr (.inr ⟨by omega, h12.2, h10, h13⟩))
        · -- a byte of a later extent below the end of the new ones would be in one of them
          obtain ⟨f, hf, hfb, hft⟩ := h12
          have hef := hapart f hf
          have hlo := hfb.1
          refine .inr (.inr ⟨?_, h11, f, hf, hfb, hft⟩)
          by_contra hlt
          rcases hfilled b (by omega) (by omega) with h14 | ⟨x, hx, hxb⟩
          · omega
          · exact h10 x hx hxb

/-! ### Joining -/

theorem joined_spec {last : ExtentMapEntryV2} (h : Layout (last :: e :: es)) (hj : Joins last e) :
    Layout ({ last with length := wrap64 (last.length + e.length) } :: es) ∧
      ∀ b, content ({ last with length := wrap64 (last.length + e.length) } :: es) b = content (last :: e :: es) b := by
  obtain ⟨hpos, hfit, hes, hapart⟩ := cons_iff.mp h
  obtain ⟨hpos', hfit', hes', hapart'⟩ := cons_iff.mp hes
  obtain ⟨hadj, htype, hloc, hsum⟩ := hj
  rw [endOffset_eq hfit, ← lo_eq e] at hadj
  have hend : last.logicalOffset + (last.length + e.length) = hi e := by
    rw [lo_eq, hi_eq] at hadj
    rw [hi_eq, ← hadj, add_assoc]
  have hlen : wrap64 (last.length + e.length) = last.length + e.length := by
    have : hi e ≤ u64Max := hfit'
    exact wrap64_of_le (by omega)
  rw [hlen]
  -- the entry with the second appended to it
  generalize hj : ({ last with length := last.length + e.length } : ExtentMapEntryV2) = joined
  have hlo : lo joined = lo last := by rw [← hj]; rfl
  have hhi : hi joined = hi e := by rw [← hj]; exact hend
  have htag : tag joined = tag last := by rw [← hj]; rfl
  have htag' : tag last = tag e := by
    show (⟨_, _, _⟩ : ByteTag) = ⟨_, _, _⟩
    rw [htype, hloc, hsum]
  refine ⟨cons_iff.mpr ⟨by omega, ?_, hes', fun y hy => ?_⟩, fun b => ?_⟩
  · show hi joined ≤ u64Max
    rw [hhi]
    exact hfit'
  · rw [hhi]
    exact hapart' y hy
  · rw [content_cons, content_cons, content_cons, htag, ← htag']
    by_cases hb : Covers last b
    · rw [if_pos hb, if_pos ⟨by have := hb.1; omega, by have := hb.2; omega⟩]
    · rw [if_neg hb]
      refine if_congr ⟨fun hc => ⟨?_, hhi ▸ hc.2⟩, fun hc => ⟨?_, hhi ▸ hc.2⟩⟩ rfl rfl
      · by_contra hlt
        exact hb ⟨hlo ▸ hc.1, by omega⟩
      · have := hc.1
        omega

/-- An extent stays in front of what the extents after it became. -/
theorem Layout.keep_last {last e : ExtentMapEntryV2} {es merged : List ExtentMapEntryV2} (h : Layout (last :: e :: es))
    (hm : Layout merged ∧ (∀ x ∈ merged, lo e ≤ lo x) ∧ ∀ b, content merged b = content (e :: es) b) :
    Layout (last :: merged) ∧ (∀ x ∈ last :: merged, lo last ≤ lo x) ∧
      ∀ b, content (last :: merged) b = content (last :: e :: es) b := by
  obtain ⟨hpos, hfit, -, hapart⟩ := cons_iff.mp h
  obtain ⟨h1, h2, h3⟩ := hm
  have hlast : ∀ x ∈ merged, hi last ≤ lo x := fun x hx => (hapart e (mem_cons_self ..)).trans (h2 x hx)
  refine ⟨cons_iff.mpr ⟨hpos, hfit, h1, hlast⟩, ?_, fun b => ?_⟩
  · exact forall_mem_cons.mpr ⟨le_rfl, fun x hx => hpos.le.trans (hlast x hx)⟩
  · rw [content_cons, content_cons, h3]

theorem mergeLoop_spec : ∀ {es : List ExtentMapEntryV2} {last : ExtentMapEntryV2}, Layout (last :: es) →
    Layout (mergeLoop last es) ∧ (∀ x ∈ mergeLoop last es, lo last ≤ lo x) ∧
      ∀ b, content (mergeLoop last es) b = content (last :: es) b
  | [], last, h => ⟨h, by simp [mergeLoop], fun b => rfl⟩
  | e :: es, last, h => by
    rw [mergeLoop]
    split_ifs with hj
    · obtain ⟨h1, h2⟩ := joined_spec h hj
      obtain ⟨h3, h4, h5⟩ := mergeLoop_spec h1
      exact ⟨h3, h4, fun b => (h5 b).trans (h2 b)⟩
    · exact h.keep_last (mergeLoop_spec (cons_iff.mp h).2.2.1)

/-- **Joining neighbours leaves the mapping as it is.** -/
theorem mergeAdjacent_spec : ∀ {es : List ExtentMapEntryV2}, Layout es →
    Layout (mergeAdjacent es) ∧ content (mergeAdjacent es) = content es
  | [], h => ⟨h, rfl⟩
  | _ :: _, h => ⟨(mergeLoop_spec h).1, funext (mergeLoop_spec h).2.2⟩

end Tidefs.ExtentMap
