/-
# The regions of a locator table

A region holds a set of entries: it is a chained table by one field of the entries, and its
live slots are those entries (`Region`). Placing, replacing and removing an entry change the
set by that entry. Slots are placed for a set of entries if both regions hold it (`Placed`),
and each operation on the slots takes them from one set to the next.
-/
import Tidefs.Locator.Table

namespace Tidefs.Locator

open Probing List Option InodeSlots LocatorEntry

/-! ### Kinds of slots -/

def liveKey {K : Type} (field : LocatorEntry → K) (e : LocatorEntry) : Option K :=
  if e.isLive then some (field e) else none

section Kinds

variable {K : Type} {field : LocatorEntry → K} {e : LocatorEntry}

theorem liveKey_eq_some {k : K} : liveKey field e = some k ↔ e.isLive = true ∧ field e = k := by
  unfold liveKey
  split_ifs with h
  · simp [h]
  · simp [h]

theorem liveKey_eq_none : liveKey field e = none ↔ e.isLive = false := by
  unfold liveKey
  split_ifs with h
  · simp [h]
  · simpa using h

theorem isFree_iff : e.isFree = true ↔ e.isLive = false := by
  unfold LocatorEntry.isFree LocatorEntry.isEmpty LocatorEntry.isTombstone LocatorEntry.isLive
  rw [Bool.or_eq_true, beq_iff_eq, beq_iff_eq, Bool.and_eq_false_iff, bne_eq_false_iff_eq, bne_eq_false_iff_eq]

theorem not_live_of_isEmpty (h : e.isEmpty = true) : e.isLive = false :=
  isFree_iff.mp (by rw [isFree, h, Bool.true_or])

theorem isEmpty_of_live (h : e.isLive = true) : e.isEmpty = false := by
  cases hempty : e.isEmpty with
  | false => rfl
  | true => rw [not_live_of_isEmpty hempty] at h; cases h

/-- A slot with an offset that can be looked up is live. -/
theorem isLive_of_lt (h : e.logicalOffset < tombstoneSentinel) : e.isLive = true := by
  have h1 : e.logicalOffset ≠ emptySentinel :=
    fun heq => absurd (heq ▸ h) (show ¬ emptySentinel < tombstoneSentinel by decide)
  have h2 : e.logicalOffset ≠ tombstoneSentinel := h.ne
  simp [isLive, h1, h2]

theorem hasExtent_iff {eid : U64} : e.hasExtent eid = true ↔ liveKey extentId e = some eid := by
  rw [liveKey_eq_some, hasExtent, Bool.and_eq_true, beq_iff_eq]

end Kinds

/-! ### One region -/

section Regions

variable {K : Type} (field : LocatorEntry → K) (hash : K → ℕ → ℕ)

/-- A region of so many slots that holds the entries of a set. -/
structure Region (cap : ℕ) (P : LocatorEntry → Prop) (region : List LocatorEntry) : Prop where
  length : region.length = cap
  chained : Chained (liveKey field) LocatorEntry.isEmpty hash region
  holds : ∀ e, (e ∈ region ∧ e.isLive = true) ↔ P e

/-- The hash of a key is a place. -/
def HashBound (hash : K → ℕ → ℕ) : Prop := ∀ k cap, 0 < cap → hash k cap < cap

variable {field hash} {cap : ℕ} {P Q : LocatorEntry → Prop} {region : List LocatorEntry} {i : ℕ} {e old : LocatorEntry}
  (hr : Region field hash cap P region)
include hr

theorem Region.congr (h : ∀ e, P e ↔ Q e) : Region field hash cap Q region :=
  ⟨hr.length, hr.chained, fun e => (hr.holds e).trans (h e)⟩

theorem Region.slot (h : P e) : e.isLive = true ∧ ∃ i : ℕ, region[i]? = some e := by
  obtain ⟨hmem, hlive⟩ := (hr.holds e).mpr h
  exact ⟨hlive, mem_iff_getElem?.mp hmem⟩

theorem Region.eq_of_field {e e' : LocatorEntry} (he : P e) (he' : P e') (h : field e = field e') : e = e' := by
  obtain ⟨hlive, i, hi⟩ := hr.slot he
  obtain ⟨hlive', j, hj⟩ := hr.slot he'
  have hij := hr.chained.unique i j e e' (field e) hi hj (liveKey_eq_some.mpr ⟨hlive, rfl⟩)
    (liveKey_eq_some.mpr ⟨hlive', h.symm⟩)
  rw [hij, hj] at hi
  exact (some.inj hi).symm

omit hr in
theorem mem_live_liveKey {x : LocatorEntry} : x ∈ live (liveKey field) region ↔ x ∈ region ∧ x.isLive = true := by
  rw [mem_live]
  exact and_congr_right fun _ =>
    ⟨fun ⟨k, hk⟩ => (liveKey_eq_some.mp hk).1, fun h => ⟨field x, liveKey_eq_some.mpr ⟨h, rfl⟩⟩⟩

omit hr in
theorem live_liveKey : live (liveKey field) region = region.filter (·.isLive) := by
  apply filter_congr
  intro x _
  cases hx : x.isLive with
  | true => rw [liveKey_eq_some.mpr ⟨hx, rfl⟩]; rfl
  | false => rw [liveKey_eq_none.mpr hx]; rfl

/-- The live slots are the entries of the set, each once. -/
theorem Region.perm {es : List LocatorEntry} (hes : es.Nodup) (hmem : ∀ e, e ∈ es ↔ P e) : (region.filter (·.isLive)).Perm es := by
  have hnodup := hr.chained.nodup_live
  rw [live_liveKey] at hnodup
  refine (perm_ext_iff_of_nodup hnodup hes).mpr fun e => ?_
  rw [mem_filter, hr.holds e, hmem e]

/-- A set of fewer entries than slots leaves a free one. -/
theorem Region.exists_free {es : List LocatorEntry} (hes : es.Nodup)
    (hmem : ∀ e, e ∈ es ↔ P e) (hroom : es.length < cap) : ∃ s ∈ region, s.isFree = true := by
  have hlength := (hr.perm hes hmem).length_eq
  have hlt : (live (liveKey field) region).length < region.length := by
    rw [live_liveKey, hlength, hr.length]
    exact hroom
  obtain ⟨s, hs, hnone⟩ := Probing.exists_free hlt
  exact ⟨s, hs, isFree_iff.mpr (liveKey_eq_none.mp hnone)⟩

/-- **A new entry in the first free slot.** -/
theorem Region.put (hhash : HashBound hash) (hfree : ∃ s ∈ region, s.isFree = true)
    (hlive : e.isLive = true) (hnew : ∀ x, P x → field x ≠ field e) :
    ∃ idx, probe region (·.isFree) region.length (hash (field e) region.length) = some idx ∧
      Region field hash cap (fun x => x = e ∨ P x) (region.set idx e) := by
  obtain ⟨s, hs, hsfree⟩ := hfree
  have hstart := hhash (field e) region.length (length_pos_of_mem hs)
  have htest : ∀ s ∈ region, s.isFree = true ↔ liveKey field s = none :=
    fun s _ => isFree_iff.trans liveKey_eq_none.symm
  have habsent : ∀ s ∈ region, liveKey field s ≠ some (field e) := by
    intro s hs hkey
    obtain ⟨hslive, hfield⟩ := liveKey_eq_some.mp hkey
    exact hnew s ((hr.holds s).mp ⟨hs, hslive⟩) hfield
  cases hprobe : probe region (·.isFree) region.length (hash (field e) region.length) with
  | none =>
    rw [(probe_eq_none hstart).mp hprobe s hs] at hsfree
    cases hsfree
  | some idx =>
    obtain ⟨⟨old, hold, holdfree⟩, -⟩ := (probe_eq_some hstart).mp hprobe
    have hkey : liveKey field e = some (field e) := liveKey_eq_some.mpr ⟨hlive, rfl⟩
    have hchained := hr.chained.put hstart htest (fun s h => liveKey_eq_none.mpr (not_live_of_isEmpty h)) hprobe
      habsent hkey
    refine ⟨idx, rfl, by rw [length_set, hr.length], hchained, fun x => ?_⟩
    rw [← mem_live_liveKey, hr.chained.mem_live_set hold, mem_live_liveKey, hr.holds x]
    have holdkey : liveKey field old = none := liveKey_eq_none.mpr (isFree_iff.mp holdfree)
    constructor
    · rintro (⟨hx, -⟩ | ⟨hx, -⟩)
      · exact .inl hx
      · exact .inr hx
    · rintro (hx | hx)
      · exact .inl ⟨hx, field e, hkey⟩
      · exact .inr ⟨hx, fun k hk => by rw [holdkey] at hk; cases hk⟩

/-- **An entry in the place of one with the same key.** -/
theorem Region.replace (hold : region[i]? = some old) (hlive : old.isLive = true)
    (helive : e.isLive = true) (hfield : field e = field old) :
    Region field hash cap (fun x => x = e ∨ (P x ∧ x ≠ old)) (region.set i e) := by
  have hkey : liveKey field old = some (field old) := liveKey_eq_some.mpr ⟨hlive, rfl⟩
  have hekey : liveKey field e = some (field old) := liveKey_eq_some.mpr ⟨helive, hfield⟩
  refine ⟨by rw [length_set, hr.length], hr.chained.replace hold hkey hekey (isEmpty_of_live helive), fun x => ?_⟩
  rw [← mem_live_liveKey, hr.chained.mem_live_set hold, mem_live_liveKey, hr.holds x]
  constructor
  · rintro (⟨hx, -⟩ | ⟨hx, hne⟩)
    · exact .inl hx
    · exact .inr ⟨hx, hne _ hkey⟩
  · rintro (hx | ⟨hx, hne⟩)
    · exact .inl ⟨hx, field old, hekey⟩
    · exact .inr ⟨hx, fun _ _ => hne⟩

/-- **A tombstone in the place of an entry.** -/
theorem Region.release (hold : region[i]? = some old) (hlive : old.isLive = true) :
    Region field hash cap (fun x => P x ∧ x ≠ old) (region.set i .tombstone) := by
  have hkey : liveKey field old = some (field old) := liveKey_eq_some.mpr ⟨hlive, rfl⟩
  have htomb : liveKey field .tombstone = none := liveKey_eq_none.mpr (by decide)
  refine ⟨by rw [length_set, hr.length], hr.chained.release htomb (by decide), fun x => ?_⟩
  rw [← mem_live_liveKey, hr.chained.mem_live_set hold, mem_live_liveKey, hr.holds x]
  constructor
  · rintro (⟨-, k, hk⟩ | ⟨hx, hne⟩)
    · rw [htomb] at hk
      cases hk
    · exact ⟨hx, hne _ hkey⟩
  · rintro ⟨hx, hne⟩
    exact .inr ⟨hx, fun _ _ => hne⟩

omit hr in
theorem Region.empty (cap : ℕ) : Region field hash cap (fun _ => False) (List.replicate cap .empty) := by
  refine ⟨length_replicate, Chained.fresh fun s hs => ?_, fun e => ⟨fun ⟨hmem, hlive⟩ => ?_, False.elim⟩⟩
  · rw [eq_of_mem_replicate hs]
    exact liveKey_eq_none.mpr (by decide)
  · rw [eq_of_mem_replicate hmem] at hlive
    exact absurd hlive (by decide)

end Regions

/-! ### Searches -/

theorem hashOffset_bound : HashBound hashOffset := fun k _ hcap => Nat.mod_lt k.val hcap

theorem hashExtent_bound : HashBound hashExtent := fun k _ hcap => Nat.mod_lt k.val hcap

abbrev PrimaryRegion := Region LocatorEntry.logicalOffset hashOffset

abbrev SecondaryRegion := Region LocatorEntry.extentId hashExtent

section Searches

variable {cap : ℕ} {P : LocatorEntry → Prop} {region : List LocatorEntry}

/-- **A search for an extent** ends at the entry with it. -/
theorem SecondaryRegion.find (hr : SecondaryRegion cap P region) (hcap : 0 < cap)
    (eid : U64) : (∃ idx e, findExtent region eid = some (idx, e) ∧ region[idx]? = some e ∧ P e ∧ e.extentId = eid) ∨
      findExtent region eid = none ∧ ∀ e, P e → e.extentId ≠ eid := by
  have hstart : hashExtent eid region.length < region.length := by
    rw [hr.length]
    exact hashExtent_bound eid cap hcap
  have htest : ∀ s ∈ region, (s.isEmpty || s.hasExtent eid) = true ↔
      s.isEmpty = true ∨ liveKey extentId s = some eid := by
    intro s _
    rw [Bool.or_eq_true, hasExtent_iff]
  by_cases hthere : ∃ e, P e ∧ e.extentId = eid
  · obtain ⟨e, he, heid⟩ := hthere
    obtain ⟨hlive, i, hi⟩ := hr.slot he
    refine .inl ⟨i, e, ?_, hi, he, heid⟩
    rw [findExtent, probe_present hr.chained hstart htest hi (liveKey_eq_some.mpr ⟨hlive, heid⟩)]
    simp only [hi, bind_some, isEmpty_of_live hlive]
    rfl
  · have hnone : ∀ e, P e → e.extentId ≠ eid := fun e he heid => hthere ⟨e, he, heid⟩
    refine .inr ⟨?_, hnone⟩
    have habsent : ∀ s ∈ region, liveKey extentId s ≠ some eid := by
      intro s hs hkey
      obtain ⟨hlive, heid⟩ := liveKey_eq_some.mp hkey
      exact hnone s ((hr.holds s).mp ⟨hs, hlive⟩) heid
    rcases probe_absent hstart htest habsent with hprobe | ⟨i, s, hprobe, hs, hempty⟩
    · rw [findExtent, hprobe]
    · rw [findExtent, hprobe]
      simp only [hs, bind_some, hempty, if_true]

/-- **A search for an offset** ends at the entry with it. -/
theorem PrimaryRegion.find {slots : InodeSlots} (hr : PrimaryRegion cap P slots.primary) (hcap : 0 < cap) {offset : U64}
    (hvalid : offset < tombstoneSentinel) :
    (∃ idx e, slots.findOffset offset = some (idx, e) ∧ slots.primary[idx]? = some e ∧ P e ∧ e.logicalOffset = offset) ∨
      slots.findOffset offset = none ∧ ∀ e, P e → e.logicalOffset ≠ offset := by
  have hstart : hashOffset offset slots.primary.length < slots.primary.length := by
    rw [hr.length]
    exact hashOffset_bound offset cap hcap
  have htest : ∀ s ∈ slots.primary, (s.logicalOffset == offset || s.isEmpty) = true ↔
      s.isEmpty = true ∨ liveKey logicalOffset s = some offset := by
    intro s _
    rw [Bool.or_eq_true, beq_iff_eq, liveKey_eq_some, or_comm]
    exact or_congr_right ⟨fun h => ⟨isLive_of_lt (h ▸ hvalid), h⟩, fun h => h.2⟩
  by_cases hthere : ∃ e, P e ∧ e.logicalOffset = offset
  · obtain ⟨e, he, hoffset⟩ := hthere
    obtain ⟨hlive, i, hi⟩ := hr.slot he
    refine .inl ⟨i, e, ?_, hi, he, hoffset⟩
    rw [findOffset, probe_present hr.chained hstart htest hi (liveKey_eq_some.mpr ⟨hlive, hoffset⟩)]
    simp only [hi, bind_some, if_pos hoffset]
  · have hnone : ∀ e, P e → e.logicalOffset ≠ offset := fun e he hoffset => hthere ⟨e, he, hoffset⟩
    refine .inr ⟨?_, hnone⟩
    have habsent : ∀ s ∈ slots.primary, liveKey logicalOffset s ≠ some offset := by
      intro s hs hkey
      obtain ⟨hlive, hoffset⟩ := liveKey_eq_some.mp hkey
      exact hnone s ((hr.holds s).mp ⟨hs, hlive⟩) hoffset
    rcases probe_absent hstart htest habsent with hprobe | ⟨i, s, hprobe, hs, hempty⟩
    · rw [findOffset, hprobe]
    · have hne : s.logicalOffset ≠ offset := by
        intro heq
        have hlive := not_live_of_isEmpty hempty
        rw [isLive_of_lt (heq ▸ hvalid)] at hlive
        cases hlive
      rw [findOffset, hprobe]
      simp only [hs, bind_some, if_neg hne]

/-- An insertion into the secondary region ends where there is a free slot. -/
theorem secondaryInsert_isSome (hfree : ∃ s ∈ region, s.isFree = true)
    (entry : LocatorEntry) : ∃ region', secondaryInsert region entry = some region' := by
  obtain ⟨s, hs, hsfree⟩ := hfree
  have hstart := hashExtent_bound entry.extentId region.length (length_pos_of_mem hs)
  unfold secondaryInsert
  cases hprobe : probe region (fun slot => slot.isFree || slot.hasExtent entry.extentId) region.length
      (hashExtent entry.extentId region.length) with
  | none =>
    have := (probe_eq_none hstart).mp hprobe s hs
    rw [hsfree, Bool.true_or] at this
    cases this
  | some idx => exact ⟨_, rfl⟩

/-- **A new extent goes into the first free slot of the secondary region.** -/
theorem SecondaryRegion.insert (hr : SecondaryRegion cap P region)
    (hfree : ∃ s ∈ region, s.isFree = true) {entry : LocatorEntry} (hlive : entry.isLive = true)
    (hnew : ∀ x, P x → x.extentId ≠ entry.extentId) :
    ∃ region', secondaryInsert region entry = some region' ∧ SecondaryRegion cap (fun x => x = entry ∨ P x) region' := by
  obtain ⟨idx, hprobe, hregion⟩ := hr.put hashExtent_bound hfree hlive hnew
  refine ⟨_, ?_, hregion⟩
  have hstart : hashExtent entry.extentId region.length < region.length := by
    obtain ⟨s, hs, -⟩ := hfree
    exact hashExtent_bound _ _ (length_pos_of_mem hs)
  have hsame : ∀ s ∈ region, (s.isFree || s.hasExtent entry.extentId) = s.isFree := by
    intro s hs
    have hno : s.hasExtent entry.extentId = false := by
      rw [Bool.eq_false_iff]
      intro hhas
      obtain ⟨hslive, heid⟩ := liveKey_eq_some.mp (hasExtent_iff.mp hhas)
      exact hnew s ((hr.holds s).mp ⟨hs, hslive⟩) heid
    rw [hno, Bool.or_false]
  rw [secondaryInsert, probe_congr hstart hsame, hprobe]
  rfl

theorem SecondaryRegion.remove (hr : SecondaryRegion cap P region) (hcap : 0 < cap) {e : LocatorEntry} (he : P e) :
    SecondaryRegion cap (fun x => P x ∧ x ≠ e) (secondaryRemove region e.extentId) ∧
      ∃ s ∈ secondaryRemove region e.extentId, s.isFree = true := by
  rcases hr.find hcap e.extentId with ⟨idx, e', hfind, hidx, he', heid⟩ | ⟨-, hnone⟩
  · obtain rfl := hr.eq_of_field he' he heid
    have hlive := (hr.slot he).1
    rw [secondaryRemove, hfind]
    refine ⟨hr.release hidx hlive, .tombstone, ?_, by decide⟩
    exact mem_set (List.getElem?_eq_some_iff.mp hidx).1 _
  · exact absurd rfl (hnone e he)

end Searches

/-! ### Both regions -/

/-- Both regions have so many slots and hold the entries of the set. -/
structure Placed (cap : ℕ) (P : LocatorEntry → Prop) (slots : InodeSlots) : Prop where
  primary : PrimaryRegion cap P slots.primary
  secondary : SecondaryRegion cap P slots.secondary

namespace Placed

variable {cap : ℕ} {P Q : LocatorEntry → Prop} {slots : InodeSlots} {entry old : LocatorEntry}

theorem congr (hp : Placed cap P slots) (h : ∀ e, P e ↔ Q e) : Placed cap Q slots :=
  ⟨hp.primary.congr h, hp.secondary.congr h⟩

theorem empty (cap : ℕ) : Placed cap (fun _ => False) (emptySlots cap) := ⟨Region.empty cap, Region.empty cap⟩

variable (hp : Placed cap P slots)
include hp

theorem mem_iterate {e : LocatorEntry} : e ∈ slots.iterate ↔ P e := by
  rw [InodeSlots.iterate, mem_filter, hp.primary.holds e]

theorem nodup_iterate : slots.iterate.Nodup := by
  have h := hp.primary.chained.nodup_live
  rwa [live_liveKey] at h

theorem hashOffset_lt (hcap : 0 < cap) (offset : U64) :
    hashOffset offset slots.primary.length < slots.primary.length := by
  rw [hp.primary.length]
  exact hashOffset_bound _ cap hcap

theorem probe_offset (hcap : 0 < cap) (hold : P old)
    (hvalid : old.logicalOffset < tombstoneSentinel) : ∃ i, slots.primary[i]? = some old ∧
      probe slots.primary (fun slot => slot.logicalOffset == old.logicalOffset) slots.primary.length
        (hashOffset old.logicalOffset slots.primary.length) = some i := by
  obtain ⟨hlive, i, hi⟩ := hp.primary.slot hold
  refine ⟨i, hi, probe_only (hp.hashOffset_lt hcap _) hi (beq_self_eq_true _) fun j t ht htest => ?_⟩
  have hoffset : t.logicalOffset = old.logicalOffset := beq_iff_eq.mp htest
  exact hp.primary.chained.unique j i t old old.logicalOffset ht hi
    (liveKey_eq_some.mpr ⟨isLive_of_lt (hoffset ▸ hvalid), hoffset⟩) (liveKey_eq_some.mpr ⟨hlive, rfl⟩)

theorem insert_over (hcap : 0 < cap) (hold : P old)
    (hoffset : old.logicalOffset = entry.logicalOffset) (hvalid : entry.logicalOffset < tombstoneSentinel) :
    ∃ slots', slots.insert entry = some (.ok slots') ∧ ((∀ x, P x → x ≠ old → x.extentId ≠ entry.extentId) →
        Placed cap (fun x => x = entry ∨ (P x ∧ x ≠ old)) slots') := by
  obtain ⟨i, hi, hprobe⟩ := hp.probe_offset hcap hold (hoffset ▸ hvalid)
  have hlive := (hp.primary.slot hold).1
  have helive : entry.isLive = true := isLive_of_lt hvalid
  obtain ⟨hremoved, hfree⟩ := hp.secondary.remove hcap hold
  have hfound := insertProbe_found slots.primary entry.logicalOffset slots.primary.length
    (hashOffset entry.logicalOffset slots.primary.length) none
  rw [← hoffset, hprobe, bind_some, hi, hoffset] at hfound
  obtain ⟨secondary, hsecondary⟩ := secondaryInsert_isSome hfree entry
  refine ⟨⟨slots.primary.set i entry, secondary⟩, ?_, fun hnew => ⟨?_, ?_⟩⟩
  · unfold InodeSlots.insert
    dsimp only
    generalize InodeSlots.insertProbe slots.primary entry.logicalOffset _ _ none = r at hfound ⊢
    obtain ⟨a, b⟩ := r
    obtain rfl : a = some (i, old) := hfound
    dsimp only
    rw [hsecondary]
    rfl
  · exact hp.primary.replace hi hlive helive hoffset.symm
  · obtain ⟨region, hregion, hholds⟩ := hremoved.insert hfree helive fun x hx => hnew x hx.1 hx.2
    rw [hsecondary] at hregion
    rw [some.inj hregion]
    exact hholds

theorem insert_new (hcap : 0 < cap) (habsent : ∀ x, P x → x.logicalOffset ≠ entry.logicalOffset)
    (hvalid : entry.logicalOffset < tombstoneSentinel) : (cap * maxLoadNum < (slots.iterate.length + 1) * maxLoadDen ∧
        slots.insert entry = some (.error (.wouldGrow cap))) ∨
      (¬ cap * maxLoadNum < (slots.iterate.length + 1) * maxLoadDen ∧ ∃ slots', slots.insert entry = some (.ok slots') ∧
          ((∀ x, P x → x.extentId ≠ entry.extentId) → Placed cap (fun x => x = entry ∨ P x) slots')) := by
  have helive : entry.isLive = true := isLive_of_lt hvalid
  set start := hashOffset entry.logicalOffset slots.primary.length
  have hnone : probe slots.primary (fun slot => slot.logicalOffset == entry.logicalOffset) slots.primary.length
      start = none := by
    refine (probe_eq_none (hp.hashOffset_lt hcap _)).mpr fun s hs => ?_
    rw [beq_eq_false_iff_ne]
    intro heq
    exact habsent s ((hp.primary.holds s).mp ⟨hs, isLive_of_lt (heq ▸ hvalid)⟩) heq
  have hfound := insertProbe_found slots.primary entry.logicalOffset slots.primary.length
    start none
  have htarget := insertProbe_target slots.primary entry.logicalOffset slots.primary.length
    start none hnone
  rw [hnone, bind_none] at hfound
  rw [none_or] at htarget
  have hmem : ∀ e, e ∈ slots.iterate ↔ P e := fun e => hp.mem_iterate
  unfold InodeSlots.insert
  dsimp only
  generalize InodeSlots.insertProbe slots.primary entry.logicalOffset _ start none = r at hfound htarget ⊢
  obtain ⟨a, b⟩ := r
  obtain rfl : a = none := hfound
  rw [hp.primary.length]
  by_cases hload : cap * maxLoadNum < (slots.iterate.length + 1) * maxLoadDen
  · refine .inl ⟨hload, ?_⟩
    cases b with
    | none => rfl
    | some target => exact if_pos hload
  · have hroom : slots.iterate.length < cap := by
      simp only [maxLoadNum, maxLoadDen] at hload
      omega
    have hprimary := hp.primary.exists_free hp.nodup_iterate hmem hroom
    have hsecondary := hp.secondary.exists_free hp.nodup_iterate hmem hroom
    obtain ⟨idx, hprobe, hregion⟩ := hp.primary.put hashOffset_bound hprimary helive habsent
    obtain rfl : b = some idx := htarget.trans hprobe
    obtain ⟨secondary, hinsert⟩ := secondaryInsert_isSome hsecondary entry
    refine .inr ⟨hload, ⟨slots.primary.set idx entry, secondary⟩, ?_, fun hnew => ⟨hregion, ?_⟩⟩
    · dsimp only
      rw [if_neg hload, hinsert]
      rfl
    · obtain ⟨region, hins, hholds⟩ := hp.secondary.insert hsecondary helive hnew
      rw [hinsert] at hins
      rw [some.inj hins]
      exact hholds

theorem remove (hcap : 0 < cap) {offset : U64} (hvalid : offset < tombstoneSentinel) :
    (∃ e slots', P e ∧ e.logicalOffset = offset ∧ slots.remove offset = some (.ok slots') ∧
        Placed cap (fun x => P x ∧ x ≠ e) slots') ∨
      (slots.remove offset = some (.error .notFound) ∧ ∀ e, P e → e.logicalOffset ≠ offset) := by
  rcases hp.primary.find hcap hvalid with ⟨idx, e, hfind, hidx, he, hoffset⟩ | ⟨hfind, hnone⟩
  · refine .inl ⟨e, ⟨slots.primary.set idx .tombstone, secondaryRemove slots.secondary e.extentId⟩, he, hoffset, ?_,
      ?_, ?_⟩
    · rw [InodeSlots.remove, hfind]
    · exact hp.primary.release hidx (hp.primary.slot he).1
    · exact (hp.secondary.remove hcap he).1
  · refine .inr ⟨?_, hnone⟩
    rw [InodeSlots.remove, hfind]

theorem relocate (hcap : 0 < cap) (eid dev phys : U64) (pinned : Bool) :
    (∃ e, P e ∧ e.extentId = eid ∧ if pinned then slots.relocateExtent eid dev phys pinned = some (.error .extentPinned)
        else ∃ slots', slots.relocateExtent eid dev phys pinned = some (.ok slots') ∧
          Placed cap (fun x => x = { e with deviceId := dev, physicalOffset := phys } ∨ (P x ∧ x ≠ e)) slots') ∨
      (slots.relocateExtent eid dev phys pinned = some (.error .notFound) ∧ ∀ e, P e → e.extentId ≠ eid) := by
  rcases hp.secondary.find hcap eid with ⟨sIdx, e, hfind, hsIdx, he, heid⟩ | ⟨hfind, hnone⟩
  · refine .inl ⟨e, he, heid, ?_⟩
    unfold relocateExtent
    rw [hfind]
    cases pinned with
    | true => rfl
    | false =>
      obtain ⟨hlive, pIdx, hpIdx⟩ := hp.primary.slot he
      have hprobe : probe slots.primary (·.hasExtent eid) slots.primary.length
          (hashOffset e.logicalOffset slots.primary.length) = some pIdx := by
        refine probe_only (hp.hashOffset_lt hcap _) hpIdx (hasExtent_iff.mpr (liveKey_eq_some.mpr ⟨hlive, heid⟩))
          fun j t ht htest => ?_
        -- the primary slot with the extent holds the entry of the secondary region
        obtain ⟨htlive, hteid⟩ := liveKey_eq_some.mp (hasExtent_iff.mp htest)
        have hPt : P t := (hp.primary.holds t).mp ⟨mem_of_getElem? ht, htlive⟩
        obtain rfl := hp.secondary.eq_of_field hPt he (hteid.trans heid.symm)
        exact hp.primary.chained.unique j pIdx t t t.logicalOffset ht hpIdx (liveKey_eq_some.mpr ⟨hlive, rfl⟩)
          (liveKey_eq_some.mpr ⟨hlive, rfl⟩)
      have hulive : { e with deviceId := dev, physicalOffset := phys }.isLive = true := hlive
      rw [if_neg Bool.false_ne_true]
      refine ⟨⟨slots.primary.set pIdx _, slots.secondary.set sIdx _⟩, ?_, hp.primary.replace hpIdx hlive hulive rfl,
        hp.secondary.replace hsIdx hlive hulive rfl⟩
      simp only [hprobe]
      rfl
  · refine .inr ⟨?_, hnone⟩
    unfold relocateExtent
    rw [hfind]

omit hp

/-- Entries with different offsets and extents are placed one after the other. -/
theorem rehash (full : Option (Except LocatorError InodeSlots)) (hcap : 0 < cap) : ∀ (rest done : List LocatorEntry)
    {slots : InodeSlots}, Placed cap (· ∈ done) slots → (∀ e ∈ rest, e.isLive = true) →
    (done ++ rest).Pairwise (fun a b => a.logicalOffset ≠ b.logicalOffset ∧ a.extentId ≠ b.extentId) →
    (done ++ rest).length < cap →
    ∃ slots', rehash full rest slots = some (.ok slots') ∧ Placed cap (· ∈ done ++ rest) slots'
  | [], done, slots, hp, _, _, _ => ⟨slots, rfl, by rwa [append_nil]⟩
  | entry :: rest, done, slots, hp, hlive, hpair, hroom => by
    obtain ⟨hlentry, hlrest⟩ := forall_mem_cons.mp hlive
    have hdiff : ∀ x ∈ done, x.logicalOffset ≠ entry.logicalOffset ∧ x.extentId ≠ entry.extentId :=
      fun x hx => (pairwise_append.mp hpair).2.2 x hx entry (mem_cons_self ..)
    have hnodup : done.Nodup := (pairwise_append.mp hpair).1.imp fun {_ _} h heq => h.1 (congrArg _ heq)
    have hlt : done.length < cap := by
      rw [length_append, length_cons] at hroom
      omega
    obtain ⟨i, hi, hprimary⟩ := hp.primary.put hashOffset_bound
      (hp.primary.exists_free hnodup (fun _ => Iff.rfl) hlt) hlentry fun x hx => (hdiff x hx).1
    obtain ⟨j, hj, hsecondary⟩ := hp.secondary.put hashExtent_bound
      (hp.secondary.exists_free hnodup (fun _ => Iff.rfl) hlt) hlentry fun x hx => (hdiff x hx).2
    have hmem : ∀ x, (x = entry ∨ x ∈ done) ↔ x ∈ done ++ [entry] := by
      intro x
      rw [mem_append, mem_singleton, or_comm]
    have happend : done ++ entry :: rest = done ++ [entry] ++ rest := by rw [append_assoc]; rfl
    rw [happend] at hpair hroom ⊢
    have hnext : Placed cap (· ∈ done ++ [entry]) ⟨slots.primary.set i entry, slots.secondary.set j entry⟩ :=
      ⟨hprimary.congr hmem, hsecondary.congr hmem⟩
    obtain ⟨slots', hrehash, hplaced⟩ := rehash full hcap rest (done ++ [entry]) hnext hlrest hpair hroom
    refine ⟨slots', ?_, hplaced⟩
    rw [InodeSlots.rehash, InodeSlots.place, hi, InodeSlots.place, hj]
    exact hrehash

/-- The live entries have different offsets and extents. -/
theorem pairwise_iterate (hp : Placed cap P slots) : slots.iterate.Pairwise fun a b =>
    a.logicalOffset ≠ b.logicalOffset ∧ a.extentId ≠ b.extentId := by
  refine (List.Pairwise.imp_of_mem ?_ hp.nodup_iterate)
  intro a b ha hb hne
  have hPa := hp.mem_iterate.mp ha
  have hPb := hp.mem_iterate.mp hb
  exact ⟨fun h => hne (hp.primary.eq_of_field hPa hPb h), fun h => hne (hp.secondary.eq_of_field hPa hPb h)⟩

/-- The live entries move to new regions that have room. -/
theorem rehash_live (hp : Placed cap P slots) (full : Option (Except LocatorError InodeSlots)) {newCap : ℕ}
    (hroom : slots.iterate.length < newCap) :
    ∃ slots', InodeSlots.rehash full slots.iterate (emptySlots newCap) = some (.ok slots') ∧ Placed newCap P slots' := by
  have hlive : ∀ e ∈ slots.iterate, e.isLive = true := fun e he => (mem_filter.mp he).2
  have hempty : Placed newCap (· ∈ ([] : List LocatorEntry)) (emptySlots newCap) :=
    (Placed.empty newCap).congr fun e => by simp
  obtain ⟨slots', hrehash, hplaced⟩ := rehash full (Nat.zero_lt_of_lt hroom) slots.iterate [] hempty hlive
    hp.pairwise_iterate hroom
  exact ⟨slots', hrehash, hplaced.congr fun e => hp.mem_iterate⟩

end Placed

end Tidefs.Locator
