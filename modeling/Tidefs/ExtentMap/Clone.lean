/-
# Cloning a file

`clone_file` checks the ids of the source against the free regions of the destination and
their counts against the limit, and then raises the counts before it looks the entries
up. What fails from there on leaves the counts raised: a conversion of a part of an extent
through `inner_mut` makes the lookup find another range (`clone_file_keeps_holds`). An error
changes nothing exactly if a check refuses the clone, the first id has no count, or every id
has one, its entry is found as the id says and the inner map of the destination takes the
copies (`clone_file_atomic_iff`). Carving the ranges out of the free regions does not fail
then, whatever `inner_mut` did to the inner maps.
-/
import Tidefs.ExtentMap.Accounts

namespace Tidefs.Userspace

open Word Btree Ordered Ranges List Tidefs.ExtentMap Tidefs.ExtentMap.ExtentMapEntryV2 FreeSpaceTracker

namespace ExtentMap

def newPendingData (logicalOffset length : ℕ) (locatorId : LocatorId) : ExtentMapEntryV2 :=
  ⟨logicalOffset, length, kindPendingData, 0, locatorId, Vector.replicate 32 0, 0, Vector.replicate 15 0⟩

variable (P : Params)

/-- The first id whose range has the offset decides. -/
def lookup (s : ExtentMap) (offset : ℕ) : Option (Option ExtentMapEntryV2) :=
  match (s.idToOffset.entries.map Prod.snd).find? fun r => r.1 ≤ offset && offset < wrap64 (r.1 + r.2) with
  | none => some none
  | some r => (s.inner.lookupRange r.1 r.2).map fun found => (PolymorphicExtentMap.orDefault found).head?

/-- Phase 3 of `clone_file`. -/
def holdAll : List ExtentId → ExtentMap → ExtentMap × Outcome Unit
  | [], s => (s, .ok ())
  | extentId :: ids, s =>
    match s.extentHold extentId with
    | (s, .error e) => (s, .error e)
    | (s, .ok ()) => holdAll ids s

def clonedEntry (e : ExtentMapEntryV2) : ExtentMapEntryV2 :=
  if e.isPendingData then newPendingData e.logicalOffset e.length e.locatorId
  else if e.isData then newData e.logicalOffset e.length e.locatorId e.checksum e.birthCommitGroup
  else newUnwritten e.logicalOffset e.length e.birthCommitGroup

/-- Phase 4. -/
def cloneEntries (source : ExtentMap) : List (ExtentId × (ℕ × ℕ)) → Option (Outcome (List ExtentMapEntryV2))
  | [] => some (.ok [])
  | (_, off, len) :: rest =>
    (source.lookup off).bind fun
      | none => some (.error .notFound)
      | some e =>
        if e.logicalOffset ≠ off ∨ e.length ≠ len then some (.error .corrupt)
        else (cloneEntries source rest).map fun r => r.map (clonedEntry e :: ·)

/-- Phase 6. -/
def importIds : List (ExtentId × (ℕ × ℕ)) → ExtentMap → ExtentMap × Outcome Unit
  | [], s => (s, .ok ())
  | (eid, off, len) :: rest, s =>
    let s := { s with idToOffset := s.idToOffset.insert eid (off, len), refcounts := s.refcounts.insert eid 1 }
    match s.freeTracker.carve off len with
    | .error e => (s, .error e)
    | .ok freeTracker =>
      importIds rest
        { s with freeTracker, nextExtentId := if s.nextExtentId ≤ eid then wrap64 (eid + 1) else s.nextExtentId }

def crossPool : Option ℕ → Option ℕ → Bool
  | some source, some destination => source != destination
  | _, _ => false

/-- The destination and the source after the call, with the `pool_id` of both. -/
def cloneFile (sourcePool pool : Option ℕ) (s source : ExtentMap) :
    Option (ExtentMap × ExtentMap × Outcome Unit) :=
  let sourceExtents := source.idToOffset.entries
  if sourceExtents = [] then some (s, source, .error .notFound)
  else if crossPool sourcePool pool then some (s, source, .error .crossPool)
  else if sourceExtents.any fun a => !s.freeTracker.isFree a.2.1 a.2.2 then some (s, source, .error .overlappingExtent)
  else if sourceExtents.any fun a => extentMapMaxRefcount ≤ (source.refcounts.get? a.1).getD 1 then
    some (s, source, .error .refCountOverflow)
  else
    match holdAll (sourceExtents.map Prod.fst) source with
    | (source, .error e) => some (s, source, .error e)
    | (source, .ok ()) =>
      (cloneEntries source sourceExtents).bind fun
        | .error e => some (s, source, .error e)
        | .ok entriesToInsert =>
          (s.inner.step P (.insertExtent entriesToInsert)).bind fun (inner, r) =>
            match r with
            | .error e => some ({ s with inner }, source, .error e)
            | .ok _ =>
              match importIds sourceExtents { s with inner } with
              | (s, .error e) => some (s, source, .error e)
              | (s, .ok ()) =>
                let maxEnd := (entriesToInsert.map endOffset).foldl max 0
                if s.inner.fileSize < maxEnd then
                  (s.inner.step P (.truncate maxEnd)).map fun (inner, _) => ({ s with inner }, source, .ok ())
                else some (s, source, .ok ())

variable {P} {s source : ExtentMap}

/-- Counts below the limit are raised, one after the other. -/
theorem holdAll_ok : ∀ {ids : List ExtentId} {source : ExtentMap}, ids.Nodup →
    (∀ k ∈ ids, ∃ rc, source.refcounts.get? k = some rc ∧ rc < extentMapMaxRefcount) →
    ∃ refcounts, holdAll ids source = ({ source with refcounts }, .ok ())
  | [], source, _, _ => ⟨source.refcounts, rfl⟩
  | k :: ids, source, hnodup, h => by
    obtain ⟨hk, hnodup'⟩ := nodup_cons.mp hnodup
    obtain ⟨⟨rc, h1, h2⟩, h3⟩ := forall_mem_cons.mp h
    obtain ⟨refcounts, h4⟩ := @holdAll_ok ids { source with refcounts := source.refcounts.insert k (rc + 1) } hnodup'
      fun k' hk' => by
        rw [OrdMap.get?_insert, if_neg (ne_of_mem_of_not_mem hk' hk)]
        exact h3 k' hk'
    refine ⟨refcounts, ?_⟩
    rw [holdAll, extentHold, h1]
    dsimp only
    rw [if_neg (not_le.mpr h2)]
    exact h4

/-- An id without a count stops the holding. -/
theorem holdAll_error : ∀ {ids : List ExtentId} {source : ExtentMap}, (∃ k ∈ ids, source.refcounts.get? k = none) →
    ∃ source' e, holdAll ids source = (source', .error e)
  | k :: ids, source, ⟨k', hk', hnone⟩ => by
    rw [holdAll, extentHold]
    cases hk : source.refcounts.get? k with
    | none => exact ⟨source, .notFound, rfl⟩
    | some rc =>
      dsimp only
      split_ifs
      · exact ⟨source, .refCountOverflow, rfl⟩
      · have hne : k' ≠ k := fun h => by
          rw [h, hk] at hnone
          cases hnone
        refine holdAll_error ⟨k', (mem_cons.mp hk').resolve_left hne, ?_⟩
        rwa [OrdMap.get?_insert, if_neg hne]

/-- Holding changes no count but those of the ids. -/
theorem holdAll_get? : ∀ {ids : List ExtentId} {source : ExtentMap} {k : ExtentId}, k ∉ ids →
    (holdAll ids source).1.refcounts.get? k = source.refcounts.get? k
  | [], _, _, _ => rfl
  | k' :: ids, source, k, hk => by
    obtain ⟨hne, hk'⟩ := not_or.mp (mt mem_cons.mpr hk)
    rw [holdAll, extentHold]
    cases source.refcounts.get? k' with
    | none => rfl
    | some rc =>
      dsimp only
      split_ifs
      · rfl
      · exact (holdAll_get? hk').trans (by rw [OrdMap.get?_insert, if_neg hne])

/-- **Once an extent is held, the source has changed.** -/
theorem holdAll_changes {k : ExtentId} {ids : List ExtentId} {rc : ℕ} (hnodup : (k :: ids).Nodup)
    (hk : source.refcounts.get? k = some rc) (hrc : rc < extentMapMaxRefcount) : (holdAll (k :: ids) source).1 ≠ source := by
  intro hsame
  have hcount : (holdAll (k :: ids) source).1.refcounts.get? k = some (rc + 1) := by
    rw [holdAll, extentHold, hk]
    dsimp only
    rw [if_neg (not_le.mpr hrc)]
    exact (holdAll_get? (nodup_cons.mp hnodup).1).trans (by rw [OrdMap.get?_insert, if_pos rfl])
  rw [hsame, hk] at hcount
  exact absurd (Option.some.inj hcount) (Nat.ne_of_lt (Nat.lt_succ_self rc))

/-- Counts are no part of a lookup. -/
theorem cloneEntries_refcounts (refcounts : OrdMap ExtentId ℕ) : ∀ ranges : List (ExtentId × (ℕ × ℕ)),
    cloneEntries { source with refcounts } ranges = cloneEntries source ranges
  | [] => rfl
  | (_, _, _) :: rest => by
    rw [cloneEntries, cloneEntries, cloneEntries_refcounts refcounts rest]
    rfl

/-- Free ranges that are apart are carved one after the other. -/
theorem importIds_ok : ∀ {ranges : List (ExtentId × (ℕ × ℕ))} {s : ExtentMap}, Tidy s.freeTracker.regions →
    (∀ a ∈ ranges, 0 < a.2.2 ∧ a.2.1 + a.2.2 ≤ u64Max) →
    ranges.Pairwise (fun a a' => ∀ b, Holds a.2 b → ¬ Holds a'.2 b) →
    (∀ a ∈ ranges, ∀ b, Holds a.2 b → Covered s.freeTracker.regions b) → (importIds ranges s).2 = .ok ()
  | [], _, _, _, _, _ => rfl
  | (eid, off, len) :: ranges, s, h, hv, hpair, hcov => by
    obtain ⟨hr, hv'⟩ := forall_mem_cons.mp hv
    obtain ⟨hhead, htail⟩ := pairwise_cons.mp hpair
    obtain ⟨hrcov, hcov'⟩ := forall_mem_cons.mp hcov
    have hin := h.gapped.interval (Nat.lt_add_of_pos_right hr.1) fun b h1 h2 => hrcov b ⟨h1, h2⟩
    obtain ⟨t, h1, h2, h3⟩ := carve_spec h hr hin
    rw [importIds, h1]
    exact importIds_ok h2 hv' htail fun a ha b hb => (h3 b).mpr ⟨hcov' a ha b hb, fun hbr => hhead a ha b hbr hb⟩

/-- The entry of an id is found, with the range of the id. -/
def Found (source : ExtentMap) (a : ExtentId × (ℕ × ℕ)) : Prop :=
  ∃ e, source.lookup a.2.1 = some (some e) ∧ e.logicalOffset = a.2.1 ∧ e.length = a.2.2

/-- The copies of the entries that are found. -/
def copies (source : ExtentMap) (ranges : List (ExtentId × (ℕ × ℕ))) : List ExtentMapEntryV2 :=
  ranges.filterMap fun a => (source.lookup a.2.1).join.map clonedEntry

theorem cloneEntries_found : ∀ {ranges : List (ExtentId × (ℕ × ℕ))}, (∀ a ∈ ranges, source.Found a) →
    cloneEntries source ranges = some (.ok (source.copies ranges))
  | [], _ => rfl
  | (k, off, len) :: rest, h => by
    obtain ⟨⟨e, h1, h2, h3⟩, hrest⟩ := forall_mem_cons.mp h
    have h1 : source.lookup off = some (some e) := h1
    have hcopies : source.copies ((k, off, len) :: rest) = clonedEntry e :: source.copies rest := by
      rw [copies, filterMap_cons]
      dsimp only
      rw [h1]
      rfl
    rw [cloneEntries, h1, Option.bind_some]
    dsimp only
    rw [if_neg (not_or.mpr ⟨not_not.mpr h2, not_not.mpr h3⟩), cloneEntries_found hrest, hcopies]
    rfl

/-- An entry that is not found as the id says ends the lookups. -/
theorem cloneEntries_error : ∀ {ranges : List (ExtentId × (ℕ × ℕ))}, (∀ a ∈ ranges, (source.lookup a.2.1).isSome = true) →
    (∃ a ∈ ranges, ¬ source.Found a) → ∃ e, cloneEntries source ranges = some (.error e)
  | (k, off, len) :: rest, hreturns, ⟨a, ha, hno⟩ => by
    obtain ⟨hreturn, hreturns⟩ := forall_mem_cons.mp hreturns
    obtain ⟨o, ho⟩ := Option.isSome_iff_exists.mp hreturn
    have ho : source.lookup off = some o := ho
    rw [cloneEntries, ho, Option.bind_some]
    cases o with
    | none => exact ⟨.notFound, rfl⟩
    | some e =>
      dsimp only
      split_ifs with hrange
      · exact ⟨.corrupt, rfl⟩
      · -- this one was found, so the other comes later
        obtain ⟨hoff, hlen⟩ := not_or.mp hrange
        have hrest : a ∈ rest := (mem_cons.mp ha).resolve_left fun h =>
          hno (h ▸ ⟨e, ho, not_not.mp hoff, not_not.mp hlen⟩)
        obtain ⟨err, herr⟩ := cloneEntries_error hreturns ⟨a, hrest, hno⟩
        rw [herr]
        exact ⟨err, rfl⟩

/-- The checks before the first change: the source has extents, the pools agree, the ranges are free in the
destination and the counts below the limit. -/
def Refuses (sourcePool pool : Option ℕ) (s source : ExtentMap) : Prop :=
  source.idToOffset.entries = [] ∨ crossPool sourcePool pool = true ∨
    (∃ a ∈ source.idToOffset.entries, s.freeTracker.isFree a.2.1 a.2.2 = false) ∨
    ∃ a ∈ source.idToOffset.entries, extentMapMaxRefcount ≤ (source.refcounts.get? a.1).getD 1

/-- An error leaves both maps as they were. -/
def ErrorsChangeNothing (P : Params) (sourcePool pool : Option ℕ) (s source : ExtentMap) : Prop :=
  ∀ s' source' e, cloneFile P sourcePool pool s source = some (s', source', .error e) → s' = s ∧ source' = source

theorem cloneFile_refused {sourcePool pool : Option ℕ} (h : Refuses sourcePool pool s source) :
    ∃ e, cloneFile P sourcePool pool s source = some (s, source, .error e) := by
  unfold cloneFile
  dsimp only
  split_ifs with h1 h2 h3 h4
  · exact ⟨_, rfl⟩
  · exact ⟨_, rfl⟩
  · exact ⟨_, rfl⟩
  · exact ⟨_, rfl⟩
  · simp only [any_eq_true, not_exists, not_and, decide_eq_true_eq, Bool.not_eq_true', Bool.not_eq_false] at h3 h4
    rcases h with h | h | ⟨a, ha, h⟩ | ⟨a, ha, h⟩
    · exact absurd h h1
    · exact absurd h h2
    · exact absurd (h3 a ha) (by rw [h]; exact Bool.false_ne_true)
    · exact absurd h (h4 a ha)

/-- **When a clone that fails changes neither map.** -/
theorem clone_file_atomic_iff {sourcePool pool : Option ℕ} (htidy : Tidy s.freeTracker.regions) (hids : Ids source)
    (hreturns : ∀ a ∈ source.idToOffset.entries, (source.lookup a.2.1).isSome = true) :
    ErrorsChangeNothing P sourcePool pool s source ↔ Refuses sourcePool pool s source ∨
      (∃ a ∈ source.idToOffset.entries.head?, source.refcounts.get? a.1 = none) ∨
      (∀ a ∈ source.idToOffset.entries, source.refcounts.get? a.1 ≠ none ∧ source.Found a) ∧
        ∀ inner e, s.inner.step P (.insertExtent (source.copies source.idToOffset.entries)) ≠ some (inner, .error e) := by
  unfold ErrorsChangeNothing
  by_cases hrefuse : Refuses sourcePool pool s source
  · refine iff_of_true (fun s' source' e h => ?_) (.inl hrefuse)
    obtain ⟨err, herr⟩ := @cloneFile_refused P s source sourcePool pool hrefuse
    rw [herr] at h
    cases h
    exact ⟨rfl, rfl⟩
  rw [or_iff_right hrefuse]
  simp only [Refuses, not_or, not_exists, not_and, not_le, Bool.not_eq_false] at hrefuse
  obtain ⟨hne, hpools, hfree, hlimit⟩ := hrefuse
  -- no check refuses
  unfold cloneFile
  dsimp only
  rw [if_neg hne, if_neg hpools, if_neg (by simpa using fun k off len h => hfree (k, off, len) h),
    if_neg (by simpa using fun k off len h => hlimit (k, off, len) h)]
  have hnodup : (source.idToOffset.entries.map Prod.fst).Nodup := source.idToOffset.keys_nodup
  have himport : ∀ inner, (importIds source.idToOffset.entries { s with inner }).2 = .ok () := fun inner =>
    importIds_ok htidy (fun a ha => (hids.ranges a.1 a.2 (OrdMap.get?_eq_some.mpr ha)).1) hids.pairwise
      fun a ha b hb => by
        have hvalid := (hids.ranges a.1 a.2 (OrdMap.get?_eq_some.mpr ha)).1
        obtain ⟨r, hr, h5, h6⟩ := (isFree_iff htidy hvalid.2).mp (hfree a ha)
        exact ⟨r, hr, h5.trans hb.1, hb.2.trans_le h6⟩
  generalize source.idToOffset.entries = ranges at *
  obtain _ | ⟨a, rest⟩ := ranges
  · exact absurd rfl hne
  cases hhead : source.refcounts.get? a.1 with
  | none =>
    refine iff_of_true (fun s' source' e h => ?_) (.inl ⟨a, rfl, hhead⟩)
    rw [map_cons, holdAll, extentHold, hhead] at h
    cases h
    exact ⟨rfl, rfl⟩
  | some rc =>
    have hchanged : (holdAll ((a :: rest).map Prod.fst) source).1 ≠ source :=
      holdAll_changes hnodup hhead (by simpa [hhead] using hlimit a mem_cons_self)
    rw [or_iff_right fun ⟨a', ha', hnone⟩ => by
      rw [head?_cons, Option.mem_some_iff] at ha'
      rw [← ha', hhead] at hnone
      cases hnone]
    by_cases hcount : ∀ a' ∈ a :: rest, source.refcounts.get? a'.1 ≠ none
    · obtain ⟨refcounts, hheld⟩ := holdAll_ok hnodup fun k hk => by
        obtain ⟨a', ha', rfl⟩ := mem_map.mp hk
        obtain ⟨rc', hrc'⟩ := Option.ne_none_iff_exists'.mp (hcount a' ha')
        exact ⟨rc', hrc', by simpa [hrc'] using hlimit a' ha'⟩
      rw [hheld] at hchanged ⊢
      dsimp only
      rw [cloneEntries_refcounts]
      by_cases hfound : ∀ a' ∈ a :: rest, source.Found a'
      · rw [cloneEntries_found hfound, Option.bind_some, and_iff_right fun a' ha' => ⟨hcount a' ha', hfound a' ha'⟩]
        dsimp only
        cases hstep : s.inner.step P (.insertExtent (source.copies (a :: rest))) with
        | none => exact iff_of_true nofun nofun
        | some r =>
          obtain ⟨inner, _ | freed⟩ := r
          · refine iff_of_false (fun h => ?_) fun h => h inner _ rfl
            exact hchanged (h _ _ _ rfl).2
          · refine iff_of_true (fun s' source' e h => ?_) nofun
            have himport := himport inner
            rw [Option.bind_some] at h
            dsimp only at h
            generalize importIds (a :: rest) { s with inner } = imported at h himport
            obtain ⟨s₁, _⟩ := imported
            cases himport
            dsimp only at h
            split_ifs at h
            · obtain ⟨_, -, h⟩ := Option.map_eq_some_iff.mp h
              cases h
            · cases h
      · obtain ⟨err, herr⟩ := cloneEntries_error hreturns (by simpa only [not_forall, exists_prop] using hfound)
        rw [herr]
        refine iff_of_false (fun h => hchanged (h _ _ _ rfl).2) fun h => hfound fun a' ha' => (h.1 a' ha').2
    · obtain ⟨source₁, err, herr⟩ := @holdAll_error ((a :: rest).map Prod.fst) source (by
        simp only [not_forall, not_not] at hcount
        obtain ⟨a', ha', hnone⟩ := hcount
        exact ⟨a'.1, mem_map_of_mem ha', hnone⟩)
      rw [herr] at hchanged ⊢
      exact iff_of_false (fun h => hchanged (h _ _ _ rfl).2) fun h => hcount fun a' ha' => (h.1 a' ha').1

/-! ### A source whose entries moved -/

def plain : Params := extentParams fun _ => 0

/-- One extent of 100 bytes. -/
def allocated : ExtentMap := (((new plain).allocate plain 0 100).map Prod.fst).getD (new plain)

/-- Half of it was converted through `inner_mut`. -/
def halfConverted : ExtentMap :=
  ((allocated.inner.step plain (.convertUnwrittenToData 0 50 7 0 1)).map fun r => { allocated with inner := r.1 }).getD
    allocated

/-- **The clone fails and the extent of the source is held.** -/
theorem clone_file_keeps_holds : halfConverted.refcounts.get? 1 = some 1 ∧
    ((cloneFile plain none none (new plain) halfConverted).map fun r => (r.2.2, r.2.1.refcounts.get? 1)) =
      some (.error .corrupt, some 2) := by
  decide +kernel

theorem inv_allocated : Inv plain allocated := by
  obtain ⟨s', r, h1, h2⟩ := @allocate_inv plain _ 100 0 (PolymorphicExtentMap.roomy_extentParams _) inv_new
    ⟨fun h => (nomatch h), by decide⟩
  rw [allocated, h1]
  exact h2

/-- All of it was converted. -/
def converted : ExtentMap :=
  ((allocated.inner.step plain (.convertUnwrittenToData 0 100 7 0 1)).map fun r => { allocated with inner := r.1 }).getD
    allocated

/-- The half-converted source is refused where its range is taken; the converted one is copied as data. -/
theorem clone_file_atomic_iff_converted : ErrorsChangeNothing plain none none allocated halfConverted ∧
    ErrorsChangeNothing plain none none (new plain) converted := by
  have hids := inv_allocated.ids
  have hhalf : Ids halfConverted := ⟨hids.ranges, hids.apart, hids.once, hids.below⟩
  have hfull : Ids converted := ⟨hids.ranges, hids.apart, hids.once, hids.below⟩
  refine ⟨(clone_file_atomic_iff inv_allocated.tidy hhalf (by decide +kernel)).mpr (.inl (.inr (.inr (.inl ?_)))),
    (clone_file_atomic_iff inv_new.tidy hfull (by decide +kernel)).mpr (.inr (.inr ⟨fun a ha => ?_, ?_⟩))⟩
  · exact ⟨(1, 0, 100), by decide +kernel, by decide +kernel⟩
  · have hone : converted.idToOffset.entries = [(1, 0, 100)] := by decide +kernel
    rw [hone, mem_singleton] at ha
    subst ha
    exact ⟨by decide +kernel, newData 0 100 7 0 1, by decide +kernel, rfl, rfl⟩
  · have hok : ((new plain).inner.step plain (.insertExtent (converted.copies converted.idToOffset.entries))).map Prod.snd =
        some (.ok []) := by decide +kernel
    intro inner e h
    rw [h] at hok
    cases hok

end ExtentMap
end Tidefs.Userspace
