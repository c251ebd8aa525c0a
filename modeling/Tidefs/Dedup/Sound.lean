/-
# What the scanner keeps

A visit frees the locator of a duplicate without looking for other extents that share it,
and passes over an extent that has the canonical locator already without counting it. With
shared locators both go wrong: a locator is freed while an extent refers to it, and the
canonical one is reported dead too early (`shared_locators`).

Where no eligible extent shares its locator, no inode is listed twice and no two extents of
an inode have the same range, every extent keeps its content, locators are freed after
their last extent was redirected, and at the end the counts are those of the extents
(`scan_is_sound`). The proof follows the extents in the order of the visits: `Inv` says
what the table, the redirects and the freed locators are after a part of them, one visit
keeps it (`visit_inv`), and the cursor of the loops stands behind such a part
(`before_succ`, `before_next`).
-/
import Tidefs.Dedup.Scanner

namespace Tidefs.Dedup

open Word Ordered ExtentMap List Option ExtentStore DedupScanner OrdMap Nat

variable {H : Type*} [LinearOrder H]

/-! ### Stores without shared locators -/

/-- The extents of an inode, with their inode. -/
def ExtentStore.extentsOf (store : ExtentStore) (ino : ℕ) : List Extent := (store.extents ino).map fun e => (ino, e)

def ExtentStore.visits (store : ExtentStore) (inodes : List ℕ) : List Extent := inodes.flatMap store.extentsOf

variable {store : ExtentStore} {x : Extent}

theorem ExtentStore.mem_extentsOf {ino : ℕ} : x ∈ store.extentsOf ino ↔ x.1 = ino ∧ x.2 ∈ store.extents ino := by
  obtain ⟨i, e⟩ := x
  simp only [ExtentStore.extentsOf, List.mem_map, Prod.mk.injEq]
  exact ⟨fun ⟨e', he', hi, hee⟩ => ⟨hi.symm, hee ▸ he'⟩, fun ⟨hi, he⟩ => ⟨e, he, hi.symm, rfl⟩⟩

variable {inodes : List ℕ}

theorem ExtentStore.mem_visits (h : x ∈ store.visits inodes) : x.2 ∈ store.extents x.1 := by
  obtain ⟨ino, _, hx⟩ := mem_flatMap.mp h
  obtain ⟨rfl, hmem⟩ := mem_extentsOf.mp hx
  exact hmem

/-- No inode is listed twice, the extents of an inode have different ranges, and the locator of an eligible extent is
that of no other extent. -/
structure Unshared (store : ExtentStore) : Prop where
  inodes : store.inodes.Nodup
  ranges : ∀ ino, ((store.extents ino).map fun e => (e.logicalOffset, e.length)).Nodup
  locators : ∀ x y : Extent, x.2 ∈ store.extents x.1 → y.2 ∈ store.extents y.1 → Eligible x.2 →
    x.2.locatorId = y.2.locatorId → x = y

/-- No two contents of the reader have one hash. -/
def CollisionFree (hash : List UInt8 → H) (reader : PayloadReader) : Prop :=
  ∀ l l' p p', reader.readPayload l = some p → reader.readPayload l' = some p' → hash p = hash p' → p = p'

theorem Unshared.eq_of_range (hstore : Unshared store) {y : Extent}
    (hx : x.2 ∈ store.extents x.1) (hy : y.2 ∈ store.extents y.1) (hino : x.1 = y.1)
    (hoffset : x.2.logicalOffset = y.2.logicalOffset) (hlength : x.2.length = y.2.length) : x = y := by
  rw [← hino] at hy
  exact Prod.ext hino (inj_on_of_nodup_map (hstore.ranges x.1) hx hy (Prod.ext hoffset hlength))

theorem Unshared.nodup_visits (hstore : Unshared store) (hinodes : inodes.Nodup) : (store.visits inodes).Nodup := by
  refine nodup_flatMap.mpr ⟨fun ino _ => ?_, hinodes.imp fun {i j} hij => ?_⟩
  · exact (List.Nodup.of_map _ (hstore.ranges ino)).map fun _ _ h => (Prod.mk.inj h).2
  · intro x hi hj
    exact hij ((mem_extentsOf.mp hi).1.symm.trans (mem_extentsOf.mp hj).1)

/-! ### One visit -/

section Visits

variable (hash : List UInt8 → H) (reader : PayloadReader) (store : ExtentStore)

/-- After the visits of some extents: the entries are those of their contents, with the locator of one of them; every
extent visited refers to the canonical locator of its content and every other to its own; the counts are those of the
extents with the content; and when the `i`-th locator was freed, after as many redirects, no extent referred to it. -/
structure Inv (visited : List Extent) (c : Scan H) : Prop where
  extents : c.extentStore.extents = store.extents
  canonical : ∀ h e, c.ddt.lookup h = some e →
    ∃ y ∈ visited, contentHash hash reader y.2 = some h ∧ y.2.locatorId = e.canonicalLocator
  own : ∀ x, x.2 ∈ store.extents x.1 → (x ∉ visited ∨ contentHash hash reader x.2 = none) →
    current c.extentStore.updatedLocators x = x.2.locatorId
  redirected : ∀ x ∈ visited, ∀ h, contentHash hash reader x.2 = some h →
    ∃ e, c.ddt.lookup h = some e ∧ current c.extentStore.updatedLocators x = e.canonicalLocator
  refcount : ∀ h e, c.ddt.lookup h = some e → e.refcount = visited.countP fun x => contentHash hash reader x.2 = some h
  freed : ∀ freer, c.extentFreer = some freer → freer.freed.length = c.extentStore.updatedLocators.length ∧
    ∀ i l, freer.freed[i]? = some l → ∀ x : Extent, x.2 ∈ store.extents x.1 →
      current (c.extentStore.updatedLocators.take (i + 1)) x ≠ l

variable {hash reader store} {visited : List Extent} {c : Scan H} {x : Extent} {c' : Scan H} {h : H}

/-- What an extent other than `x` refers to is not the locator of `x`. -/
theorem Inv.current_ne (hi : Inv hash reader store visited c) (hstore : Unshared store)
    (hvisited : ∀ y ∈ visited, y.2 ∈ store.extents y.1) {z : Extent} (hx : x.2 ∈ store.extents x.1)
    (hz : z.2 ∈ store.extents z.1) (hnew : x ∉ visited) (heligible : Eligible x.2) (hne : z ≠ x) :
    current c.extentStore.updatedLocators z ≠ x.2.locatorId := by
  intro heq
  by_cases hown : z ∉ visited ∨ contentHash hash reader z.2 = none
  · rw [hi.own z hz hown] at heq
    exact hne (hstore.locators x z hx hz heligible heq.symm).symm
  · rw [not_or, not_not] at hown
    obtain ⟨h, hh⟩ := ne_none_iff_exists'.mp hown.2
    obtain ⟨e, he, hcurrent⟩ := hi.redirected z hown.1 h hh
    obtain ⟨y, hy, _, hlocator⟩ := hi.canonical h e he
    have hxy := hstore.locators x y hx (hvisited y hy) heligible (heq.symm.trans (hcurrent.trans hlocator.symm))
    exact hnew (hxy ▸ hy)

theorem countP_visit (p : Extent → Bool) (x : Extent) :
    (visited ++ [x]).countP p = visited.countP p + if p x then 1 else 0 := by
  rw [countP_append, countP_singleton]

variable (hi : Inv hash reader store visited c)
include hi

theorem Inv.pass
    (hhash : contentHash hash reader x.2 = none) (hddt : c'.ddt = c.ddt) (hextents : c'.extentStore = c.extentStore)
    (hfreer : c'.extentFreer = c.extentFreer) : Inv hash reader store (visited ++ [x]) c' := by
  refine ⟨hextents ▸ hi.extents, fun h e he => ?_, fun z hz hown => ?_, fun z hz h hh => ?_, fun h e he => ?_, ?_⟩
  · rw [hddt] at he
    obtain ⟨y, hy, hrest⟩ := hi.canonical h e he
    exact ⟨y, mem_append_left _ hy, hrest⟩
  · rw [hextents]
    refine hi.own z hz (hown.imp_left fun hz hmem => hz (mem_append_left _ hmem))
  · rw [hddt, hextents]
    rcases mem_append.mp hz with hz | hz
    · exact hi.redirected z hz h hh
    · rw [mem_singleton.mp hz, hhash] at hh
      cases hh
  · rw [hddt] at he
    rw [hi.refcount h e he, countP_visit, hhash]
    simp
  · rw [hfreer, hextents]
    exact hi.freed

/-- The visit of an extent with a content seen for the first time. -/
theorem Inv.first (hx : x.2 ∈ store.extents x.1) (hnew : x ∉ visited) (hhash : contentHash hash reader x.2 = some h)
    (hlookup : c.ddt.lookup h = none) (hddt : c'.ddt = (c.ddt.insert h x.2.locatorId x.2.length x.2.length).1)
    (hextents : c'.extentStore = c.extentStore) (hfreer : c'.extentFreer = c.extentFreer) :
    Inv hash reader store (visited ++ [x]) c' := by
  have hget : ∀ k, c'.ddt.lookup k =
      if k = h then some (.new h x.2.locatorId x.2.length x.2.length) else c.ddt.lookup k := by
    intro k
    rw [hddt, DedupTable.insert, hlookup]
    exact get?_insert _ _ _ _
  -- no extent visited before had this content
  have hfresh : ∀ z ∈ visited, contentHash hash reader z.2 ≠ some h := by
    intro z hz hh
    obtain ⟨e, he, _⟩ := hi.redirected z hz h hh
    rw [hlookup] at he
    cases he
  refine ⟨hextents ▸ hi.extents, fun k e he => ?_, fun z hz hown => ?_, fun z hz k hk => ?_, fun k e he => ?_, ?_⟩
  · rw [hget k] at he
    split_ifs at he with hkh
    · obtain rfl := some.inj he
      exact ⟨x, mem_append_right _ (mem_singleton_self x), hkh ▸ hhash, rfl⟩
    · obtain ⟨y, hy, hrest⟩ := hi.canonical k e he
      exact ⟨y, mem_append_left _ hy, hrest⟩
  · rw [hextents]
    exact hi.own z hz (hown.imp_left fun hz hmem => hz (mem_append_left _ hmem))
  · rw [hget k, hextents]
    rcases mem_append.mp hz with hz | hz
    · have hkh : k ≠ h := fun heq => hfresh z hz (heq ▸ hk)
      rw [if_neg hkh]
      exact hi.redirected z hz k hk
    · obtain rfl := mem_singleton.mp hz
      have hkh : k = h := some.inj (hk.symm.trans hhash)
      rw [if_pos hkh]
      exact ⟨_, rfl, hi.own z hx (Or.inl hnew)⟩
  · rw [hget k] at he
    rw [countP_visit, hhash]
    split_ifs at he with hkh
    · obtain rfl := some.inj he
      have hzero : (visited.countP fun z => contentHash hash reader z.2 = some k) = 0 :=
        countP_eq_zero.mpr fun z hz => by simpa [hkh] using hfresh z hz
      rw [hzero, hkh]
      simp [DedupEntry.new]
    · rw [hi.refcount k e he, if_neg (by simpa using Ne.symm hkh), add_zero]
  · rw [hfreer, hextents]
    exact hi.freed

theorem Inv.duplicate (hstore : Unshared store)
    (hvisited : ∀ y ∈ visited, y.2 ∈ store.extents y.1) (hroom : visited.length < u64Max)
    {existing : DedupEntry H} (hx : x.2 ∈ store.extents x.1) (hnew : x ∉ visited)
    (hhash : contentHash hash reader x.2 = some h) (hlookup : c.ddt.lookup h = some existing)
    (hcanonical : existing.canonicalLocator ≠ x.2.locatorId)
    (hddt : c'.ddt = (c.ddt.addConsumer h x.2.locatorId x.2.length).1) (hextents : c'.extentStore =
      c.extentStore.updateExtentLocator x.1 x.2.logicalOffset x.2.length existing.canonicalLocator)
    (hfreer : c'.extentFreer = c.extentFreer.map (·.freeExtent x.2.locatorId)) :
    Inv hash reader store (visited ++ [x]) c' := by
  have heligible : Eligible x.2 := (contentHash_eq_some.mp hhash).1
  obtain ⟨entry, hentry⟩ : ∃ entry, entry = (existing.addConsumer x.2.length).addLocator x.2.locatorId := ⟨_, rfl⟩
  have hsame : entry.canonicalLocator = existing.canonicalLocator := by
    rw [hentry, DedupEntry.canonicalLocator_addLocator]
    rfl
  have hget : ∀ k, c'.ddt.lookup k = if k = h then some entry else c.ddt.lookup k := by
    intro k
    rw [hddt, DedupTable.addConsumer, hlookup, hentry]
    exact get?_insert _ _ _ _
  have hcurrent : ∀ z : Extent, z.2 ∈ store.extents z.1 → current c'.extentStore.updatedLocators z =
      if z = x then existing.canonicalLocator else current c.extentStore.updatedLocators z := by
    intro z hz
    rw [hextents]
    show current (_ ++ [_]) z = _
    rw [current_append]
    refine if_congr ⟨fun hr => ?_, fun heq => ?_⟩ rfl rfl
    · exact (hstore.eq_of_range hx hz hr.1 hr.2.1 hr.2.2).symm
    · rw [heq]
      exact ⟨rfl, rfl, rfl⟩
  refine ⟨by rw [hextents]; exact hi.extents, fun k e he => ?_, fun z hz hown => ?_, fun z hz k hk => ?_,
    fun k e he => ?_, fun freer hf => ?_⟩
  · rw [hget k] at he
    split_ifs at he with hkh
    · obtain rfl := some.inj he
      obtain ⟨y, hy, hyhash, hylocator⟩ := hi.canonical h existing hlookup
      exact ⟨y, mem_append_left _ hy, hkh ▸ hyhash, hylocator.trans hsame.symm⟩
    · obtain ⟨y, hy, hrest⟩ := hi.canonical k e he
      exact ⟨y, mem_append_left _ hy, hrest⟩
  · have hzx : z ≠ x := by
      rintro rfl
      rcases hown with hz | hz
      · exact hz (mem_append_right _ (mem_singleton_self z))
      · rw [hhash] at hz
        cases hz
    rw [hcurrent z hz, if_neg hzx]
    exact hi.own z hz (hown.imp_left fun hz hmem => hz (mem_append_left _ hmem))
  · rw [hget k]
    rcases mem_append.mp hz with hz | hz
    · have hzx : z ≠ x := fun heq => hnew (heq ▸ hz)
      obtain ⟨e, he, hcur⟩ := hi.redirected z hz k hk
      rw [hcurrent z (hvisited z hz), if_neg hzx, hcur]
      split_ifs with hkh
      · rw [hkh, hlookup] at he
        exact ⟨entry, rfl, (congrArg _ (some.inj he)).symm.trans hsame.symm⟩
      · exact ⟨e, he, rfl⟩
    · obtain rfl := mem_singleton.mp hz
      have hkh : k = h := some.inj (hk.symm.trans hhash)
      rw [if_pos hkh, hcurrent z hx, if_pos rfl]
      exact ⟨entry, rfl, hsame.symm⟩
  · rw [hget k] at he
    rw [countP_visit, hhash]
    split_ifs at he with hkh
    · obtain rfl := some.inj he
      have hcount := hi.refcount h existing hlookup
      have hle : existing.refcount ≤ visited.length := hcount ▸ countP_le_length
      rw [hkh, ← hcount, hentry, DedupEntry.refcount_addLocator, if_pos (by simp)]
      exact min_eq_left (by omega)
    · rw [hi.refcount k e he, if_neg (by simpa using Ne.symm hkh), add_zero]
  · rw [hfreer] at hf
    obtain ⟨before, hbefore, rfl⟩ := map_eq_some_iff.mp hf
    obtain ⟨hlength, hfreed⟩ := hi.freed before hbefore
    have hupdates : c'.extentStore.updatedLocators = c.extentStore.updatedLocators ++
        [⟨x.1, x.2.logicalOffset, x.2.length, existing.canonicalLocator⟩] := by rw [hextents]; rfl
    refine ⟨?_, fun i l hl z hz => ?_⟩
    · rw [hupdates, length_append, ← hlength]
      exact length_append
    · have hl : (before.freed ++ [x.2.locatorId])[i]? = some l := hl
      have hlt := (List.getElem?_eq_some_iff.mp hl).1
      rw [length_append] at hlt
      rcases Nat.lt_succ_iff_lt_or_eq.mp hlt with hlt | rfl
      · rw [List.getElem?_append_left hlt] at hl
        rw [hupdates, take_append_of_le_length (by omega)]
        exact hfreed i l hl z hz
      · rw [getElem?_concat_length] at hl
        obtain rfl := some.inj hl
        rw [take_of_length_le (by rw [hupdates, length_append, hlength]; rfl), hcurrent z hz]
        split_ifs with hzx
        · exact hcanonical
        · exact hi.current_ne hstore hvisited hx hz hnew heligible hzx

/-- **A visit keeps the invariant.** -/
theorem visit_inv (hstore : Unshared store)
    (hvisited : ∀ y ∈ visited, y.2 ∈ store.extents y.1) (hroom : visited.length < u64Max)
    (hx : x.2 ∈ store.extents x.1) (hnew : x ∉ visited) :
    Inv hash reader store (visited ++ [x]) (processOneExtent hash reader c x.1 x.2) := by
  obtain ⟨c', hc', hcases⟩ := processOneExtent_cases hash reader c x
  rw [hc']
  rcases hcases with ⟨hhash, hddt, hextents, hfreer⟩ | ⟨h, hhash, ⟨e, hlookup, hcanonical, -⟩ |
    ⟨e, hlookup, hcanonical, hddt, hextents, hfreer⟩ | ⟨hlookup, hddt, hextents, hfreer⟩⟩
  · exact hi.pass hhash hddt hextents hfreer
  · -- the extent the entry was made for would share its locator with this one
    obtain ⟨y, hy, hyhash, hylocator⟩ := hi.canonical h e hlookup
    have hyx := hstore.locators y x (hvisited y hy) hx (contentHash_eq_some.mp hyhash).1 (hylocator.trans hcanonical)
    exact absurd (hyx ▸ hy) hnew
  · exact hi.duplicate hstore hvisited hroom hx hnew hhash hlookup hcanonical hddt hextents hfreer
  · exact hi.first hx hnew hhash hlookup hddt hextents hfreer

/-- **Every extent keeps its content.** -/
theorem Inv.reads (hcollision : CollisionFree hash reader) (hx : x.2 ∈ store.extents x.1) :
    reader.readPayload (current c.extentStore.updatedLocators x) = reader.readPayload x.2.locatorId := by
  by_cases hown : x ∉ visited ∨ contentHash hash reader x.2 = none
  · rw [hi.own x hx hown]
  · rw [not_or, not_not] at hown
    obtain ⟨h, hh⟩ := ne_none_iff_exists'.mp hown.2
    obtain ⟨e, he, hcurrent⟩ := hi.redirected x hown.1 h hh
    obtain ⟨y, _, hyhash, hylocator⟩ := hi.canonical h e he
    obtain ⟨_, p, hp, hph⟩ := contentHash_eq_some.mp hh
    obtain ⟨_, q, hq, hqh⟩ := contentHash_eq_some.mp hyhash
    rw [hcurrent, ← hylocator, hp, hq, hcollision _ _ q p hq hp (hqh.trans hph.symm)]

/-- **The count of an entry is that of the extents that refer to its canonical locator.** -/
theorem Inv.refcount_current (hstore : Unshared store)
    (hvisited : ∀ y ∈ visited, y.2 ∈ store.extents y.1) {e : DedupEntry H} (he : c.ddt.lookup h = some e) :
    e.refcount = visited.countP fun x =>
      Eligible x.2 ∧ current c.extentStore.updatedLocators x = e.canonicalLocator := by
  obtain ⟨y, hy, hyhash, hylocator⟩ := hi.canonical h e he
  have hyeligible := (contentHash_eq_some.mp hyhash).1
  rw [hi.refcount h e he]
  apply countP_congr
  intro x hx
  rw [decide_eq_true_eq, decide_eq_true_eq]
  constructor
  · intro hh
    obtain ⟨e', he', hcurrent⟩ := hi.redirected x hx h hh
    rw [he] at he'
    exact ⟨(contentHash_eq_some.mp hh).1, hcurrent.trans (congrArg _ (some.inj he').symm)⟩
  · rintro ⟨heligible, hcurrent⟩
    cases hh : contentHash hash reader x.2 with
    | none =>
      -- an extent with its own locator, which is the canonical one
      rw [hi.own x (hvisited x hx) (Or.inr hh), ← hylocator] at hcurrent
      have hyx := hstore.locators y x (hvisited y hy) (hvisited x hx) hyeligible hcurrent.symm
      rw [hyx, hh] at hyhash
      cases hyhash
    | some k =>
      obtain ⟨e', he', hcurrent'⟩ := hi.redirected x hx k hh
      obtain ⟨z, hz, hzhash, hzlocator⟩ := hi.canonical k e' he'
      have hlocators : y.2.locatorId = z.2.locatorId :=
        hylocator.trans (hcurrent.symm.trans (hcurrent'.trans hzlocator.symm))
      have hyz := hstore.locators y z (hvisited y hy) (hvisited z hz) hyeligible hlocators
      rw [hyz, hzhash] at hyhash
      exact hyhash

end Visits

/-! ### The cursor -/

/-- The extents before the cursor. -/
def before (store : ExtentStore) (inodes : List ℕ) (i j : ℕ) : List Extent :=
  store.visits (inodes.take i) ++ ((inodes[i]?.map store.extentsOf).getD []).take j

section Cursor

variable {store : ExtentStore} {inodes : List ℕ} {i j ino : ℕ}

theorem before_succ {e : ExtentMapEntryV2} (hino : inodes[i]? = some ino) (he : (store.extents ino)[j]? = some e) :
    before store inodes i (j + 1) = before store inodes i j ++ [(ino, e)] := by
  have hx : (store.extentsOf ino)[j]? = some (ino, e) := by
    rw [extentsOf, getElem?_map, he]
    rfl
  simp only [before, hino, map_some, getD_some]
  rw [take_add_one, hx, append_assoc]
  rfl

theorem before_next (hino : inodes[i]? = some ino) (hj : (store.extents ino).length ≤ j) :
    before store inodes (i + 1) 0 = before store inodes i j := by
  have hall : (store.extentsOf ino).take j = store.extentsOf ino := by
    apply take_of_length_le
    rw [extentsOf, length_map]
    exact hj
  simp only [before, hino, map_some, getD_some, take_zero, append_nil, hall]
  rw [take_add_one, hino, visits, flatMap_append]
  simp [visits]

theorem before_end (hi : inodes.length ≤ i) : before store inodes i j = store.visits inodes := by
  rw [before, getElem?_eq_none_iff.mpr hi, take_of_length_le hi]
  simp

theorem before_prefix : before store inodes i j <+: store.visits inodes := by
  rcases lt_or_ge i inodes.length with hlt | hge
  · obtain ⟨ino, hino⟩ : ∃ ino, inodes[i]? = some ino := ⟨_, getElem?_eq_getElem hlt⟩
    have hnext : before store inodes (i + 1) 0 <+: store.visits inodes := by
      rw [before, take_zero, append_nil]
      refine ⟨store.visits (inodes.drop (i + 1)), ?_⟩
      rw [visits, visits, ← flatMap_append, take_append_drop]
      rfl
    refine List.IsPrefix.trans ?_ hnext
    rw [before_next hino le_rfl]
    simp only [before, hino, map_some, getD_some, prefix_append_right_inj]
    rw [extentsOf, ← map_take, ← map_take, take_length]
    exact (List.take_prefix j _).map _
  · rw [before_end hge]

end Cursor

/-! ### The loops -/

section Loops

variable (hash : List UInt8 → H) (reader : PayloadReader) (store : ExtentStore) (inodes : List ℕ)

/-- The scanner has visited what lies before its cursor. -/
structure Visited (s : DedupScanner H) : Prop where
  sameReader : s.payloadReader = reader
  list : s.inodeList = inodes
  inv : Inv hash reader store (before store inodes s.inodeIndex s.extentIndex) s.toScan
  done : s.completed = true → inodes.length ≤ s.inodeIndex

/-- What the loops rely on. -/
structure Sound : Prop where
  unshared : Unshared store
  nodup : inodes.Nodup
  room : (store.visits inodes).length ≤ u64Max

variable {hash reader store inodes}

theorem scanExtents_visited (hsound : Sound store inodes) (maxItems : ℕ) {ino : ℕ} : ∀ (left processed : ℕ)
    (s : DedupScanner H), Visited hash reader store inodes s → inodes[s.inodeIndex]? = some ino →
    Visited hash reader store inodes (scanExtents hash ino (store.extents ino) maxItems left processed s).1
  | 0, _, _, hv, _ => hv
  | left + 1, processed, s, hv, hino => by
    rw [scanExtents]
    split_ifs
    · cases hentry : (store.extents ino)[s.extentIndex]? with
      | none => exact hv
      | some entry =>
        refine scanExtents_visited hsound maxItems left (processed + 1) _ ⟨hv.sameReader, hv.list, ?_, hv.done⟩ hino
        have hpart : before store inodes s.inodeIndex s.extentIndex ++ [(ino, entry)] <+: store.visits inodes := by
          rw [← before_succ hino hentry]
          exact before_prefix
        have hnodup := (hsound.unshared.nodup_visits hsound.nodup).sublist hpart.sublist
        have hlength := hpart.length_le.trans hsound.room
        rw [length_append] at hlength
        rw [before_succ hino hentry, hv.sameReader]
        refine visit_inv hv.inv hsound.unshared (fun y hy => ?_) hlength (mem_of_getElem? hentry) fun hmem => ?_
        · exact mem_visits (hpart.subset (mem_append_left _ hy))
        · exact disjoint_of_nodup_append hnodup hmem (mem_singleton_self _)
    · exact hv

variable {s : DedupScanner H}

theorem nextInode_visited (hv : Visited hash reader store inodes s) {ino : ℕ}
    (hino : inodes[s.inodeIndex]? = some ino) (hfull : (store.extents ino).length ≤ s.extentIndex) :
    Visited hash reader store inodes s.nextInode := by
  refine ⟨hv.sameReader, hv.list, ?_, fun h => (hv.done h).trans (le_succ _)⟩
  obtain ⟨h1, h2, h3, h4, h5, h6⟩ := hv.inv
  have hbefore := before_next hino hfull
  show Inv hash reader store (before store inodes (s.inodeIndex + 1) 0) s.nextInode.toScan
  rw [hbefore]
  exact ⟨h1, h2, h3, h4, h5, h6⟩

theorem scanInodes_visited (hsound : Sound store inodes) (maxItems : ℕ) : ∀ (left processed : ℕ)
    (s : DedupScanner H), Visited hash reader store inodes s →
    Visited hash reader store inodes (scanInodes hash maxItems left processed s).1
  | 0, _, _, hv => hv
  | left + 1, processed, s, hv => by
    rw [scanInodes]
    split_ifs
    · cases hino : s.inodeList[s.inodeIndex]? with
      | none => exact hv
      | some ino =>
        rw [hv.list] at hino
        have hextents : s.extentStore.getExtents ino = store.extents ino := congrFun hv.inv.extents ino
        dsimp only
        rw [hextents]
        have hscan := scanExtents_visited hsound maxItems (store.extents ino).length processed s hv hino
        have hindex := (scanExtents_frame hash ino maxItems (store.extents ino)
          (store.extents ino).length processed s).2
        apply scanInodes_visited hsound maxItems
        split_ifs with hfull
        · exact nextInode_visited hscan (hindex ▸ hino) hfull
        · exact hscan
    · exact hv

theorem step_visited (hsound : Sound store inodes) (hv : Visited hash reader store inodes s)
    (maxItems : ℕ) : Visited hash reader store inodes (s.step hash maxItems).1 := by
  unfold step
  split_ifs
  · exact hv
  · have hscan := scanInodes_visited hsound (itemLimit maxItems) (s.inodeList.length + 1) 0 s hv
    refine ⟨hscan.sameReader, hscan.list, hscan.inv, fun hdone => ?_⟩
    have hdone := of_decide_eq_true hdone
    rw [hscan.list] at hdone
    exact hdone

/-- **Whole runs.** -/
theorem run_visited (hsound : Sound store inodes) : ∀ (budgets : List ℕ) {s : DedupScanner H},
    Visited hash reader store inodes s → Visited hash reader store inodes (s.run hash budgets)
  | [], _, hv => hv
  | maxItems :: budgets, _, hv => run_visited hsound budgets (step_visited hsound hv maxItems)

end Loops

/-! ### Scans end -/

section Ends

variable (hash : List UInt8 → H) (store : ExtentStore) (inodes : List ℕ)

/-- How many extents lie before the cursor. -/
def passed (s : DedupScanner H) : ℕ := (before store inodes s.inodeIndex s.extentIndex).length

/-- The scanner goes over these extents. -/
structure Over (s : DedupScanner H) : Prop where
  list : s.inodeList = inodes
  extents : s.extentStore.extents = store.extents

/-- The cursor moved by as many extents as were counted. -/
structure Passes (s : DedupScanner H) (processed : ℕ) (r : DedupScanner H × ℕ) : Prop where
  covers : Over store inodes r.1
  count : passed store inodes r.1 + processed = passed store inodes s + r.2

theorem processOneExtent_extents (reader : PayloadReader) (c : Scan H) (x : Extent) :
    (processOneExtent hash reader c x.1 x.2).extentStore.extents = c.extentStore.extents := by
  obtain ⟨_, hc, ⟨-, -, h, -⟩ | ⟨_, -, ⟨_, -, -, -, h, -⟩ | ⟨_, -, -, -, h, -⟩ | ⟨-, -, h, -⟩⟩⟩ :=
    processOneExtent_cases hash reader c x
  all_goals rw [hc, h]
  rfl

variable {store inodes} (maxItems : ℕ)

theorem scanExtents_passes {ino : ℕ} : ∀ (left processed : ℕ) (s : DedupScanner H), Over store inodes s →
    inodes[s.inodeIndex]? = some ino →
    Passes store inodes s processed (scanExtents hash ino (store.extents ino) maxItems left processed s)
  | 0, _, _, h, _ => ⟨h, rfl⟩
  | left + 1, processed, s, h, hino => by
    rw [scanExtents]
    split_ifs
    · cases hentry : (store.extents ino)[s.extentIndex]? with
      | none => exact ⟨h, rfl⟩
      | some entry =>
        let s' := { s with
          toScan := processOneExtent hash s.payloadReader s.toScan ino entry
          extentIndex := s.extentIndex + 1 }
        have hover : Over store inodes s' := ⟨h.list, (processOneExtent_extents hash _ _ (ino, entry)).trans h.extents⟩
        have hone : passed store inodes s' = passed store inodes s + 1 := by
          show (before store inodes s.inodeIndex (s.extentIndex + 1)).length = _
          rw [before_succ hino hentry, length_append]
          rfl
        obtain ⟨hover', hcount⟩ := scanExtents_passes left (processed + 1) s' hover hino
        rw [hone, add_right_comm] at hcount
        exact ⟨hover', succ.inj hcount⟩
    · exact ⟨h, rfl⟩

theorem scanInodes_passes : ∀ (left processed : ℕ) (s : DedupScanner H), Over store inodes s →
    Passes store inodes s processed (scanInodes hash maxItems left processed s)
  | 0, _, _, h => ⟨h, rfl⟩
  | left + 1, processed, s, h => by
    rw [scanInodes]
    split_ifs
    · cases hino : s.inodeList[s.inodeIndex]? with
      | none => exact ⟨h, rfl⟩
      | some ino =>
        have hextents : s.extentStore.getExtents ino = store.extents ino := congrFun h.extents ino
        rw [h.list] at hino
        dsimp only
        rw [hextents]
        obtain ⟨hover, hcount⟩ := scanExtents_passes hash maxItems (store.extents ino).length processed s h hino
        have hindex := (scanExtents_frame hash ino maxItems (store.extents ino) (store.extents ino).length processed s).2
        split_ifs with hfull
        · obtain ⟨hover', hcount'⟩ := scanInodes_passes left
            (scanExtents hash ino (store.extents ino) maxItems (store.extents ino).length processed s).2
            (nextInode _) ⟨hover.list, hover.extents⟩
          have hnext := congrArg length (before_next (hindex ▸ hino) hfull)
          exact ⟨hover', by simp only [passed, nextInode] at *; omega⟩
        · obtain ⟨hover', hcount'⟩ := scanInodes_passes left _ _ hover
          exact ⟨hover', by omega⟩
    · exact ⟨h, rfl⟩

/-- A step completes the scan or uses up its budget. -/
theorem step_passes {s : DedupScanner H} (h : Over store inodes s) {n : ℕ}
    (hn : s.completed = true ∨ n ≤ passed store inodes s) : Over store inodes (s.step hash maxItems).1 ∧
    ((s.step hash maxItems).1.completed = true ∨
      n + itemLimit maxItems ≤ passed store inodes (s.step hash maxItems).1) := by
  unfold step
  split_ifs with hdone
  · exact ⟨h, .inl hdone⟩
  · obtain ⟨hover, hcount⟩ := scanInodes_passes hash (itemLimit maxItems) (s.inodeList.length + 1) 0 s h
    refine ⟨⟨hover.list, hover.extents⟩, ?_⟩
    rcases scanInodes_ends hash (s.inodeList.length + 1) 0 s (.inl (by omega)) with hbudget | hend
    · exact .inr ((Nat.add_le_add (hn.resolve_left hdone) hbudget).trans_eq hcount.symm)
    · exact .inl (decide_eq_true hend)

theorem run_passes : ∀ (budgets : List ℕ) {s : DedupScanner H} {n : ℕ}, Over store inodes s →
    s.completed = true ∨ n ≤ passed store inodes s →
    (s.run hash budgets).completed = true ∨ n + (budgets.map itemLimit).sum ≤ passed store inodes (s.run hash budgets)
  | [], _, _, _, hn => hn
  | maxItems :: budgets, s, n, h, hn => by
    obtain ⟨hover, hstep⟩ := step_passes hash maxItems h hn
    rw [map_cons, sum_cons, ← add_assoc]
    exact run_passes budgets hover hstep

end Ends

/-- **Every scan ends**: from any state of the scanner, steps with budgets of more than all extents complete it. -/
theorem run_completes (hash : List UInt8 → H) (s : DedupScanner H) (budgets : List ℕ)
    (h : (s.extentStore.visits s.inodeList).length < (budgets.map itemLimit).sum) :
    (s.run hash budgets).completed = true := by
  refine (run_passes hash budgets ⟨rfl, rfl⟩ (.inr (Nat.zero_le _))).resolve_right fun hpassed => ?_
  have hall : passed s.extentStore s.inodeList (s.run hash budgets) ≤ _ := before_prefix.length_le
  omega

/-- A scanner with an empty table, and with or without a freer. -/
def startScan (store : ExtentStore) (reader : PayloadReader) (frees : Bool) : DedupScanner H :=
  .new .new store reader (if frees then some ⟨[]⟩ else none)

theorem start_visited (hash : List UInt8 → H) (reader : PayloadReader) (frees : Bool)
    (hfresh : store.updatedLocators = []) :
    Visited hash reader store (store.inodes.mergeSort (· ≤ ·)) (startScan store reader frees) := by
  have hcurrent : ∀ x, current store.updatedLocators x = x.2.locatorId := by
    intro x
    rw [hfresh]
    rfl
  have hbefore : before store (store.inodes.mergeSort (· ≤ ·)) 0 0 = [] := by simp [before, visits]
  refine ⟨rfl, rfl, ?_, fun h => (by cases h)⟩
  show Inv hash reader store (before store (store.inodes.mergeSort (· ≤ ·)) 0 0)
    (startScan store reader frees : DedupScanner H).toScan
  rw [hbefore]
  refine ⟨rfl, fun h e he => ?_, fun x _ _ => hcurrent x, fun x hx => absurd hx not_mem_nil, fun h e he => ?_,
    fun freer hfreer => ?_⟩
  · cases he
  · cases he
  · have hempty : freer = ⟨[]⟩ := by
      cases frees with
      | false => cases hfreer
      | true => exact (some.inj hfreer).symm
    rw [hempty]
    exact ⟨by show 0 = store.updatedLocators.length; rw [hfresh]; rfl, fun i l hl => by cases hl⟩

/-- **A whole scan deduplicates**: two extents refer to one locator exactly if their contents have one hash. -/
theorem same_locator_iff {hash : List UInt8 → H} {reader : PayloadReader} {frees : Bool} {budgets : List ℕ}
    {s : DedupScanner H} (hs : (startScan store reader frees).run hash budgets = s) (hdone : s.completed)
    (hfresh : store.updatedLocators = []) (hstore : Unshared store)
    (hroom : (store.visits store.inodes).length ≤ u64Max) {y : Extent} {h k : H} (hx : x ∈ store.visits store.inodes)
    (hy : y ∈ store.visits store.inodes) (hxh : contentHash hash reader x.2 = some h)
    (hyk : contentHash hash reader y.2 = some k) :
    current s.extentStore.updatedLocators x = current s.extentStore.updatedLocators y ↔ h = k := by
  have hperm := mergeSort_perm store.inodes (· ≤ ·)
  have hvisits := hperm.flatMap_right store.extentsOf
  have hv := run_visited ⟨hstore, hperm.nodup_iff.mpr hstore.inodes, hvisits.length_eq ▸ hroom⟩ budgets
    (start_visited hash reader frees hfresh)
  rw [hs] at hv
  have hi := hv.inv
  rw [before_end (hv.done hdone)] at hi
  obtain ⟨e, he, hxe⟩ := hi.redirected x (hvisits.mem_iff.mpr hx) h hxh
  obtain ⟨f, hf, hyf⟩ := hi.redirected y (hvisits.mem_iff.mpr hy) k hyk
  rw [hxe, hyf]
  constructor
  · intro heq
    obtain ⟨a, ha, hah, hae⟩ := hi.canonical h e he
    obtain ⟨b, hb, hbk, hbf⟩ := hi.canonical k f hf
    have hab := hstore.locators a b (mem_visits ha) (mem_visits hb) (contentHash_eq_some.mp hah).1
      (hae.trans (heq.trans hbf.symm))
    exact some.inj (hah.symm.trans (hab ▸ hbk))
  · rintro rfl
    rw [some.inj (he.symm.trans hf)]

/-- **The scanner.** With hashes that do not collide and locators that are not shared, after any steps: every extent
reads what it read; the `i`-th locator freed, right after the `i`-th redirect, was the locator of no extent; and once the
scan is complete, each entry counts the eligible extents with its canonical locator, so that removing as many consumers
reports it dead with the last one only. -/
theorem scan_is_sound (hash : List UInt8 → H) (reader : PayloadReader) (store : ExtentStore) (frees : Bool)
    (budgets : List ℕ) (hcollision : CollisionFree hash reader) (hfresh : store.updatedLocators = [])
    (hstore : Unshared store) (hroom : (store.visits store.inodes).length ≤ u64Max) :
    (∀ x : Extent, x.2 ∈ store.extents x.1 →
        reader.readPayload (current ((startScan store reader frees).run hash budgets).extentStore.updatedLocators x) =
          reader.readPayload x.2.locatorId) ∧
      (∀ freer, ((startScan store reader frees).run hash budgets).extentFreer = some freer →
        freer.freed.length = ((startScan store reader frees).run hash budgets).extentStore.updatedLocators.length ∧
        ∀ i l, freer.freed[i]? = some l → ∀ x : Extent, x.2 ∈ store.extents x.1 →
          current (((startScan store reader frees).run hash budgets).extentStore.updatedLocators.take (i + 1)) x ≠ l) ∧
      (((startScan store reader frees).run hash budgets).completed = true →
        ∀ h e, ((startScan store reader frees).run hash budgets).ddt.lookup h = some e →
          e.refcount = ((store.visits store.inodes).countP fun x => Eligible x.2 ∧
            current ((startScan store reader frees).run hash budgets).extentStore.updatedLocators x =
              e.canonicalLocator) ∧ ∀ sizes : List ℕ, sizes.length = e.refcount →
            ((startScan store reader frees).run hash budgets).ddt.removeConsumers h sizes =
              List.replicate (e.refcount - 1) .stillAlive ++ [.canonicalDead e.canonicalLocator]) := by
  obtain ⟨inodes, hinodes⟩ : ∃ inodes, inodes = store.inodes.mergeSort (· ≤ ·) := ⟨_, rfl⟩
  have hperm : inodes.Perm store.inodes := hinodes ▸ mergeSort_perm _ _
  have hvisits : (store.visits inodes).Perm (store.visits store.inodes) := hperm.flatMap_right _
  have hsound : Sound store inodes :=
    ⟨hstore, hperm.nodup_iff.mpr hstore.inodes, hvisits.length_eq ▸ hroom⟩
  have hv := run_visited hsound budgets (hinodes ▸ start_visited hash reader frees hfresh)
  obtain ⟨s, hs⟩ : ∃ s, s = (startScan store reader frees).run hash budgets := ⟨_, rfl⟩
  rw [← hs] at hv ⊢
  refine ⟨fun x hx => hv.inv.reads hcollision hx, hv.inv.freed, fun hdone h e he => ?_⟩
  have hinv := hv.inv
  rw [before_end (hv.done hdone)] at hinv
  have hcount := hinv.refcount_current hstore (fun y hy => mem_visits hy) he
  refine ⟨hcount.trans (hvisits.countP_eq _), fun sizes hsizes => ?_⟩
  have hpos : e.refcount = e.refcount - 1 + 1 := by
    obtain ⟨y, hy, hyhash, _⟩ := hinv.canonical h e he
    have : 0 < e.refcount := by
      rw [hinv.refcount h e he]
      exact countP_pos_iff.mpr ⟨y, hy, decide_eq_true hyhash⟩
    omega
  exact DedupTable.removeConsumers_outcomes he hpos (hsizes.trans hpos)

/-! ### One inode with a few extents -/

/-- Inode 1 with eligible extents of ten bytes one after the other, at the locators given. -/
def oneInode (locators : List LocatorId) : ExtentStore :=
  ⟨[1], fun ino => if ino = 1 then
    locators.mapIdx fun i l => makeDataExtent (10 * i) 10 l true (Vector.replicate 32 0) else [], []⟩

/-- Locators 1 and 2 have the same content. -/
def twice : PayloadReader := ⟨(OrdMap.empty.insert 1 [7]).insert 2 [7]⟩

theorem twice_readPayload {l : LocatorId} {p : List UInt8} (h : twice.readPayload l = some p) : p = [7] := by
  have h : ((empty.insert 1 [7]).insert 2 [7] : OrdMap LocatorId (List UInt8)).get? l = some p := h
  rw [get?_insert, get?_insert] at h
  split_ifs at h
  · exact (some.inj h).symm
  · exact (some.inj h).symm
  · cases h

theorem oneInode_unshared : Unshared (oneInode [1, 2]) := by
  have hextents : ∀ ino, (oneInode [1, 2]).extents ino = if ino = 1 then
      [makeDataExtent 0 10 1 true (Vector.replicate 32 0), makeDataExtent 10 10 2 true (Vector.replicate 32 0)]
      else [] := fun _ => rfl
  refine ⟨nodup_singleton 1, fun ino => ?_, ?_⟩
  · rw [hextents ino]
    split_ifs
    · decide
    · exact nodup_nil
  · rintro ⟨i, e⟩ ⟨j, e'⟩ he he' - hlocator
    rw [hextents] at he he'
    split_ifs at he with hi
    · split_ifs at he' with hj
      · simp only [mem_cons, not_mem_nil, or_false] at he he'
        rcases he with rfl | rfl <;> rcases he' with rfl | rfl
        · exact Prod.ext (hi.trans hj.symm) rfl
        · exact absurd hlocator (show (1 : LocatorId) ≠ 2 by decide)
        · exact absurd hlocator (show (2 : LocatorId) ≠ 1 by decide)
        · exact Prod.ext (hi.trans hj.symm) rfl
      · cases he'
    · cases he

/-- Two extents with the same content at two locators. -/
theorem scan_is_sound_two : ((startScan (oneInode [1, 2]) twice true).run List.length [1, 0]).completed = true ∧
      ∀ x : Extent, x.2 ∈ (oneInode [1, 2]).extents x.1 → twice.readPayload
          (current ((startScan (oneInode [1, 2]) twice true).run List.length [1, 0]).extentStore.updatedLocators x) =
        twice.readPayload x.2.locatorId := by
  refine ⟨by decide +kernel, (scan_is_sound List.length twice (oneInode [1, 2]) true [1, 0] ?_ rfl oneInode_unshared ?_).1⟩
  · intro l l' p p' hp hp' _
    exact (twice_readPayload hp).trans (twice_readPayload hp').symm
  · decide

theorem run_completes_three : ((oneInode [1, 2]).visits [1]).length < ([1, 1, 1].map itemLimit).sum ∧
    ((startScan (oneInode [1, 2]) twice true).run List.length [1, 1, 1]).completed = true :=
  ⟨by decide, run_completes _ _ _ (by decide +kernel)⟩

theorem same_locator_iff_two :
    current ((startScan (oneInode [1, 2]) twice true).run List.length [0]).extentStore.updatedLocators
        (1, makeDataExtent 0 10 1 true (.replicate 32 0)) =
      current ((startScan (oneInode [1, 2]) twice true).run List.length [0]).extentStore.updatedLocators
        (1, makeDataExtent 10 10 2 true (.replicate 32 0)) :=
  (same_locator_iff rfl (by decide +kernel) rfl oneInode_unshared (by decide) (by decide) (by decide) rfl rfl).mpr rfl

/-- **Shared locators.** Of three extents at the locators 1, 2 and 2, two are visited: locator 2 is freed, and the third
extent refers to it. Of two extents at locator 1, the scan counts one, and reports the locator dead while the other
refers to it. -/
theorem shared_locators :
    (((startScan (oneInode [1, 2, 2]) twice true).run List.length [2]).extentFreer.map ExtentFreer.freed = some [2] ∧
      current ((startScan (oneInode [1, 2, 2]) twice true).run List.length [2]).extentStore.updatedLocators
        (1, makeDataExtent 20 10 2 true (Vector.replicate 32 0)) = 2) ∧
    ((startScan (oneInode [1, 1]) twice true).run List.length [0]).completed = true ∧
      (((startScan (oneInode [1, 1]) twice true).run List.length [0]).ddt.lookup 1).map DedupEntry.refcount = some 1 ∧
      ((startScan (oneInode [1, 1]) twice true).run List.length [0]).ddt.removeConsumers 1 [10, 10] =
        [.canonicalDead 1, .stillAlive] := by
  decide +kernel

end Tidefs.Dedup
