/-
# The page index of a directory

Entries go to the end of the last page, or of a new page when they do not fit. An entry
is removed by writing a zero over its inode. Beside the pages the index keeps the live
entries sorted by name, and the numbers of the pages that were touched since they were
last written.

`Inv` says how these belong together: pages are numbered by their place and can be
written, and the sorted entries are the live ones. An operation touches one page
(`Touches`), so all others are in the store as they were (`Stored`).
-/
import Tidefs.DirIndex.Format
import Tidefs.Lib.Assoc
import Tidefs.Lib.LastWrite
import Tidefs.Lib.Word

namespace Tidefs.DirIndex

open Codec Ordered Word Option DirPage Nat
open List hiding contains insert length lookup lookup_cons_self lt_of_le_of_lt min

/-- The names of a directory's objects. The store's keys are hashes of them, taken to be
different for different names. -/
inductive ObjectKey where
  | dirPage (dirIno pageNumber : ℕ)
  | dirVersion (dirIno : ℕ)
  | dirBatchCommit (dirIno : ℕ)
deriving DecidableEq

abbrev Store := List (ObjectKey × Bytes)

/-- The errors of a paged directory. -/
inductive DirPageIndexError where
  | entryAlreadyExists
  | entryNotFound
  | storeError
  | corruptPage
deriving DecidableEq

/-- Inode, type, generation and offset of a name. -/
abbrev Attr := ℕ × ℕ × ℕ × ℕ

def Attr.offset (a : Attr) : ℕ := a.2.2.2

/-- What a lookup tells of them. -/
def Attr.target (a : Attr) : ℕ × ℕ × ℕ := (a.1, a.2.1, a.2.2.1)

/-- A directory in pages, with an index of its names. -/
structure DirPageIndex where
  dirIno : ℕ
  nextOffset : ℕ
  pages : List DirPage
  dirty : Bool
  dirtyPages : List ℕ
  entries : List (Name × Attr)

def entryTuple (e : DirEntry) : Name × Attr := (e.name, e.inodeId, e.entryType, e.generation, e.offset)

/-- The entry at the end of the last page, or on a page of its own; with the page's number. -/
def appendEntry (pages : List DirPage) (entry : DirEntry) : List DirPage × ℕ :=
  let newPage := (pages ++ [{ DirPage.new (asU32 pages.length) with entries := [entry], entryCount := 1 }],
    asU32 pages.length)
  match pages.getLast? with
  | none => newPage
  | some last =>
    if last.canFit entry.encodedLen then
      (pages.dropLast ++ [{ last with
        entries := last.entries ++ [entry], entryCount := (last.entryCount + 1) % 2 ^ 16 }], last.pageNumber)
    else newPage

/-- A tombstone in place of the first entry of that name and inode. -/
def tombstoneEntry (name : Name) (inodeId : ℕ) : List DirEntry → Option (List DirEntry)
  | [] => none
  | e :: entries =>
    if e.name = name ∧ e.inodeId = inodeId then some ({ e with inodeId := 0 } :: entries)
    else (tombstoneEntry name inodeId entries).map (e :: ·)

/-- The same on the first page that has one; with the page's number. -/
def tombstone (name : Name) (inodeId : ℕ) : List DirPage → Option (List DirPage × ℕ)
  | [] => none
  | p :: pages =>
    match tombstoneEntry name inodeId p.entries with
    | some entries => some ({ p with entries }.setHasTombstones :: pages, p.pageNumber)
    | none => (tombstone name inodeId pages).map fun r => (p :: r.1, r.2)

namespace DirPageIndex

def new (dirIno : ℕ) : DirPageIndex := ⟨dirIno, 0, [DirPage.new 0], true, [0], []⟩

variable (x : DirPageIndex)

def search (name : Name) : Except ℕ ℕ := searchKey x.entries name

def lookup (name : Name) : Option (ℕ × ℕ × ℕ) :=
  match x.search name with
  | .ok idx => x.entries[idx]?.map fun e => e.2.target
  | .error _ => none

def contains (name : Name) : Bool := (x.lookup name).isSome

def list : List (Name × Attr) := x.entries

def len : ℕ := x.entries.length

/-- Where a scan starts: behind the name. -/
def startIdx (startName : Name) : ℕ :=
  if startName = [] then 0
  else
    match x.search startName with
    | .ok idx => idx + 1
    | .error idx => idx

def rangeScan (startName : Name) (maxEntries : ℕ) : List (Name × Attr) :=
  let startIdx := x.startIdx startName
  if x.entries.length ≤ startIdx then []
  else (x.entries.take (min (satAdd startIdx maxEntries) x.entries.length)).drop startIdx

def markPageDirty (pageNum : ℕ) : DirPageIndex :=
  if pageNum ∈ x.dirtyPages then x else { x with dirtyPages := x.dirtyPages ++ [pageNum] }

def newEntry (name : Name) (inodeId entryType generation : ℕ) : DirEntry :=
  ⟨name.length % 2 ^ 8, inodeId, entryType, generation, x.nextOffset, name⟩

def insert (name : Name) (inodeId entryType generation : ℕ) : Except DirPageIndexError (DirPageIndex × ℕ) :=
  if x.contains name then .error .entryAlreadyExists
  else
    let (pages, pageNum) := appendEntry x.pages (x.newEntry name inodeId entryType generation)
    match x.search name with
    | .ok _ => .error .entryAlreadyExists
    | .error pos =>
      let entries := x.entries.insertIdx pos (name, inodeId, entryType, generation, x.nextOffset)
      .ok (({ x with nextOffset := wrap64 (x.nextOffset + 1), pages, entries, dirty := true }).markPageDirty pageNum,
        x.nextOffset)

def remove (name : Name) : DirPageIndex × Bool :=
  match x.search name with
  | .error _ => (x, false)
  | .ok idx =>
    match x.entries[idx]?.bind fun e => tombstone name e.2.1 x.pages with
    | none => (x, false)
    | some (pages, pageNum) =>
      (({ x with pages, entries := x.entries.eraseIdx idx, dirty := true }).markPageDirty pageNum, true)

end DirPageIndex

/-! ### Live entries -/

def liveEntries (entries : List DirEntry) : List (Name × Attr) := (entries.filter (·.inodeId ≠ 0)).map entryTuple

def live (pages : List DirPage) : List (Name × Attr) := pages.flatMap fun p => liveEntries p.entries

/-- How the parts of an index belong together. -/
structure DirPageIndex.Inv (x : DirPageIndex) : Prop where
  valid : ∀ p ∈ x.pages, p.Valid
  numbered : x.pages.map (·.pageNumber) = List.range x.pages.length
  nonempty : x.pages ≠ []
  ascending : Ascending x.entries
  live : x.entries.Perm (live x.pages)
  dirty : ∀ n ∈ x.dirtyPages, n < x.pages.length
  offsets : ∀ e ∈ x.entries, e.2.offset < x.nextOffset

/-- What an operation that changes one page leaves alone. -/
structure Touches (x y : DirPageIndex) (n : ℕ) : Prop where
  dirIno : y.dirIno = x.dirIno
  dirty : ∀ i, i ∈ y.dirtyPages ↔ i ∈ x.dirtyPages ∨ i = n
  pages : ∀ i, i ≠ n → y.pages[i]? = x.pages[i]?

/-- Pages that were not touched are in the store as they are. -/
def Stored (x : DirPageIndex) (s : Store) : Prop :=
  ∀ i, i ∉ x.dirtyPages → LastWrite.get s (.dirPage x.dirIno i) = x.pages[i]?.bind DirPage.encode

variable {x y : DirPageIndex} {s : Store} {name : Name} {inodeId entryType generation n : ℕ}

theorem Touches.stored (h : Touches x y n) (hs : Stored x s) : Stored y s := by
  intro i hi
  obtain ⟨h1, h2⟩ := not_or.mp (mt (h.dirty i).mpr hi)
  rw [h.dirIno, h.pages i h2]
  exact hs i h1

theorem mem_markPageDirty (x : DirPageIndex) (n i : ℕ) :
    i ∈ (x.markPageDirty n).dirtyPages ↔ i ∈ x.dirtyPages ∨ i = n := by
  unfold DirPageIndex.markPageDirty
  split_ifs with h
  · exact ⟨.inl, fun hi => hi.elim id fun hi => hi ▸ h⟩
  · rw [mem_append, mem_singleton]

@[simp] theorem markPageDirty_fields (x : DirPageIndex) (n : ℕ) : (x.markPageDirty n).pages = x.pages ∧
    (x.markPageDirty n).entries = x.entries ∧ (x.markPageDirty n).nextOffset = x.nextOffset ∧
    (x.markPageDirty n).dirIno = x.dirIno := by
  unfold DirPageIndex.markPageDirty
  split_ifs <;> exact ⟨rfl, rfl, rfl, rfl⟩

theorem live_append (a b : List DirPage) : live (a ++ b) = live a ++ live b := flatMap_append

theorem live_singleton (p : DirPage) : live [p] = liveEntries p.entries := append_nil _

theorem liveEntries_append (a b : List DirEntry) : liveEntries (a ++ b) = liveEntries a ++ liveEntries b := by
  rw [liveEntries, filter_append, map_append]
  rfl

theorem liveEntries_cons (e : DirEntry) (entries : List DirEntry) :
    liveEntries (e :: entries) = if e.inodeId = 0 then liveEntries entries else entryTuple e :: liveEntries entries := by
  by_cases h : e.inodeId = 0 <;> simp [liveEntries, h]

/-! ### Lookups -/

theorem DirPageIndex.lookup_eq (h : Ascending x.entries) (name : Name) :
    x.lookup name = (Ordered.lookup name x.entries).map Attr.target := by
  unfold lookup search searchKey
  rcases searchKey_cases h name with ⟨A, v, C, hl, hfind, hA, hC⟩ | ⟨A, C, hl, hfind, hA, hC⟩
  · rw [hfind, hl]
    dsimp only
    rw [getElem?_append_right le_rfl, Nat.sub_self, lookup_append_below hA, lookup_cons_self]
    rfl
  · rw [hfind, hl, lookup_append_below hA, lookup_eq_none_of_above hC]
    rfl

theorem DirPageIndex.contains_iff (h : Ascending x.entries) (name : Name) :
    x.contains name = true ↔ ∃ a, Ordered.lookup name x.entries = some a := by
  rw [contains, lookup_eq h, isSome_map, isSome_iff_exists]

/-! ### Appending -/

variable {pages : List DirPage} {p : DirPage}

/-- A page index that says so has a page of that number at that place. -/
theorem numbered_getElem (h : pages.map (·.pageNumber) = List.range pages.length) {i : ℕ}
    (hp : pages[i]? = some p) : p.pageNumber = i := by
  have hi : i < pages.length := (List.getElem?_eq_some_iff.mp hp).1
  have hmap : (pages.map (·.pageNumber))[i]? = some p.pageNumber := by
    rw [List.getElem?_map, hp]
    rfl
  rw [h, getElem?_range hi] at hmap
  exact (some.inj hmap).symm

structure Appended (pages pages' : List DirPage) (entry : DirEntry) (n : ℕ) : Prop where
  valid : ∀ p ∈ pages', p.Valid
  numbered : pages'.map (·.pageNumber) = List.range pages'.length
  live : live pages' = live pages ++ liveEntries [entry]
  place : n < pages'.length
  others : ∀ i, i ≠ n → pages'[i]? = pages[i]?
  length : pages.length ≤ pages'.length ∧ pages'.length ≤ pages.length + 1

theorem entriesLen_append (a b : List DirEntry) : entriesLen (a ++ b) = entriesLen a + entriesLen b := by
  rw [entriesLen, map_append, List.sum_append_nat]
  rfl

theorem appendEntry_spec {entry : DirEntry} (hvalid : ∀ p ∈ pages, p.Valid)
    (hnum : pages.map (·.pageNumber) = range pages.length) (hentry : entry.Valid) (hfew : pages.length < 2 ^ 32) :
    Appended pages (appendEntry pages entry).1 entry (appendEntry pages entry).2 := by
  have hu32 : asU32 pages.length = pages.length := mod_eq_of_lt hfew
  -- a new page
  have hnew : Appended pages (pages ++ [{ new (asU32 pages.length) with entries := [entry], entryCount := 1 }])
      entry (asU32 pages.length) := by
    rw [hu32]
    refine ⟨fun p hp => ?_, ?_, ?_, ?_, fun i hi => ?_, ?_⟩
    · rcases mem_append.mp hp with hp | hp
      · exact hvalid p hp
      · rw [mem_singleton.mp hp]
        refine ⟨fun e he => by rw [mem_singleton.mp he]; exact hentry, rfl, ?_, hfew, Nat.two_pow_pos 16⟩
        have hshort := hentry.short
        show entriesLen [entry] ≤ _
        simp only [entriesLen, map_singleton, sum_singleton, DirEntry.encodedLen, hentry.nameLen]
        unfold dirEntryHeaderLen dirPageEntriesArea dirPageSize dirPageHeaderLen dirEntryMaxName at *
        omega
    · rw [map_append, hnum, length_append, length_singleton, range_succ]
      rfl
    · rw [live_append, live_singleton]
    · rw [length_append, length_singleton]
      omega
    · rcases lt_or_ge i pages.length with hlt | hge
      · exact getElem?_append_left hlt
      · rw [getElem?_eq_none (by rw [length_append, length_singleton]; omega), getElem?_eq_none hge]
    · rw [length_append, length_singleton]
      omega
  unfold appendEntry
  cases hlast : pages.getLast? with
  | none => exact hnew
  | some last =>
    dsimp only
    split_ifs with hfit
    · obtain ⟨front, rfl⟩ := getLast?_eq_some_iff.mp hlast
      have hv := hvalid last (mem_append_right _ (mem_singleton_self last))
      have hnumber : last.pageNumber = front.length := numbered_getElem hnum (i := front.length) (by simp)
      have hused : entriesLen last.entries ≤ dirPageEntriesArea := hv.fits
      have hroom : entry.encodedLen ≤ dirPageEntriesArea - entriesLen last.entries := of_decide_eq_true hfit
      have hcount := length_le_entriesLen last.entries
      rw [dropLast_concat, hnumber]
      refine ⟨fun p hp => ?_, ?_, ?_, ?_, fun i hi => ?_, ?_⟩
      · rcases mem_append.mp hp with hp | hp
        · exact hvalid p (mem_append_left _ hp)
        · rw [mem_singleton.mp hp]
          refine ⟨forall_mem_append.mpr ⟨hv.entries, forall_mem_singleton.mpr hentry⟩, ?_, ?_,
            hnumber ▸ hv.pageNumber, hv.flags⟩
          · show (last.entryCount + 1) % 2 ^ 16 = (last.entries ++ [entry]).length
            rw [length_append, length_singleton, hv.entryCount]
            refine mod_eq_of_lt ?_
            unfold dirPageEntriesArea dirPageSize dirPageHeaderLen at hused
            omega
          · show entriesLen (last.entries ++ [entry]) ≤ _
            rw [entriesLen_append, show entriesLen [entry] = entry.encodedLen from add_zero _]
            omega
      · rw [← hnumber]
        simpa using hnum
      · rw [live_append, live_append, live_singleton, live_singleton, liveEntries_append, append_assoc]
      · rw [length_append, length_singleton]
        omega
      · rw [← set_length_append _ last front [], getElem?_set_ne hi.symm]
      · simp
    · exact hnew

/-! ### Inserting -/

structure Insertable (name : Name) (inodeId entryType generation : ℕ) : Prop where
  named : 1 ≤ name.length
  short : name.length ≤ dirEntryMaxName
  inode : inodeId ≠ 0 ∧ inodeId < 2 ^ 64
  entryType : entryType < 2 ^ 8
  generation : generation < 2 ^ 64

/-- Room for one more page and one more offset. -/
structure DirPageIndex.Room (x : DirPageIndex) : Prop where
  pages : x.pages.length < 2 ^ 32
  offsets : x.nextOffset + 1 < 2 ^ 64

/-- **An insertion** of a new name takes the next offset, sorts the entry in and touches
one page. -/
theorem insert_spec (hx : x.Inv) (hroom : x.Room) (hname : Insertable name inodeId entryType generation)
    (hnew : lookup name x.entries = none) : ∃ y pageNum,
      x.insert name inodeId entryType generation = .ok (y, x.nextOffset) ∧ y.Inv ∧ Touches x y pageNum ∧
      y.entries = OrdMap.insertList name (inodeId, entryType, generation, x.nextOffset) x.entries ∧
      y.nextOffset = x.nextOffset + 1 ∧ y.pages.length ≤ x.pages.length + 1 := by
  have hcontains : ¬ x.contains name = true := by
    rw [DirPageIndex.contains_iff hx.ascending, hnew]
    exact fun ⟨a, ha⟩ => nomatch ha
  have hlen : name.length % 2 ^ 8 = name.length :=
    mod_eq_of_lt (lt_of_le_of_lt hname.short (by decide))
  have hoffset := hroom.offsets
  let entry := x.newEntry name inodeId entryType generation
  have hentry : entry.Valid :=
    ⟨hlen, hname.named, hname.short, hname.inode.2, hname.entryType, hname.generation, show x.nextOffset < _ by omega⟩
  have happ := appendEntry_spec hx.valid hx.numbered hentry hroom.pages
  have hwrap : wrap64 (x.nextOffset + 1) = x.nextOffset + 1 := mod_eq_of_lt hroom.offsets
  unfold DirPageIndex.insert DirPageIndex.search searchKey
  generalize appendEntry x.pages entry = r at happ
  obtain ⟨pages, pageNum⟩ := r
  rcases searchKey_cases hx.ascending name with ⟨A, v, C, hl, hfind, hA, hC⟩ | ⟨A, C, hl, hfind, hA, hC⟩
  · rw [hl, lookup_append_below hA, lookup_cons_self] at hnew
    exact nomatch hnew
  · have hinsert : x.entries.insertIdx A.length (name, inodeId, entryType, generation, x.nextOffset) =
        OrdMap.insertList name (inodeId, entryType, generation, x.nextOffset) x.entries := by
      rw [hl, insertIdx_length_append, insertList_cut _ hA hC]
    rw [if_neg hcontains, hfind]
    dsimp only
    rw [hwrap, hinsert]
    refine ⟨_, pageNum, rfl, ⟨?_, ?_, ?_, ?_, ?_, ?_, ?_⟩, ⟨?_, ?_, ?_⟩, ?_, ?_, ?_⟩
    all_goals try simp only [markPageDirty_fields]
    · exact happ.valid
    · exact happ.numbered
    · rintro rfl
      exact absurd happ.place (not_lt_zero _)
    · exact OrdMap.insertList_sorted _ _ _ hx.ascending
    · rw [happ.live, ← hinsert, hl, insertIdx_length_append, liveEntries_cons,
        show entry.inodeId = inodeId from rfl, if_neg hname.inode.1]
      exact perm_middle.trans ((List.Perm.cons _ (hl ▸ hx.live)).trans (perm_append_singleton _ _).symm)
    · intro i hi
      rcases (mem_markPageDirty _ _ i).mp hi with hi | rfl
      · exact lt_of_lt_of_le (hx.dirty i hi) happ.length.1
      · exact happ.place
    · intro e he
      rcases OrdMap.mem_insertList _ _ he with rfl | he
      · exact lt_succ_self _
      · exact lt_succ_of_lt (hx.offsets e he)
    · exact mem_markPageDirty _ _
    · exact happ.others
    · exact happ.length.2

theorem insert_exists (hx : x.Inv) {a : Attr} (h : Ordered.lookup name x.entries = some a) :
    x.insert name inodeId entryType generation = .error .entryAlreadyExists := by
  unfold DirPageIndex.insert
  rw [if_pos ((DirPageIndex.contains_iff hx.ascending name).mpr ⟨a, h⟩)]

/-! ### Removing -/

theorem tombstoneEntry_spec : ∀ {entries : List DirEntry},
    (tombstoneEntry name inodeId entries = none ∧ ∀ e ∈ entries, ¬ (e.name = name ∧ e.inodeId = inodeId)) ∨
    ∃ A e C, entries = A ++ e :: C ∧ (e.name = name ∧ e.inodeId = inodeId) ∧
      tombstoneEntry name inodeId entries = some (A ++ { e with inodeId := 0 } :: C)
  | [] => .inl ⟨rfl, fun _ he => absurd he not_mem_nil⟩
  | e :: entries => by
    unfold tombstoneEntry
    split_ifs with he
    · exact .inr ⟨[], e, entries, rfl, he, rfl⟩
    · rcases @tombstoneEntry_spec entries with ⟨h1, h2⟩ | ⟨A, e', C, h1, h2, h3⟩
      · rw [h1]
        exact .inl ⟨rfl, forall_mem_cons.mpr ⟨he, h2⟩⟩
      · rw [h3, h1]
        exact .inr ⟨e :: A, e', C, rfl, h2, rfl⟩

/-- The page with the tombstone. -/
def buried (p : DirPage) (A : List DirEntry) (e : DirEntry) (C : List DirEntry) : DirPage :=
  { p with entries := A ++ { e with inodeId := 0 } :: C }.setHasTombstones

theorem tombstone_spec : ∀ {pages : List DirPage},
    (tombstone name inodeId pages = none ∧ ∀ p ∈ pages, ∀ e ∈ p.entries, ¬ (e.name = name ∧ e.inodeId = inodeId)) ∨
    ∃ P p Q A e C, pages = P ++ p :: Q ∧ p.entries = A ++ e :: C ∧ (e.name = name ∧ e.inodeId = inodeId) ∧
      tombstone name inodeId pages = some (P ++ buried p A e C :: Q, p.pageNumber)
  | [] => .inl ⟨rfl, fun _ hp => absurd hp not_mem_nil⟩
  | p :: pages => by
    unfold tombstone
    rcases @tombstoneEntry_spec name inodeId p.entries with ⟨h1, h2⟩ | ⟨A, e, C, h1, h2, h3⟩
    · rw [h1]
      rcases @tombstone_spec pages with ⟨g1, g2⟩ | ⟨P, q, Q, A, e, C, g1, g2, g3, g4⟩
      · rw [g1]
        exact .inl ⟨rfl, forall_mem_cons.mpr ⟨h2, g2⟩⟩
      · rw [g4, g1]
        exact .inr ⟨p :: P, q, Q, A, e, C, rfl, g2, g3, rfl⟩
    · rw [h3]
      exact .inr ⟨[], p, pages, A, e, C, rfl, h1, h2, rfl⟩

theorem buried_valid {A C : List DirEntry} {e : DirEntry} (h : p.Valid) (hp : p.entries = A ++ e :: C) :
    (buried p A e C).Valid := by
  have hmem := h.entries
  rw [hp] at hmem
  refine ⟨fun e' he' => ?_, ?_, ?_, h.pageNumber, ?_⟩
  · rcases mem_append.mp he' with he' | he'
    · exact hmem e' (mem_append_left _ he')
    · rcases mem_cons.mp he' with rfl | he'
      · obtain ⟨h0, h1, h2, h3, h4, h5, h6⟩ := hmem e (mem_append_right _ (mem_cons_self ..))
        exact ⟨h0, h1, h2, Nat.two_pow_pos 64, h4, h5, h6⟩
      · exact hmem e' (mem_append_right _ (mem_cons_of_mem _ he'))
  · have hcount := h.entryCount
    rw [hp] at hcount
    simpa [buried, setHasTombstones] using hcount
  · have hfits := h.fits
    rw [bytesUsed, hp] at hfits
    simpa [buried, setHasTombstones, bytesUsed, DirEntry.encodedLen] using hfits
  · exact or_lt_two_pow h.flags (by decide)

theorem live_buried {P Q : List DirPage} {A C : List DirEntry} {e : DirEntry}
    (hp : p.entries = A ++ e :: C) (he : e.inodeId ≠ 0) :
    (live (P ++ p :: Q)).Perm (entryTuple e :: live (P ++ buried p A e C :: Q)) := by
  have hold : liveEntries p.entries = liveEntries A ++ entryTuple e :: liveEntries C := by
    rw [hp, liveEntries_append, liveEntries_cons, if_neg he]
  have hnew : liveEntries (buried p A e C).entries = liveEntries A ++ liveEntries C := by
    show liveEntries (A ++ _ :: C) = _
    rw [liveEntries_append, liveEntries_cons, if_pos rfl]
  have hsplit : ∀ q : DirPage, live (P ++ q :: Q) = live P ++ (liveEntries q.entries ++ live Q) := fun q => by
    rw [live_append]
    rfl
  rw [hsplit, hsplit, hold, hnew]
  have hperm : ((live P ++ liveEntries A) ++ entryTuple e :: (liveEntries C ++ live Q)).Perm
      (entryTuple e :: ((live P ++ liveEntries A) ++ (liveEntries C ++ live Q))) := perm_middle
  simpa only [append_assoc, cons_append] using hperm

theorem eq_of_mem_ascending {l : List (Name × Attr)} (h : Ascending l) {a b : Name × Attr} (ha : a ∈ l) (hb : b ∈ l)
    (hab : a.1 = b.1) : a = b :=
  inj_on_of_nodup_map (OrdMap.keys_nodup ⟨l, h⟩) ha hb hab

/-- **A removal** of a name that is there takes it out of the entries and touches one page. -/
theorem remove_spec (hx : x.Inv) {a : Attr} (hname : lookup name x.entries = some a) : ∃ y pageNum,
    x.remove name = (y, true) ∧ y.Inv ∧ Touches x y pageNum ∧ y.entries = eraseList name x.entries ∧
    y.nextOffset = x.nextOffset ∧ y.pages.length = x.pages.length := by
  unfold DirPageIndex.remove DirPageIndex.search searchKey
  rcases searchKey_cases hx.ascending name with ⟨A', v, C', hl, hfind, hA, hC⟩ | ⟨A', C', hl, hfind, hA, hC⟩
  · have hget : x.entries[A'.length]? = some (name, v) := by
      rw [hl, getElem?_append_right le_rfl, Nat.sub_self]
      rfl
    have hmem : (name, v) ∈ live x.pages := hx.live.mem_iff.mp (mem_of_getElem? hget)
    obtain ⟨p, hp, hmem⟩ := mem_flatMap.mp hmem
    obtain ⟨e, he, heq⟩ := mem_map.mp hmem
    obtain ⟨hepage, helive⟩ := mem_filter.mp he
    have hinode : v.1 ≠ 0 := by
      rw [← show e.inodeId = v.1 from congrArg (fun t => t.2.1) heq]
      exact of_decide_eq_true helive
    rw [hfind]
    dsimp only
    rw [hget]
    dsimp only [bind_some]
    rcases @tombstone_spec name v.1 x.pages with
      ⟨_, hnot⟩ | ⟨P, q, Q, A, e', C, g1, g2, ⟨g3, g4⟩, g5⟩
    · exact absurd ⟨congrArg (fun t => t.1) heq, congrArg (fun t => t.2.1) heq⟩ (hnot p hp e hepage)
    · rw [g5]
      have hlive := live_buried (P := P) (Q := Q) g2 (by rw [g4]; exact hinode)
      have hsame : entryTuple e' = (name, v) := by
        refine eq_of_mem_ascending hx.ascending ?_ (mem_of_getElem? hget) g3
        rw [hx.live.mem_iff, g1, hlive.mem_iff]
        exact mem_cons_self ..
      have hplace : q.pageNumber = P.length := numbered_getElem hx.numbered (by rw [g1]; simp)
      have herase : x.entries.eraseIdx A'.length = eraseList name x.entries := by
        rw [hl, eraseIdx_length_append, eraseList_hit v hA hC]
      have hlen : (P ++ buried q A e' C :: Q).length = x.pages.length := by
        rw [g1, length_append, length_append]
        rfl
      refine ⟨_, q.pageNumber, rfl, ⟨?_, ?_, ?_, ?_, ?_, ?_, ?_⟩, ⟨?_, ?_, ?_⟩, ?_, ?_, ?_⟩
      all_goals try simp only [markPageDirty_fields]
      · obtain ⟨hP, hQ⟩ := forall_mem_append.mp (g1 ▸ hx.valid)
        obtain ⟨hq, hQ⟩ := forall_mem_cons.mp hQ
        exact forall_mem_append.mpr ⟨hP, forall_mem_cons.mpr ⟨buried_valid hq g2, hQ⟩⟩
      · rw [hlen, ← hx.numbered, g1, map_append, map_append]
        rfl
      · exact append_ne_nil_of_right_ne_nil _ (cons_ne_nil _ _)
      · rw [herase]
        exact hx.ascending.filter _
      · rw [hl, eraseIdx_length_append]
        have hperm := hx.live
        rw [hl, g1] at hperm
        have hcons := (perm_middle.symm.trans hperm).trans hlive
        rw [hsame] at hcons
        exact hcons.cons_inv
      · intro i hi
        rw [hlen]
        rcases (mem_markPageDirty _ _ i).mp hi with hi | rfl
        · exact hx.dirty i hi
        · rw [hplace, g1, length_append, length_cons]
          omega
      · intro e'' he''
        exact hx.offsets e'' (mem_of_mem_eraseIdx he'')
      · exact mem_markPageDirty _ _
      · intro i hi
        rw [hplace] at hi
        rw [g1, ← set_length_append (buried q A e' C) q P Q, getElem?_set_ne hi.symm]
      · exact herase
      · exact hlen
  · rw [hl, lookup_append_below hA, lookup_eq_none_of_above hC] at hname
    exact nomatch hname

theorem remove_absent (hx : x.Inv) (h : lookup name x.entries = none) : x.remove name = (x, false) := by
  unfold DirPageIndex.remove DirPageIndex.search searchKey
  rcases searchKey_cases hx.ascending name with ⟨A, v, C, hl, hfind, hA, hC⟩ | ⟨A, C, hl, hfind, hA, hC⟩
  · rw [hl, lookup_append_below hA, lookup_cons_self] at h
    exact nomatch h
  · rw [hfind]

end Tidefs.DirIndex
