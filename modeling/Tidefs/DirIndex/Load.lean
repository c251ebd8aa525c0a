/-
# Flushing and loading a directory

A flush puts every dirty page under its number. Pages are read back in sequence until a
number has no object; the index is rebuilt from them, or a query is answered straight from
the pages: a lookup from the first live entry of the name, a scan by keeping the least
names seen so far, a count up to a limit.

After a flush the pages in the store are those of the index (`storedPages_eq`), so a load
gives the index back and the queries on the store are those of the index.
-/
import Tidefs.DirIndex.Pages

namespace Tidefs.DirIndex

open Codec Ordered Word ObjectKey OrdMap LastWrite Prod Nat
open List hiding count le_antisymm le_total lookup_append lookup_cons_self lookup_eq_some_iff lt_irrefl min not_le

namespace DirPageIndex

/-- The puts of a flush, in their order. -/
def flushPuts (x : DirPageIndex) : Option (List (ObjectKey × Bytes)) :=
  (x.dirtyPages.filterMap fun n => x.pages[n]?.map fun p => (n, p)).mapM fun r =>
    r.2.encode.map fun buf => (ObjectKey.dirPage x.dirIno r.1, buf)

def flush (x : DirPageIndex) (s : Store) : Option (DirPageIndex × Store) :=
  x.flushPuts.map fun puts => ({ x with dirtyPages := [], dirty := false }, LastWrite.replay s puts)

end DirPageIndex

/-- The payloads of a directory's pages in sequence. The store has finitely many objects,
so the loop ends. -/
def readPayloads (s : Store) (dirIno : ℕ) : ℕ → ℕ → List Bytes
  | 0, _ => []
  | fuel + 1, pageNum =>
    match LastWrite.get s (.dirPage dirIno pageNum) with
    | none => []
    | some payload => payload :: readPayloads s dirIno fuel (pageNum + 1)

def payloads (s : Store) (dirIno : ℕ) : List Bytes := readPayloads s dirIno (s.length + 1) 0

def dirPageFromPayload (payload : Bytes) : Option DirPage :=
  if payload.length ≠ dirPageSize then none else DirPage.decode payload

def storedPages (s : Store) (dirIno : ℕ) : List DirPage := (payloads s dirIno).filterMap dirPageFromPayload

def offsetBehind (entries : List (Name × Attr)) : ℕ := ((entries.map fun e => wrap64 (e.2.offset + 1)).max?).getD 0

def load (s : Store) (dirIno : ℕ) : Option DirPageIndex :=
  if (payloads s dirIno).isEmpty then none
  else
    let pages := (storedPages s dirIno).mergeSort fun a b => a.pageNumber ≤ b.pageNumber
    let entries := (live pages).mergeSort fun a b => a.1 ≤ b.1
    some ⟨dirIno, offsetBehind entries, pages, false, [], entries⟩

def lookupInStore (s : Store) (dirIno : ℕ) (name : Name) : Option (ℕ × ℕ × ℕ) :=
  (storedPages s dirIno).findSome? fun page => page.entries.findSome? fun entry =>
    if entry.inodeId ≠ 0 ∧ entry.name = name then some (entryTuple entry).2.target else none

/-- The candidate among the least entries seen, and no more of them than asked for. -/
def insertLimitedSorted (entries : List (Name × Attr)) (candidate : Name × Attr) (maxEntries : ℕ) :
    List (Name × Attr) :=
  let pos := match searchKey entries candidate.1 with
    | .ok idx => idx
    | .error idx => idx
  if pos < maxEntries then
    let entries := entries.insertIdx pos candidate
    if maxEntries < entries.length then entries.dropLast else entries
  else entries

def rangeScanInStore (s : Store) (dirIno : ℕ) (startName : Name) (maxEntries : ℕ) : List (Name × Attr) :=
  if maxEntries = 0 then []
  else
    ((storedPages s dirIno).flatMap (·.entries)).foldl (fun entries entry =>
      if entry.inodeId = 0 then entries
      else if startName ≠ [] ∧ entry.name ≤ startName then entries
      else insertLimitedSorted entries (entryTuple entry) maxEntries) []

/-- The loop ends when the limit is reached. -/
def countLive (maxEntries : ℕ) : ℕ → List DirEntry → ℕ
  | count, [] => count
  | count, entry :: entries =>
    if entry.inodeId = 0 then countLive maxEntries count entries
    else if maxEntries ≤ satAdd count 1 then satAdd count 1
    else countLive maxEntries (satAdd count 1) entries

def liveEntryCountInStore (s : Store) (dirIno maxEntries : ℕ) : Option ℕ :=
  if (payloads s dirIno).isEmpty then none
  else some (countLive maxEntries 0 ((storedPages s dirIno).flatMap (·.entries)))

/-! ### Flushing -/

variable {x : DirPageIndex} {s : Store}

theorem exists_puts (hvalid : ∀ p ∈ x.pages, p.Valid) : ∀ {ns : List ℕ}, (∀ n ∈ ns, n < x.pages.length) →
    ∃ puts, ((ns.filterMap fun n => x.pages[n]?.map fun p => (n, p)).mapM fun r =>
        r.2.encode.map fun buf => (dirPage x.dirIno r.1, buf)) = some puts ∧
      puts.map fst = ns.map (dirPage x.dirIno) ∧
      ∀ e ∈ puts, ∀ n, e.1 = .dirPage x.dirIno n → x.pages[n]?.bind DirPage.encode = some e.2
  | [], _ => ⟨[], rfl, rfl, fun _ he => absurd he not_mem_nil⟩
  | n :: ns, h => by
    obtain ⟨hn, hns⟩ := forall_mem_cons.mp h
    obtain ⟨puts, h1, h2, h3⟩ := exists_puts hvalid hns
    obtain ⟨buf, hbuf, -⟩ := DirPage.decode_encode (hvalid _ (getElem_mem hn))
    have hget : x.pages[n]? = some x.pages[n] := getElem?_eq_getElem hn
    refine ⟨(dirPage x.dirIno n, buf) :: puts, ?_, ?_, ?_⟩
    · rw [filterMap_cons, hget]
      show mapM _ ((n, x.pages[n]) :: _) = _
      rw [mapM_cons, hbuf, h1]
      rfl
    · rw [map_cons, map_cons, h2]
    · intro e he m hm
      rcases mem_cons.mp he with rfl | he
      · obtain rfl : n = m := (dirPage.inj hm).2
        rw [hget]
        exact hbuf
      · exact h3 e he m hm

theorem exists_flushPuts (hx : x.Inv) : ∃ puts, x.flushPuts = some puts ∧
    puts.map fst = x.dirtyPages.map (dirPage x.dirIno) ∧
    ∀ e ∈ puts, ∀ n, e.1 = .dirPage x.dirIno n → x.pages[n]?.bind DirPage.encode = some e.2 :=
  exists_puts hx.valid hx.dirty

/-- **A flush** puts what was not stored. -/
theorem flush_stored (hx : x.Inv) (hs : Stored x s) : ∃ s',
    x.flush s = some ({ x with dirtyPages := [], dirty := false }, s') ∧
    Stored { x with dirtyPages := [], dirty := false } s' := by
  obtain ⟨puts, h1, h2, h3⟩ := exists_flushPuts hx
  refine ⟨replay s puts, by rw [DirPageIndex.flush, h1]; rfl, fun i _ => ?_⟩
  by_cases hi : i ∈ x.dirtyPages
  · have hkey : dirPage x.dirIno i ∈ puts.map fst := by
      rw [h2]
      exact mem_map_of_mem hi
    obtain ⟨e, he, hei⟩ := mem_map.mp hkey
    rw [h3 e he i hei]
    refine get_replay (fun e' he' hk => ?_) hkey
    exact Option.some.inj ((h3 e' he' i hk).symm.trans (h3 e he i hei))
  · have hkey : dirPage x.dirIno i ∉ puts.map fst := by
      rw [h2]
      intro hmem
      obtain ⟨j, hj, heq⟩ := mem_map.mp hmem
      exact hi ((dirPage.inj heq).2 ▸ hj)
    rw [get_replay_of_not_mem hkey]
    exact hs i hi

theorem DirPageIndex.Inv.flushed (hx : x.Inv) : DirPageIndex.Inv { x with dirtyPages := [], dirty := false } :=
  ⟨hx.valid, hx.numbered, hx.nonempty, hx.ascending, hx.live, fun _ h => absurd h not_mem_nil, hx.offsets⟩

/-! ### Reading pages -/

theorem readPayloads_eq {dirIno : ℕ} : ∀ {pages : List DirPage} {fuel n : ℕ}, (∀ p ∈ pages, p.Valid) →
    (∀ i ≤ pages.length, get s (.dirPage dirIno (n + i)) = pages[i]?.bind DirPage.encode) → pages.length < fuel →
    (readPayloads s dirIno fuel n).filterMap dirPageFromPayload = pages ∧
    ((readPayloads s dirIno fuel n).isEmpty = pages.isEmpty)
  | [], fuel + 1, n, _, hget, _ => by
    have h0 := hget 0 le_rfl
    rw [add_zero] at h0
    rw [readPayloads, h0]
    exact ⟨rfl, rfl⟩
  | p :: pages, fuel + 1, n, hvalid, hget, hfuel => by
    obtain ⟨hp, hps⟩ := forall_mem_cons.mp hvalid
    obtain ⟨buf, hbuf, hlen, hdec⟩ := DirPage.decode_encode hp
    have h0 : get s (.dirPage dirIno n) = some buf := by
      have h := hget 0 (Nat.zero_le _)
      rw [add_zero] at h
      rw [h]
      exact hbuf
    have hnext : ∀ i ≤ pages.length, get s (.dirPage dirIno (n + 1 + i)) = pages[i]?.bind DirPage.encode := fun i hi => by
      have h := hget (i + 1) (Nat.succ_le_succ hi)
      rw [show n + (i + 1) = n + 1 + i by omega] at h
      exact h
    have hpage : dirPageFromPayload buf = some p := by
      rw [dirPageFromPayload, if_neg fun h => h hlen, hdec]
    obtain ⟨ih, -⟩ := readPayloads_eq hps hnext (lt_of_succ_lt_succ hfuel)
    rw [readPayloads, h0]
    rw [filterMap_cons, hpage]
    exact ⟨congrArg (p :: ·) ih, rfl⟩

/-- A store has these pages in sequence, and none behind them. -/
structure HasPages (s : Store) (dirIno : ℕ) (pages : List DirPage) : Prop where
  valid : ∀ p ∈ pages, p.Valid
  numbered : pages.map (·.pageNumber) = List.range pages.length
  nonempty : pages ≠ []
  get : ∀ i ≤ pages.length, LastWrite.get s (.dirPage dirIno i) = pages[i]?.bind DirPage.encode

/-- **The stored pages** are those in sequence. -/
theorem HasPages.stored {dirIno : ℕ} {pages : List DirPage} (h : HasPages s dirIno pages) :
    storedPages s dirIno = pages ∧ (payloads s dirIno).isEmpty = false := by
  have hfuel : pages.length ≤ s.length := by
    have hkeys : ((range pages.length).map (dirPage dirIno)).Nodup := nodup_range.map fun a b h => (dirPage.inj h).2
    have hle := @LastWrite.length_le_of_get _ _ _ s _ hkeys fun k hk => by
      obtain ⟨i, hi, rfl⟩ := mem_map.mp hk
      have hlt := mem_range.mp hi
      obtain ⟨buf, hbuf, -⟩ := DirPage.decode_encode (h.valid _ (getElem_mem hlt))
      rw [h.get i hlt.le, getElem?_eq_getElem hlt]
      show (pages[i]).encode ≠ none
      rw [hbuf]
      exact Option.some_ne_none _
    rwa [length_map, length_range] at hle
  obtain ⟨h1, h2⟩ := @readPayloads_eq s dirIno pages (s.length + 1) 0 h.valid
    (fun i hi => by rw [zero_add]; exact h.get i hi) (lt_succ_of_le hfuel)
  refine ⟨h1, h2.trans ?_⟩
  cases hpages : pages with
  | nil => exact absurd hpages h.nonempty
  | cons p pages => rfl

/-- **A load** reads the pages and sorts their live entries. -/
theorem HasPages.load {dirIno : ℕ} {pages : List DirPage} (h : HasPages s dirIno pages) :
    load s dirIno = some ⟨dirIno, offsetBehind ((live pages).mergeSort fun a b => a.1 ≤ b.1), pages, false, [],
      (live pages).mergeSort fun a b => a.1 ≤ b.1⟩ := by
  obtain ⟨h1, h2⟩ := h.stored
  have hpages : (pages.mergeSort fun a b => a.pageNumber ≤ b.pageNumber) = pages := by
    refine mergeSort_of_pairwise ?_
    have hsorted : (pages.map (·.pageNumber)).Pairwise (· < ·) := by
      rw [h.numbered]
      exact pairwise_lt_range
    exact (pairwise_map.mp hsorted).imp fun h => decide_eq_true h.le
  unfold DirIndex.load
  rw [h2, if_neg Bool.false_ne_true, h1]
  dsimp only
  rw [hpages]

theorem Stored.hasPages (hx : x.Inv) (hs : Stored x s) (hclean : x.dirtyPages = []) : HasPages s x.dirIno x.pages :=
  ⟨hx.valid, hx.numbered, hx.nonempty, fun i _ => hs i (by rw [hclean]; exact not_mem_nil)⟩

/-- **The stored pages** are those of the index. -/
theorem storedPages_eq (hx : x.Inv) (hs : Stored x s) (hclean : x.dirtyPages = []) :
    storedPages s x.dirIno = x.pages ∧ (payloads s x.dirIno).isEmpty = false := (hs.hasPages hx hclean).stored

theorem sort_entries {l entries : List (Name × Attr)} (hasc : Ascending entries) (h : entries.Perm l) :
    (l.mergeSort fun a b => a.1 ≤ b.1) = entries := by
  have hperm : (l.mergeSort fun a b => a.1 ≤ b.1).Perm entries := (mergeSort_perm l _).trans h.symm
  have hsorted := @pairwise_mergeSort (Name × Attr) (fun a b => a.1 ≤ b.1)
    (fun a b c hab hbc => decide_eq_true ((of_decide_eq_true hab).trans (of_decide_eq_true hbc)))
    (fun a b => by simpa using le_total a.1 b.1) l
  refine hperm.eq_of_pairwise (fun p q hp hq hpq hqp => ?_) hsorted (hasc.imp fun hlt => decide_eq_true hlt.le)
  exact eq_of_mem_ascending hasc (hperm.mem_iff.mp hp) hq
    (le_antisymm (of_decide_eq_true hpq) (of_decide_eq_true hqp))

/-- Entries sort to those of an index exactly if they are its live entries. -/
theorem sort_eq_iff (hx : x.Inv) {l : List (Name × Attr)} :
    (l.mergeSort fun a b => a.1 ≤ b.1) = x.list ↔ l.Perm (live x.pages) :=
  ⟨fun h => (mergeSort_perm l _).symm.trans ((Perm.of_eq h).trans hx.live),
    fun h => sort_entries hx.ascending (hx.live.trans h.symm)⟩

/-- **A load** gives the index back, except for the next offset. -/
theorem load_eq (hx : x.Inv) (hs : Stored x s) (hclean : x.dirtyPages = []) :
    load s x.dirIno = some { x with nextOffset := offsetBehind x.entries, dirty := false } := by
  rw [(hs.hasPages hx hclean).load, sort_entries hx.ascending hx.live, ← hclean]

/-! ### Queries on the store -/

theorem findSome_entries (name : Name) : ∀ entries : List DirEntry,
    (entries.findSome? fun e => if e.inodeId ≠ 0 ∧ e.name = name then some (entryTuple e).2.target else none) =
      (Ordered.lookup name (liveEntries entries)).map Attr.target
  | [] => rfl
  | e :: entries => by
    have ih := findSome_entries name entries
    rw [findSome?_cons, liveEntries_cons, ih]
    by_cases h0 : e.inodeId = 0
    · rw [if_neg fun h => h.1 h0, if_pos h0]
    · rw [if_neg h0]
      by_cases hn : e.name = name
      · rw [if_pos ⟨h0, hn⟩, show entryTuple e = (name, (entryTuple e).2) from Prod.ext hn rfl, lookup_cons_self]
        rfl
      · rw [if_neg fun h => hn h.2, lookup_cons_ne _ (show (entryTuple e).1 ≠ name from hn)]

theorem findSome_pages (name : Name) : ∀ pages : List DirPage, (pages.findSome? fun p => p.entries.findSome? fun e =>
      if e.inodeId ≠ 0 ∧ e.name = name then some (entryTuple e).2.target else none) =
      (Ordered.lookup name (live pages)).map Attr.target
  | [] => rfl
  | p :: pages => by
    rw [List.findSome?_cons, findSome_entries, findSome_pages name pages,
      show live (p :: pages) = liveEntries p.entries ++ live pages from rfl, lookup_append]
    cases Ordered.lookup name (liveEntries p.entries) <;> rfl

theorem lookupInStore_eq (hx : x.Inv) (hs : Stored x s) (hclean : x.dirtyPages = []) (name : Name) :
    lookupInStore s x.dirIno name = x.lookup name := by
  rw [lookupInStore, (storedPages_eq hx hs hclean).1, findSome_pages, DirPageIndex.lookup_eq hx.ascending,
    lookup_perm (keys_nodup ⟨_, hx.ascending⟩) hx.live]

/-! ### Scans -/

/-- The entries a scan is about. -/
def After (start : Name) (e : Name × Attr) : Prop := start = [] ∨ start < e.1

instance (start : Name) : DecidablePred (After start) := fun e => inferInstanceAs (Decidable (start = [] ∨ start < e.1))

/-- What is behind the first entries does not matter to them. -/
theorem take_insertList_take (k : Name) (v : Attr) : ∀ (l : List (Name × Attr)) (n : ℕ),
    (insertList k v (l.take n)).take n = (insertList k v l).take n
  | [], _ => by rw [take_nil]
  | _, 0 => by rw [take_zero, take_zero]
  | e :: l, n + 1 => by
    rw [take_succ_cons, insertList, insertList]
    split_ifs
    · show (k, v) :: ((e :: l).take (n + 1)).take n = (k, v) :: (e :: l).take n
      rw [take_take, min_eq_left n.le_succ]
    · rw [take_succ_cons, take_succ_cons, take_take, min_self]
    · rw [take_succ_cons, take_succ_cons, take_insertList_take k v l n]

/-- The sorted list with one entry more, cut to length, is that of the cut list. -/
theorem insertLimitedSorted_take {l : List (Name × Attr)} (hl : Ascending l) {c : Name × Attr}
    (hc : ∀ e ∈ l, e.1 ≠ c.1) {n : ℕ} : insertLimitedSorted (l.take n) c n = (insertList c.1 c.2 l).take n := by
  have hle := length_take_le n l
  rw [← take_insertList_take]
  unfold insertLimitedSorted searchKey
  rcases searchKey_cases (List.Pairwise.sublist (take_sublist n l) hl) c.1 with
    ⟨A, v, C, hcut, hfind, hA, hC⟩ | ⟨A, C, hcut, hfind, hA, hC⟩
  · exact absurd rfl (hc (c.1, v) (mem_of_mem_take (by rw [hcut]; simp)))
  · rw [hcut, length_append] at hle
    rw [hfind]
    dsimp only
    rw [hcut, insertIdx_length_append, insertList_cut c.2 hA hC]
    have hlen : (A ++ c :: C).length = A.length + C.length + 1 := by simp [add_assoc]
    by_cases hpos : A.length < n
    · rw [if_pos hpos]
      split_ifs with hfull
      · rw [dropLast_eq_take, show (A ++ c :: C).length - 1 = n by omega]
      · rw [take_of_length_le (not_lt.mp hfull)]
    · have hnil : C = [] := eq_nil_of_length_eq_zero (by omega)
      rw [if_neg hpos, hnil, append_nil, take_append_of_le_length (by omega), take_of_length_le (by omega)]

def sortIn (l entries : List (Name × Attr)) : List (Name × Attr) :=
  entries.foldl (fun l c => OrdMap.insertList c.1 c.2 l) l

/-- **A scan that keeps the least** is a sort cut to length. -/
theorem foldl_insertLimited {n : ℕ} : ∀ {entries l : List (Name × Attr)}, Ascending l →
    ((l ++ entries).map fst).Nodup →
    entries.foldl (fun acc c => insertLimitedSorted acc c n) (l.take n) = (sortIn l entries).take n ∧
    Ascending (sortIn l entries) ∧ (sortIn l entries).Perm (l ++ entries)
  | [], l, hl, _ => ⟨rfl, hl, by rw [append_nil]; exact List.Perm.refl _⟩
  | c :: entries, l, hl, hnodup => by
    have hc : ∀ e ∈ l, e.1 ≠ c.1 := by
      rw [map_append, nodup_append] at hnodup
      exact fun e he => hnodup.2.2 e.1 (mem_map_of_mem he) c.1 (mem_cons_self ..)
    have hnone : Ordered.lookup c.1 l = none := by
      cases hlookup : Ordered.lookup c.1 l with
      | none => rfl
      | some v =>
        exact absurd rfl (hc (c.1, v) ((lookup_eq_some_iff (keys_nodup ⟨l, hl⟩)).mp hlookup))
    have hperm : (insertList c.1 c.2 l).Perm (c :: l) := perm_insertList hl hnone
    have hmiddle : (insertList c.1 c.2 l ++ entries).Perm (l ++ c :: entries) :=
      (hperm.append_right entries).trans perm_middle.symm
    obtain ⟨h1, h2, h3⟩ := foldl_insertLimited (insertList_sorted c.1 c.2 l hl)
      ((hmiddle.map fst).nodup_iff.mpr hnodup)
    refine ⟨?_, h2, h3.trans hmiddle⟩
    rw [foldl_cons, insertLimitedSorted_take hl hc]
    exact h1

theorem foldl_scan (start : Name) (n : ℕ) : ∀ (entries : List DirEntry) (acc : List (Name × Attr)),
    entries.foldl (fun entries entry => if entry.inodeId = 0 then entries
      else if start ≠ [] ∧ entry.name ≤ start then entries else insertLimitedSorted entries (entryTuple entry) n) acc =
      ((liveEntries entries).filter (After start)).foldl (fun acc c => insertLimitedSorted acc c n) acc
  | [], _ => rfl
  | e :: entries, acc => by
    rw [foldl_cons, foldl_scan start n entries, liveEntries_cons]
    by_cases h0 : e.inodeId = 0
    · rw [if_pos h0, if_pos h0]
    · rw [if_neg h0, if_neg h0]
      by_cases hskip : start ≠ [] ∧ e.name ≤ start
      · have hnot : ¬ After start (entryTuple e) := fun h => h.elim hskip.1 fun h => absurd hskip.2 (not_le.mpr h)
        rw [if_pos hskip, filter_cons_of_neg (by simpa using hnot)]
      · have hafter : After start (entryTuple e) := by
          by_cases hs : start = []
          · exact Or.inl hs
          · exact Or.inr (not_le.mp fun h => hskip ⟨hs, h⟩)
        rw [if_neg hskip, filter_cons_of_pos (by simpa using hafter), foldl_cons]

theorem flatMap_liveEntries (pages : List DirPage) : liveEntries (pages.flatMap (·.entries)) = live pages := by
  induction pages with
  | nil => rfl
  | cons p pages ih => rw [flatMap_cons, liveEntries_append, ih]; rfl

theorem rangeScanInStore_eq (hx : x.Inv) (hs : Stored x s) (hclean : x.dirtyPages = []) (start : Name) (n : ℕ) :
    rangeScanInStore s x.dirIno start n = (x.entries.filter (After start)).take n := by
  unfold rangeScanInStore
  split_ifs with hn
  · rw [hn, take_zero]
  · rw [(storedPages_eq hx hs hclean).1, foldl_scan, flatMap_liveEntries]
    have hasc : Ascending (x.entries.filter (After start)) := hx.ascending.filter _
    have hperm : (x.entries.filter (After start)).Perm ((live x.pages).filter (After start)) := hx.live.filter _
    have hnodup : ((([] : List (Name × Attr)) ++ (live x.pages).filter (After start)).map fst).Nodup :=
      (hperm.map fst).nodup_iff.mp (keys_nodup ⟨_, hasc⟩)
    obtain ⟨h1, h2, h3⟩ := @foldl_insertLimited n _ [] List.Pairwise.nil hnodup
    rw [take_nil] at h1
    rw [h1, eq_of_ascending_perm h2 hasc (h3.trans hperm.symm)]

theorem slice_append {B C : List (Name × Attr)} {n : ℕ} (h : (B ++ C).length ≤ u64Max) :
    (if (B ++ C).length ≤ B.length then []
      else ((B ++ C).take (min (satAdd B.length n) (B ++ C).length)).drop B.length) = C.take n := by
  rw [length_append] at h ⊢
  split_ifs with hle
  · rw [eq_nil_of_length_eq_zero (show C.length = 0 by omega), take_nil]
  · rw [drop_take, drop_left]
    unfold satAdd
    rcases le_total n C.length with hn | hn
    · rw [show min (min (B.length + n) u64Max) (B.length + C.length) - B.length = n by omega]
    · rw [take_of_length_le (by omega), take_of_length_le hn]

/-- A scan starts at the first entry it is about. -/
theorem startIdx_cut (hasc : Ascending x.entries) (start : Name) :
    ∃ B, x.entries = B ++ x.entries.filter (After start) ∧ x.startIdx start = B.length := by
  unfold DirPageIndex.startIdx DirPageIndex.search searchKey
  by_cases h0 : start = []
  · have hall : x.entries.filter (After start) = x.entries :=
      filter_eq_self.mpr fun e _ => decide_eq_true (Or.inl h0)
    rw [if_pos h0, hall]
    exact ⟨[], rfl, rfl⟩
  · rw [if_neg h0]
    have hcut : ∀ {B C : List (Name × Attr)}, (∀ e ∈ B, e.1 ≤ start) → Above C start →
        (B ++ C).filter (After start) = C := fun {B C} hB hC => by
      have habove : C.filter (After start) = C := filter_eq_self.mpr fun e he => decide_eq_true (Or.inr (hC e he))
      have hbelow : B.filter (After start) = [] := filter_eq_nil_iff.mpr fun e he h =>
        (of_decide_eq_true h).elim h0 fun h => absurd (hB e he) (not_le.mpr h)
      rw [filter_append, habove, hbelow, nil_append]
    rcases searchKey_cases hasc start with ⟨A, v, C, hl, hfind, hA, hC⟩ | ⟨A, C, hl, hfind, hA, hC⟩
    · have hB : ∀ e ∈ A ++ [(start, v)], e.1 ≤ start :=
        forall_mem_append.mpr ⟨fun e he => (hA e he).le, forall_mem_singleton.mpr le_rfl⟩
      have hsplit : x.entries = (A ++ [(start, v)]) ++ C := by
        rw [hl, append_assoc]
        rfl
      rw [hfind]
      refine ⟨A ++ [(start, v)], ?_, ?_⟩
      · conv_rhs => rw [hsplit, hcut hB hC]
        exact hsplit
      · rw [length_append, length_singleton]
    · rw [hfind]
      refine ⟨A, ?_, rfl⟩
      conv_rhs => rw [hl, hcut (fun e he => (hA e he).le) hC]
      exact hl

theorem rangeScan_eq (hasc : Ascending x.entries) (hlen : x.entries.length ≤ u64Max) (start : Name) (n : ℕ) :
    x.rangeScan start n = (x.entries.filter (After start)).take n := by
  obtain ⟨B, hsplit, hidx⟩ := startIdx_cut hasc start
  unfold DirPageIndex.rangeScan
  rw [hidx]
  generalize x.entries.filter (After start) = C at hsplit ⊢
  rw [hsplit] at hlen ⊢
  exact slice_append hlen

/-! ### Counting -/

theorem countLive_eq {n : ℕ} : ∀ {entries : List DirEntry} {count : ℕ}, count < n →
    count + entries.length ≤ u64Max → countLive n count entries = min (count + (liveEntries entries).length) n
  | [], count, hlt, _ => by
    rw [countLive]
    show count = min (count + 0) n
    omega
  | e :: entries, count, hlt, hmax => by
    rw [length_cons] at hmax
    rw [countLive, liveEntries_cons]
    split_ifs with h0 hfull
    · exact countLive_eq hlt (by omega)
    · unfold satAdd at hfull ⊢
      rw [length_cons]
      omega
    · have hsat : satAdd count 1 = count + 1 := min_eq_left (by omega)
      rw [hsat] at hfull ⊢
      rw [countLive_eq (by omega) (by omega), length_cons]
      omega

/-- There are fewer entries than a word can count. -/
theorem entries_few (hx : x.Inv) : (x.pages.flatMap (·.entries)).length ≤ u64Max := by
  have hpage : ∀ p ∈ x.pages, p.entries.length ≤ 156 := fun p hp => by
    have hfew := length_le_entriesLen p.entries
    have hfits : entriesLen p.entries ≤ dirPageEntriesArea := (hx.valid p hp).fits
    unfold dirPageEntriesArea dirPageSize dirPageHeaderLen at hfits
    omega
  have hpages : x.pages.length ≤ 2 ^ 32 := by
    by_contra hge
    have hlt : 2 ^ 32 < x.pages.length := not_le.mp hge
    have hnum := (hx.valid _ (getElem_mem hlt)).pageNumber
    rw [numbered_getElem hx.numbered (getElem?_eq_getElem hlt)] at hnum
    exact absurd hnum (lt_irrefl _)
  have hsum : ∀ pages : List DirPage, (∀ p ∈ pages, p.entries.length ≤ 156) →
      (pages.flatMap (·.entries)).length ≤ 156 * pages.length := fun pages => by
    induction pages with
    | nil => exact fun _ => le_rfl
    | cons p pages ih =>
      intro h
      obtain ⟨h1, h2⟩ := forall_mem_cons.mp h
      have := ih h2
      rw [flatMap_cons, length_append, length_cons]
      omega
  have := hsum x.pages hpage
  unfold u64Max
  omega

theorem length_liveEntries_le (entries : List DirEntry) : (liveEntries entries).length ≤ entries.length := by
  rw [liveEntries, length_map]
  exact length_filter_le ..

theorem len_le (hx : x.Inv) : x.entries.length ≤ u64Max := by
  rw [hx.live.length_eq, ← flatMap_liveEntries]
  exact (length_liveEntries_le _).trans (entries_few hx)

theorem liveEntryCountInStore_eq (hx : x.Inv) (hs : Stored x s) (hclean : x.dirtyPages = []) {n : ℕ} (hn : 1 ≤ n) :
    liveEntryCountInStore s x.dirIno n = some (min x.len n) := by
  obtain ⟨h1, h2⟩ := storedPages_eq hx hs hclean
  rw [liveEntryCountInStore, h2, if_neg Bool.false_ne_true, h1,
    countLive_eq hn (by rw [zero_add]; exact entries_few hx), flatMap_liveEntries, zero_add, ← hx.live.length_eq]
  rfl

end Tidefs.DirIndex
