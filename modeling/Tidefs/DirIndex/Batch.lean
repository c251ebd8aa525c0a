/-
# Batches

A batch changes the index in memory; a commit puts a marker, then the dirty pages, then
the version of the directory. A crash keeps some of the first puts.

The marker comes first, so a crash may keep it and no page: the batch counts as complete
and nothing of it is there (`marker_without_batch`). The pages are put one by one, and a
crash between two of them leaves new pages among old ones. The batch is there or not
exactly if every such mixture has the entries from before or those from after, and the
marker was there already or the batch changes nothing (`commit_atomic_iff`).
-/
import Tidefs.DirIndex.History

namespace Tidefs.DirIndex

open Codec Ordered Word List Option LastWrite

structure PersistentDirIndex where
  inner : DirPageIndex
  version : ℕ

/-- Magic bytes for the batch commit marker: "DBTC". -/
def dirBatchCommitMagic : Bytes := [0x44, 0x42, 0x54, 0x43]

namespace PersistentDirIndex

variable (p : PersistentDirIndex)

def bumpVersion : PersistentDirIndex := { p with version := wrap64 (p.version + 1) }

def insert (name : Name) (inodeId generation kind : ℕ) : Except DirIndexError PersistentDirIndex :=
  match p.inner.insert name inodeId (kind % 2 ^ 8) generation with
  | .ok (inner, _) => .ok ({ p with inner }).bumpVersion
  | .error .entryAlreadyExists => .error .entryAlreadyExists
  | .error _ => .error .entryNotFound

def delete (name : Name) : Except DirIndexError PersistentDirIndex :=
  if p.inner.contains name then .ok ({ p with inner := (p.inner.remove name).1 }).bumpVersion
  else .error .entryNotFound

/-- The result of the insertion is not looked at. -/
def replace (name : Name) (inodeId generation kind : ℕ) : PersistentDirIndex :=
  let removed := (p.inner.remove name).1
  match removed.insert name inodeId (kind % 2 ^ 8) generation with
  | .ok (inner, _) => ({ p with inner }).bumpVersion
  | .error _ => ({ p with inner := removed }).bumpVersion

/-- The puts of a commit: the marker, the dirty pages, the version. -/
def commitPuts : Option (List (ObjectKey × Bytes)) :=
  p.inner.flushPuts.map fun puts => (.dirBatchCommit p.inner.dirIno, dirBatchCommitMagic) ::
    (puts ++ [(.dirVersion p.inner.dirIno, toLe 8 p.version)])

def load (s : Store) (dirIno : ℕ) : Option PersistentDirIndex :=
  (DirIndex.load s dirIno).map fun inner =>
    { inner
      version := ((LastWrite.get s (.dirVersion dirIno)).bind fun raw =>
        if 8 ≤ raw.length then some (fromLe (raw.take 8)) else none).getD 0 }

end PersistentDirIndex

def checkBatchComplete (s : Store) (dirIno : ℕ) : Bool := (LastWrite.get s (.dirBatchCommit dirIno)).isSome

/-- The store after a crash that keeps so many of the puts. -/
def crash (s : Store) (puts : List (ObjectKey × Bytes)) (k : ℕ) : Store := LastWrite.replay s (puts.take k)

/-- One change of a batch. -/
inductive BatchOp where
  | insert (name : Name) (inodeId generation kind : ℕ)
  | remove (name : Name)
  | replace (name : Name) (inodeId generation kind : ℕ)

namespace BatchOp

def Valid : BatchOp → Prop
  | insert name inodeId generation kind => Insertable name inodeId (kind % 2 ^ 8) generation
  | remove _ => True
  | replace name inodeId generation kind => Insertable name inodeId (kind % 2 ^ 8) generation

/-- An operation that fails changes nothing. -/
def apply (p : PersistentDirIndex) : BatchOp → PersistentDirIndex
  | insert name inodeId generation kind => (p.insert name inodeId generation kind).toOption.getD p
  | remove name => (p.delete name).toOption.getD p
  | replace name inodeId generation kind => p.replace name inodeId generation kind

end BatchOp

def applyBatch (p : PersistentDirIndex) (ops : List BatchOp) : PersistentDirIndex := ops.foldl BatchOp.apply p

/-! ### The index of a batch -/

/-- The index while a batch goes on: of so many pages and offsets at most, and stored where
it was not touched. -/
structure Within (p : PersistentDirIndex) (s : Store) (dirIno pages offsets : ℕ) : Prop where
  index : p.inner.Inv
  stored : Stored p.inner s
  dirIno : p.inner.dirIno = dirIno
  pages : p.inner.pages.length ≤ pages
  offsets : p.inner.nextOffset ≤ offsets

variable {p : PersistentDirIndex} {x : DirPageIndex} {s t : Store} {dirIno pages offsets : ℕ} {op : BatchOp}
  {name : Name} {inodeId generation kind : ℕ}

/-- What an insertion, failed or not, makes of an index. -/
theorem insert_inner (hx : x.Inv) (hs : Stored x s) (hroom : x.Room)
    (hname : Insertable name inodeId (kind % 2 ^ 8) generation) :
    (∃ y o, x.insert name inodeId (kind % 2 ^ 8) generation = .ok (y, o) ∧ y.Inv ∧ Stored y s ∧ y.dirIno = x.dirIno ∧
      y.pages.length ≤ x.pages.length + 1 ∧ y.nextOffset ≤ x.nextOffset + 1) ∨
    x.insert name inodeId (kind % 2 ^ 8) generation = .error .entryAlreadyExists := by
  cases hlookup : Ordered.lookup name x.entries with
  | some a => exact Or.inr (insert_exists hx hlookup)
  | none =>
    obtain ⟨y, n, h1, h2, h3, h4, h5, h6⟩ := insert_spec hx hroom hname hlookup
    exact Or.inl ⟨y, _, h1, h2, h3.stored hs, h3.dirIno, h6, h5.le⟩

theorem remove_inner (hx : x.Inv) (hs : Stored x s) : (x.remove name).1.Inv ∧ Stored (x.remove name).1 s ∧
    (x.remove name).1.dirIno = x.dirIno ∧ (x.remove name).1.pages.length = x.pages.length ∧
    (x.remove name).1.nextOffset = x.nextOffset := by
  cases hlookup : Ordered.lookup name x.entries with
  | none =>
    rw [remove_absent hx hlookup]
    exact ⟨hx, hs, rfl, rfl, rfl⟩
  | some a =>
    obtain ⟨y, n, h1, h2, h3, h4, h5, h6⟩ := remove_spec hx hlookup
    rw [h1]
    exact ⟨h2, h3.stored hs, h3.dirIno, h6, h5⟩

/-- **An operation of a batch** needs one page and one offset at most. -/
theorem apply_within (h : Within p s dirIno pages offsets) (hop : op.Valid) (hpages : pages + 1 < 2 ^ 32)
    (hoffsets : offsets + 1 < 2 ^ 64) : Within (op.apply p) s dirIno (pages + 1) (offsets + 1) := by
  obtain ⟨hx, hs, hino, hp, ho⟩ := h
  have hsame : Within p s dirIno (pages + 1) (offsets + 1) := ⟨hx, hs, hino, by omega, by omega⟩
  cases op with
  | insert name inodeId generation kind =>
    show Within ((p.insert name inodeId generation kind).toOption.getD p) _ _ _ _
    unfold PersistentDirIndex.insert
    rcases insert_inner hx hs ⟨by omega, by omega⟩ hop with ⟨y, o, h1, h2, h3, h4, h5, h6⟩ | h1
    · rw [h1]
      exact ⟨h2, h3, h4.trans hino, show y.pages.length ≤ _ by omega, show y.nextOffset ≤ _ by omega⟩
    · rw [h1]
      exact hsame
  | remove name =>
    show Within ((p.delete name).toOption.getD p) _ _ _ _
    unfold PersistentDirIndex.delete
    split_ifs
    · obtain ⟨h1, h2, h3, h4, h5⟩ := @remove_inner p.inner s name hx hs
      exact ⟨h1, h2, h3.trans hino, show (p.inner.remove name).1.pages.length ≤ _ by omega,
        show (p.inner.remove name).1.nextOffset ≤ _ by omega⟩
    · exact hsame
  | replace name inodeId generation kind =>
    show Within (p.replace name inodeId generation kind) _ _ _ _
    unfold PersistentDirIndex.replace
    obtain ⟨g1, g2, g3, g4, g5⟩ := @remove_inner p.inner s name hx hs
    dsimp only
    rcases insert_inner g1 g2 ⟨by omega, by omega⟩ hop with ⟨y, o, h1, h2, h3, h4, h5, h6⟩ | h1
    · rw [h1]
      exact ⟨h2, h3, h4.trans (g3.trans hino), show y.pages.length ≤ _ by omega, show y.nextOffset ≤ _ by omega⟩
    · rw [h1]
      exact ⟨g1, g2, g3.trans hino, show (p.inner.remove name).1.pages.length ≤ _ by omega,
        show (p.inner.remove name).1.nextOffset ≤ _ by omega⟩

theorem applyBatch_within : ∀ {ops : List BatchOp} {p : PersistentDirIndex} {pages offsets : ℕ},
    Within p s dirIno pages offsets → (∀ op ∈ ops, op.Valid) → pages + ops.length < 2 ^ 32 →
    offsets + ops.length < 2 ^ 64 → Within (applyBatch p ops) s dirIno (pages + ops.length) (offsets + ops.length)
  | [], _, _, _, h, _, _, _ => h
  | op :: ops, p, pages, offsets, h, hvalid, hpages, hoffsets => by
    obtain ⟨hop, hops⟩ := forall_mem_cons.mp hvalid
    rw [length_cons] at *
    have hstep := apply_within h hop (by omega) (by omega)
    have hrun := applyBatch_within hstep hops (by omega) (by omega)
    rw [show pages + (ops.length + 1) = pages + 1 + ops.length by omega,
      show offsets + (ops.length + 1) = offsets + 1 + ops.length by omega]
    exact hrun

/-! ### Crashes -/

/-- Objects that are no pages do not matter to the pages. -/
theorem Stored.replay (hs : Stored x s) {log : List (ObjectKey × Bytes)}
    (hlog : ∀ i, ObjectKey.dirPage x.dirIno i ∉ log.map Prod.fst) : Stored x (replay s log) := by
  intro i hi
  rw [get_replay_of_not_mem (hlog i)]
  exact hs i hi

theorem loaded_list (hx : x.Inv) (hs : Stored x s) (hclean : x.dirtyPages = []) :
    ∃ q, PersistentDirIndex.load s x.dirIno = some q ∧ q.inner.list = x.list := by
  have hload := load_eq hx hs hclean
  exact ⟨_, by rw [PersistentDirIndex.load, hload]; rfl, rfl⟩

/-- **Before the first page** is put, a load sees the old entries. -/
theorem load_before (hx : x.Inv) (hs : Stored x s) (hclean : x.dirtyPages = []) {k : ℕ} (hk : k ≤ 1)
    {puts : List (ObjectKey × Bytes)} {magic : Bytes} :
    ∃ q, PersistentDirIndex.load (crash s ((.dirBatchCommit x.dirIno, magic) :: puts) k) x.dirIno = some q ∧
      q.inner.list = x.list := by
  refine loaded_list hx (hs.replay fun i hmem => ?_) hclean
  obtain ⟨e, he, hkey⟩ := mem_map.mp hmem
  have hfirst : e ∈ [(ObjectKey.dirBatchCommit x.dirIno, magic)] := by
    interval_cases k
    · exact absurd he not_mem_nil
    · exact he
  rw [mem_singleton.mp hfirst] at hkey
  exact nomatch hkey

/-- The marker is the first put. -/
theorem complete_of_marker {marker : Bytes} {puts : List (ObjectKey × Bytes)} :
    checkBatchComplete (crash s ((.dirBatchCommit dirIno, marker) :: puts) 1) dirIno = true := by
  rw [checkBatchComplete, crash, take_succ_cons, take_zero]
  show (LastWrite.get (LastWrite.put (ObjectKey.dirBatchCommit dirIno) marker s) _).isSome = true
  rw [get_put, if_pos rfl]
  rfl

/-- A directory that is in the store as it is. -/
structure Persisted (p : PersistentDirIndex) (s : Store) : Prop where
  index : p.inner.Inv
  stored : Stored p.inner s
  clean : p.inner.dirtyPages = []

/-- The pages, in sequence up to the first that is missing, where those of some numbers are new. -/
def mixed (old new : List DirPage) (put : List ℕ) : List DirPage :=
  (((List.range (old.length + new.length)).map fun i => if i ∈ put then new[i]? else old[i]?).takeWhile
    Option.isSome).reduceOption

/-- What is there in sequence is there by its place, and the next is missing. -/
theorem takeWhile_isSome {α : Type} : ∀ (l : List (Option α)) (i : ℕ), i ≤ ((l.takeWhile isSome).reduceOption).length →
    ((l.takeWhile isSome).reduceOption)[i]? = l[i]?.join
  | [], _, _ => rfl
  | none :: _, i, hi => by
    obtain rfl : i = 0 := Nat.le_zero.mp hi
    rfl
  | some a :: l, 0, _ => rfl
  | some a :: l, i + 1, hi => takeWhile_isSome l i (Nat.le_of_succ_le_succ hi)

theorem getElem?_mixed {old new : List DirPage} {put : List ℕ} {i : ℕ} (hi : i ≤ (mixed old new put).length) :
    (mixed old new put)[i]? = if i ∈ put then new[i]? else old[i]? := by
  rw [mixed, takeWhile_isSome _ i hi, getElem?_map]
  rcases Nat.lt_or_ge i (old.length + new.length) with hlt | hge
  · rw [getElem?_range hlt]
    rfl
  · rw [getElem?_eq_none (by rwa [length_range]), getElem?_eq_none (show new.length ≤ i by omega),
      getElem?_eq_none (show old.length ≤ i by omega), ite_self]
    rfl

/-- The pages of a store whose pages of some numbers are those of another index. -/
theorem hasPages_mixed {y : DirPageIndex} (hx : x.Inv) (hy : y.Inv) {put : List ℕ}
    (hget : ∀ i, LastWrite.get s (.dirPage dirIno i) =
      (if i ∈ put then y.pages[i]? else x.pages[i]?).bind DirPage.encode) :
    HasPages s dirIno (mixed x.pages y.pages put) := by
  have hnumber : ∀ {z : DirPageIndex}, z.Inv → ∀ {i : ℕ} {q : DirPage}, z.pages[i]? = some q →
      q.pageNumber = i := fun hz i q hq => by
    have h := congrArg (·[i]?) hz.numbered
    rw [getElem?_map, hq, getElem?_range (List.getElem?_eq_some_iff.mp hq).1] at h
    exact some.inj h
  have hplace : ∀ {i : ℕ} {q : DirPage}, (mixed x.pages y.pages put)[i]? = some q → q.Valid ∧ q.pageNumber = i :=
      fun {i q} hq => by
    rw [getElem?_mixed (List.getElem?_eq_some_iff.mp hq).1.le] at hq
    split_ifs at hq
    · exact ⟨hy.valid _ (mem_of_getElem? hq), hnumber hy hq⟩
    · exact ⟨hx.valid _ (mem_of_getElem? hq), hnumber hx hq⟩
  refine ⟨fun q hq => ?_, ext_getElem? fun i => ?_, fun hnil => ?_, fun i hi => ?_⟩
  · obtain ⟨i, hi⟩ := mem_iff_getElem?.mp hq
    exact (hplace hi).1
  · cases hq : (mixed x.pages y.pages put)[i]? with
    | none => rw [getElem?_map, hq, getElem?_eq_none (by rw [length_range]; exact getElem?_eq_none_iff.mp hq)]; rfl
    | some q => rw [getElem?_map, hq, getElem?_range (List.getElem?_eq_some_iff.mp hq).1]; exact congrArg some (hplace hq).2
  · -- both indices have a first page
    have h0 := @getElem?_mixed x.pages y.pages put 0 (Nat.zero_le _)
    rw [hnil, getElem?_nil] at h0
    split_ifs at h0
    · exact hy.nonempty (length_eq_zero_iff.mp (Nat.le_zero.mp (getElem?_eq_none_iff.mp h0.symm)))
    · exact hx.nonempty (length_eq_zero_iff.mp (Nat.le_zero.mp (getElem?_eq_none_iff.mp h0.symm)))
  · rw [hget, getElem?_mixed hi]

/-- An index in memory, over a store that has the pages it did not touch. -/
structure InBatch (p x : PersistentDirIndex) (s : Store) : Prop where
  index : x.inner.Inv
  stored : Stored x.inner s
  dirIno : x.inner.dirIno = p.inner.dirIno

theorem applyBatch_inBatch (hp : Persisted p s) {ops : List BatchOp} (hvalid : ∀ op ∈ ops, op.Valid)
    (hpages : p.inner.pages.length + ops.length < 2 ^ 32) (hoffsets : p.inner.nextOffset + ops.length < 2 ^ 64) :
    InBatch p (applyBatch p ops) s := by
  obtain ⟨hx, hs, hino, -, -⟩ := @applyBatch_within s p.inner.dirIno ops p p.inner.pages.length p.inner.nextOffset
    ⟨hp.index, hp.stored, rfl, le_rfl, le_rfl⟩ hvalid hpages hoffsets
  exact ⟨hx, hs, hino⟩

/-- **The pages after a crash**: of the dirty ones, as many are new as were put behind the marker. -/
theorem get_crash {x : PersistentDirIndex} (hp : Persisted p s) (hx : InBatch p x s) {puts : List (ObjectKey × Bytes)}
    (hputs : x.inner.flushPuts = some puts) {marker version : Bytes} (k i : ℕ) :
    LastWrite.get (crash s ((.dirBatchCommit p.inner.dirIno, marker) ::
      (puts ++ [(.dirVersion p.inner.dirIno, version)])) (k + 1)) (.dirPage p.inner.dirIno i) =
    (if i ∈ x.inner.dirtyPages.take k then x.inner.pages[i]? else p.inner.pages[i]?).bind DirPage.encode := by
  obtain ⟨puts', h1, h2, h3⟩ := exists_flushPuts hx.index
  obtain rfl : puts = puts' := some.inj (hputs.symm.trans h1)
  rw [hx.dirIno] at h2 h3
  -- only the puts of pages have keys of pages
  have hkept : ∀ e ∈ ((ObjectKey.dirBatchCommit p.inner.dirIno, marker) ::
      (puts ++ [(.dirVersion p.inner.dirIno, version)])).take (k + 1), e.1 = .dirPage p.inner.dirIno i → e ∈ puts.take k :=
    fun e he hkey => by
      rw [take_succ_cons, take_append] at he
      rcases mem_cons.mp he with rfl | he
      · cases hkey
      · refine (mem_append.mp he).resolve_right fun he => ?_
        rw [mem_singleton.mp (mem_of_mem_take he)] at hkey
        cases hkey
  have hmem : ∀ {i}, ObjectKey.dirPage p.inner.dirIno i ∈ (puts.take k).map Prod.fst ↔ i ∈ x.inner.dirtyPages.take k :=
    fun {i} => by
      rw [map_take, h2, ← map_take, List.mem_map]
      exact ⟨fun ⟨j, hj, hkey⟩ => (ObjectKey.dirPage.inj hkey).2 ▸ hj, fun hi => ⟨i, hi, rfl⟩⟩
  unfold crash
  split_ifs with hi
  · obtain ⟨e, he, hkey⟩ := mem_map.mp (hmem.mpr hi)
    rw [h3 e (mem_of_mem_take he) i hkey]
    refine get_replay (fun e' he' hk => ?_) ?_
    · exact some.inj ((h3 e' (mem_of_mem_take (hkept e' he' hk)) i hk).symm.trans (h3 e (mem_of_mem_take he) i hkey))
    · refine mem_map.mpr ⟨e, ?_, hkey⟩
      rw [take_succ_cons, take_append]
      exact mem_cons_of_mem _ (mem_append_left _ he)
  · rw [get_replay_of_not_mem]
    · exact hp.stored i (by rw [hp.clean]; exact not_mem_nil)
    · rintro hkey
      obtain ⟨e, he, hkey⟩ := mem_map.mp hkey
      exact hi (hmem.mp (mem_map.mpr ⟨e, hkept e he hkey, hkey⟩))

/-- Whatever of the puts a crash keeps, a load sees the entries from before or those from after; and if the marker was
not there before, it is there only with the entries from after. -/
def Atomic (p x : PersistentDirIndex) (s : Store) : Prop :=
  ∃ puts, x.commitPuts = some puts ∧ ∀ k, ∃ q, PersistentDirIndex.load (crash s puts k) p.inner.dirIno = some q ∧
    (q.inner.list = p.inner.list ∨ q.inner.list = x.inner.list) ∧
    (LastWrite.get s (.dirBatchCommit p.inner.dirIno) = none →
      checkBatchComplete (crash s puts k) p.inner.dirIno = true → q.inner.list = x.inner.list)

/-- **When a commit is atomic.** -/
theorem commit_atomic_iff {x : PersistentDirIndex} (hp : Persisted p s) (hx : InBatch p x s) :
    Atomic p x s ↔
      (LastWrite.get s (.dirBatchCommit p.inner.dirIno) ≠ none ∨ p.inner.list = x.inner.list) ∧
      ∀ j, (live (mixed p.inner.pages x.inner.pages (x.inner.dirtyPages.take j))).Perm (live p.inner.pages) ∨
        (live (mixed p.inner.pages x.inner.pages (x.inner.dirtyPages.take j))).Perm (live x.inner.pages) := by
  obtain ⟨puts, h1, -, -⟩ := exists_flushPuts hx.index
  have hcommit : x.commitPuts = some ((.dirBatchCommit p.inner.dirIno, dirBatchCommitMagic) ::
      (puts ++ [(.dirVersion p.inner.dirIno, toLe 8 x.version)])) := by
    rw [PersistentDirIndex.commitPuts, h1, hx.dirIno]
    rfl
  generalize hlog : (ObjectKey.dirBatchCommit p.inner.dirIno, dirBatchCommitMagic) ::
    (puts ++ [(.dirVersion p.inner.dirIno, toLe 8 x.version)]) = log at hcommit
  have hload : ∀ k, ∃ q, PersistentDirIndex.load (crash s log (k + 1)) p.inner.dirIno = some q ∧
      q.inner.list = (live (mixed p.inner.pages x.inner.pages (x.inner.dirtyPages.take k))).mergeSort
        fun a b => a.1 ≤ b.1 := fun k => by
    have hpages := hasPages_mixed hp.index hx.index (@get_crash p s x hp hx puts h1 dirBatchCommitMagic (toLe 8 x.version) k)
    rw [hlog] at hpages
    exact ⟨_, by rw [PersistentDirIndex.load, hpages.load]; rfl, rfl⟩
  have hbefore : ∀ k ≤ 1, ∃ q, PersistentDirIndex.load (crash s log k) p.inner.dirIno = some q ∧
      q.inner.list = p.inner.list := fun k hk => hlog ▸ load_before hp.index hp.stored hp.clean hk
  have hmarker : checkBatchComplete (crash s log 1) p.inner.dirIno = true := hlog ▸ complete_of_marker
  constructor
  · rintro ⟨log', hlog', hall⟩
    obtain rfl := some.inj (hcommit.symm.trans hlog')
    refine ⟨or_iff_not_imp_left.mpr fun hfirst => ?_, fun j => ?_⟩
    · -- the marker alone shows the entries from before
      obtain ⟨q, hq, -, hcomplete⟩ := hall 1
      obtain ⟨q', hq', hlist⟩ := hbefore 1 le_rfl
      obtain rfl := some.inj (hq.symm.trans hq')
      exact hlist.symm.trans (hcomplete (not_not.mp hfirst) hmarker)
    · obtain ⟨q, hq, hlist, -⟩ := hall (j + 1)
      obtain ⟨q', hq', hsorted⟩ := hload j
      obtain rfl := some.inj (hq.symm.trans hq')
      rw [hsorted] at hlist
      exact hlist.imp (sort_eq_iff hp.index).mp (sort_eq_iff hx.index).mp
  · rintro ⟨hfirst, hmixed⟩
    refine ⟨log, hcommit, fun k => ?_⟩
    have hsees : ∃ q, PersistentDirIndex.load (crash s log k) p.inner.dirIno = some q ∧
        (q.inner.list = p.inner.list ∨ q.inner.list = x.inner.list) := by
      cases k with
      | zero =>
        obtain ⟨q, hq, hlist⟩ := hbefore 0 (Nat.zero_le _)
        exact ⟨q, hq, .inl hlist⟩
      | succ k =>
        obtain ⟨q, hq, hsorted⟩ := hload k
        refine ⟨q, hq, ?_⟩
        rw [hsorted]
        exact (hmixed k).imp (sort_eq_iff hp.index).mpr (sort_eq_iff hx.index).mpr
    obtain ⟨q, hq, hlist⟩ := hsees
    refine ⟨q, hq, hlist, fun hnone _ => ?_⟩
    have hsame := hfirst.resolve_left fun h => h hnone
    exact hlist.elim (·.trans hsame) id

/-! ### A first batch -/

/-- An empty directory that was flushed. -/
def freshDir : PersistentDirIndex := ⟨{ DirPageIndex.new 7 with dirtyPages := [], dirty := false }, 0⟩

def oneEntry : List BatchOp := [.insert [97] 1 0 1]

theorem oneEntry_valid : ∀ op ∈ oneEntry, op.Valid := by
  intro op hop
  rw [mem_singleton.mp hop]
  exact ⟨le_rfl, show 1 ≤ 255 by decide, by decide, by decide, by decide⟩

theorem freshDir_persisted : ∃ s, Persisted freshDir s ∧ get s (.dirBatchCommit 7) = none := by
  have hinv := Directory.inv_start 7
  obtain ⟨s, h1, h2⟩ := flush_stored hinv.index hinv.stored
  refine ⟨s, ⟨hinv.index.flushed, h2, rfl⟩, ?_⟩
  obtain ⟨puts, h3, h4, -⟩ := exists_flushPuts hinv.index
  rw [DirPageIndex.flush, h3] at h1
  obtain rfl := (Prod.mk.inj (some.inj h1)).2
  refine get_replay_of_not_mem fun hmem => ?_
  rw [h4] at hmem
  obtain ⟨n, -, hkey⟩ := mem_map.mp hmem
  cases hkey

/-- An entry in a directory for which a batch was committed before. -/
theorem commit_atomic_iff_oneEntry : ∃ s, Persisted freshDir s ∧ Atomic freshDir (applyBatch freshDir oneEntry) s := by
  obtain ⟨s, hs, -⟩ := freshDir_persisted
  have hmarked : Persisted freshDir (replay s [(.dirBatchCommit 7, dirBatchCommitMagic)]) := by
    refine ⟨hs.index, hs.stored.replay fun i hmem => ?_, hs.clean⟩
    rw [map_singleton, mem_singleton] at hmem
    cases hmem
  refine ⟨_, hmarked, (commit_atomic_iff hmarked (applyBatch_inBatch hmarked oneEntry_valid (by decide)
    (by decide))).mpr ⟨.inl ?_, fun j => ?_⟩⟩
  · show LastWrite.get (LastWrite.put (ObjectKey.dirBatchCommit 7) dirBatchCommitMagic s) (.dirBatchCommit 7) ≠ none
    rw [get_put, if_pos rfl]
    exact some_ne_none _
  · cases j with
    | zero => exact .inl (by decide)
    | succ j =>
      refine .inr ?_
      rw [show (applyBatch freshDir oneEntry).inner.dirtyPages = [0] from rfl, take_succ_cons, take_nil]
      decide

/-- **The marker alone.** A crash keeps the marker of a first batch and not its page: the
batch counts as complete, and its entry is not there. -/
theorem marker_without_batch : ∃ s puts, Persisted freshDir s ∧ LastWrite.get s (.dirBatchCommit 7) = none ∧
    (applyBatch freshDir oneEntry).commitPuts = some puts ∧ checkBatchComplete (crash s puts 1) 7 = true ∧
    (applyBatch freshDir oneEntry).inner.list = [([97], 1, 1, 0, 0)] ∧
    ∃ q, PersistentDirIndex.load (crash s puts 1) 7 = some q ∧ q.inner.list = [] := by
  obtain ⟨s, hs, hfirst⟩ := freshDir_persisted
  obtain ⟨hx, -, -, -, -⟩ := @applyBatch_within s 7 oneEntry freshDir 1 0 ⟨hs.index, hs.stored, rfl, le_rfl, le_rfl⟩
    oneEntry_valid (by decide) (by decide)
  obtain ⟨puts, h1, -, -⟩ := exists_flushPuts hx
  exact ⟨s, _, hs, hfirst, by rw [PersistentDirIndex.commitPuts, h1]; rfl, complete_of_marker, rfl,
    load_before hs.index hs.stored hs.clean le_rfl⟩

end Tidefs.DirIndex
