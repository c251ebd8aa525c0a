/-
# Histories of a directory

A directory takes insertions and removals, is flushed, and is loaded again from the pages
it was flushed to. Offsets are given out in insertion order and stand for positions of a
reader, so they should never come again.

In every history the pages in the store answer as the index does (`pages_agree`), except
that a count with limit zero says one. A load puts the next offset behind the greatest
live offset: the offset of an entry that was removed comes again (`offset_comes_again`).
While the last offset given out is that of a live entry at every reload, offsets ascend.
-/
import Tidefs.DirIndex.Load

namespace Tidefs.DirIndex

open Ordered Word List Option Nat

/-- A directory with its store and the offsets it gave out, the last first. -/
structure Directory where
  index : DirPageIndex
  store : Store
  offsets : List ℕ

namespace Directory

def start (dirIno : ℕ) : Directory := ⟨DirPageIndex.new dirIno, [], []⟩

/-- The calls on a paged directory, with a write of its dirty pages and a reload. -/
inductive Op where
  | insert (name : Name) (inodeId entryType generation : ℕ)
  | remove (name : Name)
  | flush
  | reload

def Op.Valid : Op → Prop
  | insert name inodeId entryType generation => Insertable name inodeId entryType generation
  | _ => True

def step (d : Directory) : Op → Option Directory
  | .insert name inodeId entryType generation =>
    match d.index.insert name inodeId entryType generation with
    | .ok (index, offset) => some { d with index, offsets := offset :: d.offsets }
    | .error _ => some d
  | .remove name => some { d with index := (d.index.remove name).1 }
  | .flush => do
    let (index, store) ← d.index.flush d.store
    some { d with index, store }
  | .reload => do
    let (_, store) ← d.index.flush d.store
    let index ← load store d.index.dirIno
    some { d with index, store }

def run (d : Directory) (ops : List Op) : Option Directory := ops.foldlM step d

/-- The last offset given out is that of a live entry when the directory is loaded. -/
def Keeps (d : Directory) : Op → Prop
  | .reload => ∀ o ∈ d.offsets.head?, ∃ e ∈ d.index.entries, e.2.offset = o
  | _ => True

def KeptRun : Directory → List Op → Prop
  | _, [] => True
  | d, op :: ops => Keeps d op ∧ ∀ d', d.step op = some d' → KeptRun d' ops

/-! ### Steps -/

/-- The directory after some operations: few pages, few offsets, and all that was not
touched is stored. -/
structure Inv (d : Directory) (dirIno k : ℕ) : Prop where
  index : d.index.Inv
  stored : Stored d.index d.store
  dirIno : d.index.dirIno = dirIno
  pages : d.index.pages.length ≤ k + 1
  offsets : d.index.nextOffset ≤ k

/-- Offsets ascend, and the next is above them. -/
structure Ascends (d : Directory) : Prop where
  descending : d.offsets.Pairwise (· > ·)
  next : ∀ o ∈ d.offsets, o < d.index.nextOffset

variable {d d' : Directory} {dirIno k : ℕ} {op : Op}

theorem inv_start (dirIno : ℕ) : (start dirIno).Inv dirIno 0 := by
  refine ⟨⟨fun p hp => ?_, rfl, cons_ne_nil _ _, List.Pairwise.nil, List.Perm.refl _, fun n hn => ?_,
    fun e he => absurd he not_mem_nil⟩, fun i hi => ?_, rfl, le_rfl, le_rfl⟩
  · rw [mem_singleton.mp hp]
    exact ⟨fun e he => absurd he not_mem_nil, rfl, Nat.zero_le _, Nat.two_pow_pos 32, Nat.two_pow_pos 16⟩
  · rw [mem_singleton.mp hn]
    exact Nat.one_pos
  · cases i with
    | zero => exact absurd (mem_singleton_self 0) hi
    | succ i => rfl

/-- The offset behind the greatest is above all and not above the next. -/
theorem offsetBehind_spec {x : DirPageIndex} (hx : x.Inv) (hlt : x.nextOffset < 2 ^ 64) :
    (∀ e ∈ x.entries, e.2.offset < offsetBehind x.entries) ∧ offsetBehind x.entries ≤ x.nextOffset := by
  have hwrap : ∀ e ∈ x.entries, wrap64 (e.2.offset + 1) = e.2.offset + 1 := fun e he => by
    have := hx.offsets e he
    exact mod_eq_of_lt (by omega)
  unfold offsetBehind
  cases hmax : (x.entries.map fun e => wrap64 (e.2.offset + 1)).max? with
  | none =>
    rw [max?_eq_none_iff, map_eq_nil_iff] at hmax
    rw [hmax]
    exact ⟨fun e he => absurd he not_mem_nil, zero_le _⟩
  | some m =>
    obtain ⟨hmem, hle⟩ := max?_eq_some_iff.mp hmax
    obtain ⟨e, he, rfl⟩ := mem_map.mp hmem
    refine ⟨fun e' he' => ?_, ?_⟩
    · have h := hle _ (mem_map_of_mem he')
      rw [hwrap e' he'] at h
      exact h
    · rw [getD_some, hwrap e he]
      exact hx.offsets e he

variable (h : d.Inv dirIno k)
include h

/-- A reload gives the index back with the offset behind the greatest. -/
theorem reload_eq : ∃ store, d.step .reload = some { d with
      index := { d.index with nextOffset := offsetBehind d.index.entries, dirtyPages := [], dirty := false }, store } ∧
    Stored { d.index with dirtyPages := [], dirty := false } store := by
  obtain ⟨store, h1, h2⟩ := flush_stored h.index h.stored
  refine ⟨store, ?_, h2⟩
  have hload := load_eq h.index.flushed h2 rfl
  unfold step
  rw [h1]
  show (do let index ← load store d.index.dirIno; some { d with index, store }) = _
  rw [hload]
  rfl

/-- **An operation** keeps the invariant. -/
theorem step_inv (hop : op.Valid) (hk : k + 1 < 2 ^ 32) : ∃ d', d.step op = some d' ∧ d'.Inv dirIno (k + 1) := by
  have hpages := h.pages
  have hoffsets := h.offsets
  cases op with
  | insert name inodeId entryType generation =>
    unfold step
    dsimp only
    cases hname : Ordered.lookup name d.index.entries with
    | some a =>
      rw [insert_exists h.index hname]
      exact ⟨d, rfl, h.index, h.stored, h.dirIno, by omega, by omega⟩
    | none =>
      obtain ⟨y, n, h1, h2, h3, h4, h5, h6⟩ := insert_spec h.index ⟨by omega, by omega⟩ hop hname
      rw [h1]
      exact ⟨_, rfl, h2, h3.stored h.stored, h3.dirIno.trans h.dirIno, show y.pages.length ≤ _ by omega,
        show y.nextOffset ≤ _ by omega⟩
  | remove name =>
    unfold step
    dsimp only
    cases hname : Ordered.lookup name d.index.entries with
    | none =>
      rw [remove_absent h.index hname]
      exact ⟨d, rfl, h.index, h.stored, h.dirIno, by omega, by omega⟩
    | some a =>
      obtain ⟨y, n, h1, h2, h3, h4, h5, h6⟩ := remove_spec h.index hname
      rw [h1]
      exact ⟨_, rfl, h2, h3.stored h.stored, h3.dirIno.trans h.dirIno, show y.pages.length ≤ _ by omega,
        show y.nextOffset ≤ _ by omega⟩
  | flush =>
    obtain ⟨store, h1, h2⟩ := flush_stored h.index h.stored
    unfold step
    rw [h1]
    exact ⟨_, rfl, h.index.flushed, h2, h.dirIno, show d.index.pages.length ≤ _ by omega,
      show d.index.nextOffset ≤ _ by omega⟩
  | reload =>
    obtain ⟨store, h1, h2⟩ := reload_eq h
    obtain ⟨h3, h4⟩ := offsetBehind_spec h.index (by omega)
    refine ⟨_, h1, ?_, h2, h.dirIno, show d.index.pages.length ≤ _ by omega,
      show offsetBehind d.index.entries ≤ _ by omega⟩
    obtain ⟨g1, g2, g3, g4, g5, -, -⟩ := h.index
    exact ⟨g1, g2, g3, g4, g5, fun n hn => absurd hn not_mem_nil, h3⟩

/-- **An operation** that keeps the last offset gives out greater ones only. -/
theorem step_ascends (hop : op.Valid) (hk : k + 1 < 2 ^ 32) (ha : Ascends d) (hkeeps : Keeps d op)
    (hstep : d.step op = some d') : Ascends d' := by
  have hpages := h.pages
  have hoffsets := h.offsets
  cases op with
  | insert name inodeId entryType generation =>
    unfold step at hstep
    dsimp only at hstep
    cases hname : Ordered.lookup name d.index.entries with
    | some a =>
      rw [insert_exists h.index hname] at hstep
      obtain rfl := some.inj hstep
      exact ha
    | none =>
      obtain ⟨y, n, h1, h2, h3, h4, h5, h6⟩ := insert_spec h.index ⟨by omega, by omega⟩ hop hname
      rw [h1] at hstep
      obtain rfl := some.inj hstep
      refine ⟨pairwise_cons.mpr ⟨fun o ho => ha.next o ho, ha.descending⟩, fun o ho => ?_⟩
      rw [h5]
      rcases mem_cons.mp ho with rfl | ho
      · exact lt_succ_self _
      · exact lt_succ_of_lt (ha.next o ho)
  | remove name =>
    obtain rfl := some.inj hstep
    refine ⟨ha.descending, fun o ho => ?_⟩
    cases hname : Ordered.lookup name d.index.entries with
    | none =>
      rw [remove_absent h.index hname]
      exact ha.next o ho
    | some a =>
      obtain ⟨y, n, h1, h2, h3, h4, h5, h6⟩ := remove_spec h.index hname
      rw [h1, h5]
      exact ha.next o ho
  | flush =>
    obtain ⟨store, h1, h2⟩ := flush_stored h.index h.stored
    unfold step at hstep
    rw [h1] at hstep
    obtain rfl := some.inj hstep
    exact ⟨ha.descending, ha.next⟩
  | reload =>
    obtain ⟨store, h1, h2⟩ := reload_eq h
    rw [h1] at hstep
    obtain rfl := some.inj hstep
    refine ⟨ha.descending, fun o ho => ?_⟩
    obtain ⟨h3, h4⟩ := offsetBehind_spec h.index (by omega)
    -- the last offset is the greatest, and it is live
    match hoff : d.offsets, ho with
    | last :: older, ho =>
      obtain ⟨e, he, heq⟩ := hkeeps last (by rw [hoff]; rfl)
      have hlast := h3 e he
      rw [heq] at hlast
      rcases mem_cons.mp ho with rfl | ho
      · exact hlast
      · have hdesc := ha.descending
        rw [hoff] at hdesc
        exact lt_trans ((pairwise_cons.mp hdesc).1 o ho) hlast

omit h

/-! ### Histories -/

theorem run_inv : ∀ {ops : List Op} {d : Directory} {k : ℕ}, d.Inv dirIno k → (∀ op ∈ ops, op.Valid) →
    k + ops.length < 2 ^ 32 → ∃ d', d.run ops = some d' ∧ d'.Inv dirIno (k + ops.length) ∧
      (Ascends d → KeptRun d ops → Ascends d')
  | [], d, _, h, _, _ => ⟨d, rfl, h, fun ha _ => ha⟩
  | op :: ops, d, k, h, hvalid, hk => by
    obtain ⟨hop, hops⟩ := forall_mem_cons.mp hvalid
    rw [length_cons] at hk
    obtain ⟨d1, h1, h2⟩ := step_inv h hop (by omega)
    obtain ⟨d2, h3, h4, h5⟩ := run_inv h2 hops (by omega)
    refine ⟨d2, ?_, ?_, fun ha hkept => ?_⟩
    · rw [run, foldlM_cons, h1]
      exact h3
    · rw [length_cons, show k + (ops.length + 1) = k + 1 + ops.length by omega]
      exact h4
    · exact h5 (step_ascends h hop (by omega) ha hkept.1 h1) (hkept.2 d1 h1)

/-- **The pages in the store answer as the index does.** After every history and a flush, a
load gives the same list, and lookups, scans and counts on the pages are those of the
index. The offsets given out ascend if at every reload the last of them is live. -/
theorem pages_agree (dirIno : ℕ) (ops : List Op) (hvalid : ∀ op ∈ ops, op.Valid) (hfew : ops.length < 2 ^ 32) :
    ∃ d, (start dirIno).run ops = some d ∧
      (∃ x s y, d.index.flush d.store = some (x, s) ∧ load s dirIno = some y ∧ y.list = d.index.list ∧
        (∀ name, lookupInStore s dirIno name = d.index.lookup name) ∧
        (∀ startName n, rangeScanInStore s dirIno startName n = d.index.rangeScan startName n) ∧
        ∀ n, 1 ≤ n → liveEntryCountInStore s dirIno n = some (min d.index.len n)) ∧
      (KeptRun (start dirIno) ops → d.offsets.Pairwise (· > ·)) := by
  obtain ⟨d, h1, h2, h3⟩ := run_inv (inv_start dirIno) hvalid (by omega)
  refine ⟨d, h1, ?_, fun hkept => (h3 ⟨List.Pairwise.nil, fun o ho => absurd ho not_mem_nil⟩ hkept).descending⟩
  obtain ⟨s, h4, h5⟩ := flush_stored h2.index h2.stored
  have hx := h2.index.flushed
  have hino := h2.dirIno
  subst hino
  have hload := load_eq hx h5 rfl
  have hlookup := lookupInStore_eq hx h5 rfl
  refine ⟨_, s, _, h4, hload, rfl, hlookup, fun startName n => ?_, fun n hn => liveEntryCountInStore_eq hx h5 rfl hn⟩
  rw [rangeScan_eq h2.index.ascending (len_le h2.index)]
  exact rangeScanInStore_eq hx h5 rfl startName n

/-- A directory that is loaded with its last entry, and goes on behind it. -/
def keptOps : List Op := [.insert [97] 1 1 0, .insert [98] 2 1 0, .remove [97], .reload, .insert [99] 3 1 0]

theorem keptOps_valid : ∀ op ∈ keptOps, op.Valid := by
  have hname : ∀ (b : UInt8) (ino : ℕ), ino ≠ 0 ∧ ino < 2 ^ 64 → Insertable [b] ino 1 0 := fun b ino h =>
    ⟨le_rfl, show 1 ≤ 255 by decide, h, by decide, by decide⟩
  intro op hop
  simp only [keptOps, mem_cons, not_mem_nil, or_false] at hop
  rcases hop with rfl | rfl | rfl | rfl | rfl
  · exact hname 97 1 (by decide)
  · exact hname 98 2 (by decide)
  · trivial
  · trivial
  · exact hname 99 3 (by decide)

/-- Three offsets, one above the other. -/
theorem pages_agree_kept : ∃ d, (start 7).run keptOps = some d ∧ d.offsets.Pairwise (· > ·) := by
  obtain ⟨d, h1, -, h2⟩ := pages_agree 7 keptOps keptOps_valid (by decide)
  refine ⟨d, h1, h2 ⟨trivial, fun d1 h1 => ⟨trivial, fun d2 h2 => ⟨trivial, fun d3 h3 => ⟨?_, fun d4 h4 => ?_⟩⟩⟩⟩⟩
  · obtain rfl := some.inj h1
    obtain rfl := some.inj h2
    obtain rfl := some.inj h3
    intro o ho
    obtain rfl := some.inj ho
    exact ⟨([98], 2, 1, 0, 1), mem_cons_self .., rfl⟩
  · exact ⟨trivial, fun d5 h5 => trivial⟩

/-- A directory whose last entry is removed. -/
def lostOps : List Op := [.insert [97] 1 1 0, .remove [97]]

theorem lostOps_valid : ∀ op ∈ lostOps, op.Valid :=
  forall_mem_cons.mpr ⟨keptOps_valid _ (mem_cons_self ..), forall_mem_singleton.mpr trivial⟩

theorem lostOps_empty {d : Directory} (h : (start 7).run lostOps = some d) :
    d.offsets = [0] ∧ d.index.entries = [] := by
  obtain rfl := some.inj h
  exact ⟨rfl, rfl⟩

theorem oneOp_full {d : Directory} (h : (start 7).run [.insert [97] 1 1 0] = some d) :
    d.index.len = 1 ∧ countLive 0 0 (d.index.pages.flatMap (·.entries)) = 1 := by
  obtain rfl := some.inj h
  exact ⟨rfl, rfl⟩

/-- **An offset comes again.** The first entry gets offset zero; it is removed, the
directory is loaded, and the next entry gets offset zero too. And a count with limit zero
on one entry says one. -/
theorem offset_comes_again :
    (∃ d, (start 7).run (lostOps ++ [.reload, .insert [98] 2 1 0]) = some d ∧ d.offsets = [0, 0]) ∧
    ∃ d x s, (start 7).run [.insert [97] 1 1 0] = some d ∧ d.index.flush d.store = some (x, s) ∧ d.index.len = 1 ∧
      liveEntryCountInStore s 7 0 = some 1 := by
  have hinsert : ∀ b : UInt8, Insertable [b] 2 1 0 := fun b =>
    ⟨le_rfl, show 1 ≤ 255 by decide, by decide, by decide, by decide⟩
  constructor
  · obtain ⟨d, h1, h2, -⟩ := run_inv (inv_start 7) lostOps_valid (by decide)
    obtain ⟨hoffsets, hentries⟩ := lostOps_empty h1
    -- the load knows of no offset
    obtain ⟨d', h3, h4⟩ := @step_inv d 7 2 .reload h2 trivial (by decide)
    obtain ⟨store, h5, -⟩ := reload_eq h2
    obtain rfl := some.inj (h3.symm.trans h5)
    have hnext : offsetBehind d.index.entries = 0 := by
      rw [hentries]
      rfl
    obtain ⟨y, n, h6, -⟩ := insert_spec h4.index ⟨lt_of_le_of_lt h4.pages (by decide),
      lt_of_le_of_lt (Nat.succ_le_succ h4.offsets) (by decide)⟩ (hinsert 98)
      (by show Ordered.lookup _ d.index.entries = none; rw [hentries]; rfl)
    refine ⟨⟨y, store, offsetBehind d.index.entries :: d.offsets⟩, ?_, by rw [hnext, hoffsets]⟩
    rw [run, foldlM_append, show List.foldlM step (start 7) lostOps = some d from h1]
    show (do let d ← d.step .reload; let d ← d.step (.insert [98] 2 1 0); some d) = _
    rw [h5]
    rw [bind_eq_bind, bind_some, step, h6]
    rfl
  · obtain ⟨d, h1, h2, -⟩ := run_inv (inv_start 7) (fun op hop => by
      rw [mem_singleton.mp hop]
      exact keptOps_valid _ (mem_cons_self ..)) (by decide)
    obtain ⟨s, h3, h4⟩ := flush_stored h2.index h2.stored
    obtain ⟨hlen, hcount⟩ := oneOp_full h1
    obtain ⟨h5, h6⟩ := storedPages_eq h2.index.flushed h4 rfl
    refine ⟨d, _, s, h1, h3, hlen, ?_⟩
    rw [← h2.dirIno, liveEntryCountInStore, show (payloads s d.index.dirIno).isEmpty = false from h6,
      if_neg Bool.false_ne_true, show storedPages s d.index.dirIno = d.index.pages from h5, hcount]

end Directory
end Tidefs.DirIndex
