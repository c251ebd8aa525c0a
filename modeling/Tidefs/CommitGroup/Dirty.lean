/-
# Dirty byte ranges

`DirtyTracker` of `tidefs-commit_group` keeps the dirty bytes of each inode as sorted
intervals. A new interval is put before the first one that does not end ahead of it and
takes in those after it as long as they overlap or touch. With more than 256 intervals the
whole inode counts as dirty until it is cleared.

The intervals stay apart, and the ranges reported are exactly the bytes marked since the
last clear, or all bytes once more than 256 intervals were needed (`dirty_ranges_exact`).
-/
import Tidefs.Lib.Runs
import Tidefs.Lib.Word

namespace Tidefs.CommitGroup

open Ordered Word List

def maxDirtyIntervals : ℕ := 256

/-- `[start, stop)`. -/
abbrev DirtyInterval := Run

namespace DirtyInterval

def overlapsOrAdjacent (a b : DirtyInterval) : Bool := a.start ≤ b.stop && b.start ≤ a.stop

def merge (a b : DirtyInterval) : DirtyInterval := ⟨min a.start b.start, max a.stop b.stop⟩

end DirtyInterval

open DirtyInterval

structure InodeDirty where
  intervals : List DirtyInterval := []
  overflow : Bool := false
  metaFlags : BitVec 8 := 0

structure DirtyRange where
  ino : ℕ
  offset : ℕ
  len : ℕ
deriving DecidableEq

/-- The dirty ranges of every inode. -/
structure DirtyTracker where
  inodes : OrdMap ℕ InodeDirty

/-- The second loop of `insert_interval`, with the inserted interval in hand. -/
def mergeForward (cur : DirtyInterval) : List DirtyInterval → List DirtyInterval
  | [] => [cur]
  | nxt :: rest => if overlapsOrAdjacent cur nxt then mergeForward (merge cur nxt) rest else cur :: nxt :: rest

def insertInterval (intervals : List DirtyInterval) (new : DirtyInterval) : List DirtyInterval :=
  intervals.takeWhile (·.stop < new.start) ++ mergeForward new (intervals.dropWhile (·.stop < new.start))

/-- The part of `mark_dirty` that works on the entry. -/
def InodeDirty.insert (e : InodeDirty) (new : DirtyInterval) : InodeDirty :=
  if e.overflow then e
  else
    let intervals := insertInterval e.intervals new
    if maxDirtyIntervals < intervals.length then { e with intervals := [], overflow := true } else { e with intervals }

namespace DirtyTracker

def new : DirtyTracker := ⟨OrdMap.empty⟩

variable (t : DirtyTracker)

/-- `entry(ino).or_default()`. -/
def entry (ino : ℕ) : InodeDirty := (t.inodes.get? ino).getD {}

def markDirty (ino offset len : ℕ) : DirtyTracker :=
  if len = 0 then t else ⟨t.inodes.insert ino ((t.entry ino).insert ⟨offset, satAdd offset len⟩)⟩

def clearDirty (ino : ℕ) : DirtyTracker :=
  match t.inodes.get? ino with
  | none => t
  | some _ => ⟨t.inodes.insert ino ⟨[], false, 0⟩⟩

def dirtyRanges (ino : ℕ) : List DirtyRange :=
  match t.inodes.get? ino with
  | none => []
  | some e =>
    if e.overflow then [⟨ino, 0, u64Max⟩] else e.intervals.map fun iv => ⟨ino, iv.start, iv.stop - iv.start⟩

/-- The calls that change the tracker. -/
inductive Op where
  | mark (ino offset len : ℕ)
  | clear (ino : ℕ)

def step : Op → DirtyTracker
  | .mark ino offset len => t.markDirty ino offset len
  | .clear ino => t.clearDirty ino

end DirtyTracker

/-! ### Insertion -/

/-- Sorted, none empty, with a gap between two. -/
@[mk_iff]
structure Separated (l : List DirtyInterval) : Prop where
  nonempty : ∀ r ∈ l, r.start < r.stop
  apart : l.Pairwise fun a b => a.stop < b.start

variable {l : List DirtyInterval} {r cur : DirtyInterval} {b : ℕ}

theorem held_cons : Held (r :: l) b ↔ b ∈ r ∨ Held l b := by simp [Held]

theorem separated_cons : Separated (r :: l) ↔ r.start < r.stop ∧ (∀ x ∈ l, r.stop < x.start) ∧ Separated l := by
  simp only [separated_iff, forall_mem_cons, pairwise_cons]
  tauto

/-- An interval joins a list in which none ends ahead of it. -/
theorem mergeForward_spec : ∀ {l : List DirtyInterval} {cur : DirtyInterval}, Separated l → cur.start < cur.stop →
    (∀ x ∈ l, cur.start ≤ x.stop) → Separated (mergeForward cur l) ∧
    (∀ b, Held (mergeForward cur l) b ↔ b ∈ cur ∨ Held l b) ∧
    ∀ a < cur.start, (∀ x ∈ l, a < x.start) → ∀ x ∈ mergeForward cur l, a < x.start
  | [], cur, h, hcur, _ => by
    refine ⟨separated_cons.mpr ⟨hcur, by simp, h⟩, fun b => held_cons, fun a ha _ => ?_⟩
    simpa [mergeForward] using ha
  | nxt :: rest, cur, h, hcur, hends => by
    obtain ⟨h1, h2, h3⟩ := separated_cons.mp h
    obtain ⟨h4, h5⟩ := forall_mem_cons.mp hends
    rw [mergeForward]
    by_cases hjoin : overlapsOrAdjacent cur nxt = true
    · have hjoin' := hjoin
      rw [overlapsOrAdjacent, Bool.and_eq_true, decide_eq_true_eq, decide_eq_true_eq] at hjoin'
      have hrun : ∀ b, b ∈ merge cur nxt ↔ b ∈ cur ∨ b ∈ nxt := fun b => by
        simp only [Run.mem_def, DirtyInterval.merge]
        omega
      obtain ⟨h6, h7, h8⟩ := @mergeForward_spec rest (merge cur nxt) h3 (by simp only [DirtyInterval.merge]; omega)
        fun x hx => (min_le_left _ _).trans (h5 x hx)
      rw [if_pos hjoin]
      refine ⟨h6, fun b => ?_, fun a ha hall => ?_⟩
      · rw [h7, hrun, held_cons, or_assoc]
      · obtain ⟨h9, h10⟩ := forall_mem_cons.mp hall
        exact h8 a (lt_min ha h9) h10
    · rw [if_neg hjoin]
      rw [overlapsOrAdjacent, Bool.and_eq_true, decide_eq_true_eq, decide_eq_true_eq] at hjoin
      refine ⟨separated_cons.mpr ⟨hcur, ?_, h⟩, fun b => held_cons, fun a ha hall => forall_mem_cons.mpr ⟨ha, hall⟩⟩
      refine forall_mem_cons.mpr ⟨by omega, fun x hx => ?_⟩
      have := h2 x hx
      omega

theorem insertInterval_cons (r cur : DirtyInterval) (l : List DirtyInterval) : insertInterval (r :: l) cur =
    if r.stop < cur.start then r :: insertInterval l cur else mergeForward cur (r :: l) := by
  unfold insertInterval
  split_ifs with h
  · rw [takeWhile_cons_of_pos (by simpa using h), dropWhile_cons_of_pos (by simpa using h), cons_append]
  · rw [takeWhile_cons_of_neg (by simpa using h), dropWhile_cons_of_neg (by simpa using h), nil_append]

theorem insertInterval_spec (hcur : cur.start < cur.stop) : ∀ {l : List DirtyInterval}, Separated l →
    Separated (insertInterval l cur) ∧ (∀ b, Held (insertInterval l cur) b ↔ b ∈ cur ∨ Held l b) ∧
    ∀ a < cur.start, (∀ x ∈ l, a < x.start) → ∀ x ∈ insertInterval l cur, a < x.start
  | [], h => mergeForward_spec h hcur (by simp)
  | r :: l, h => by
    obtain ⟨h1, h2, h3⟩ := separated_cons.mp h
    rw [insertInterval_cons]
    by_cases hahead : r.stop < cur.start
    · obtain ⟨h4, h5, h6⟩ := insertInterval_spec hcur h3
      rw [if_pos hahead]
      refine ⟨separated_cons.mpr ⟨h1, h6 _ hahead h2, h4⟩, fun b => ?_, fun a ha hall => ?_⟩
      · rw [held_cons, h5, held_cons, or_left_comm]
      · obtain ⟨h7, h8⟩ := forall_mem_cons.mp hall
        exact forall_mem_cons.mpr ⟨h7, h6 a ha h8⟩
    · rw [if_neg hahead]
      refine mergeForward_spec h hcur (forall_mem_cons.mpr ⟨by omega, fun x hx => ?_⟩)
      have := h2 x hx
      have := h3.nonempty x hx
      omega

/-! ### Runs of the tracker -/

/-- What was marked on an inode since it was cleared, and whether that needed more than 256 intervals. -/
structure Marked where
  bytes : ℕ → Prop
  full : Prop

/-- The bytes need more intervals than are kept. -/
def Needs (bytes : ℕ → Prop) : Prop :=
  ∃ l, Separated l ∧ maxDirtyIntervals < l.length ∧ ∀ b, Held l b ↔ bytes b

namespace Marked

def start : Marked := ⟨fun _ => False, False⟩

def step (ino : ℕ) (s : Marked) : DirtyTracker.Op → Marked
  | .mark i offset len =>
    if i = ino then
      let bytes := fun b => s.bytes b ∨ offset ≤ b ∧ b < offset + len
      ⟨bytes, s.full ∨ Needs bytes⟩
    else s
  | .clear i => if i = ino then start else s

end Marked

/-- The entry of an inode keeps what was marked. -/
structure Tracks (s : Marked) (e : InodeDirty) : Prop where
  separated : Separated e.intervals
  full : e.overflow = true ↔ s.full
  few : e.intervals.length ≤ maxDirtyIntervals
  held : e.overflow = false → ∀ b, Held e.intervals b ↔ s.bytes b
  bound : ∀ b, s.bytes b → b < u64Max

/-- The intervals as a set. -/
theorem Separated.canonical (h : Separated l) : ∃ R : OrdSet Run, R.toList = l ∧ Canonical R := by
  have hlt : l.Pairwise (· < ·) :=
    h.apart.imp_of_mem fun {a b} ha _ hab => Run.lt_iff.mpr (.inl ((h.nonempty a ha).trans hab))
  have : Std.Symm fun a b : Run => a.stop < b.start ∨ b.stop < a.start := ⟨fun _ _ => Or.symm⟩
  have hapart : l.Pairwise fun a b => a.stop < b.start ∨ b.stop < a.start := h.apart.imp .inl
  exact ⟨⟨l, hlt⟩, rfl, h.nonempty, fun a ha b hb hne => hapart.forall ha hb hne⟩

/-- Two separated lists with the same bytes are the same, so few intervals are enough. -/
theorem not_needs {bytes : ℕ → Prop} (h : Separated l) (hfew : l.length ≤ maxDirtyIntervals)
    (hb : ∀ b, Held l b ↔ bytes b) : ¬ Needs bytes := by
  rintro ⟨l', h', hmany, hb'⟩
  obtain ⟨R, rfl, hR⟩ := h.canonical
  obtain ⟨R', rfl, hR'⟩ := h'.canonical
  rw [hR.ext hR' fun b => (hb b).trans (hb' b).symm] at hfew
  exact absurd hmany (by omega)

theorem tracks_start : Tracks .start {} :=
  ⟨⟨by simp, .nil⟩, by simp [Marked.start], by simp, fun _ b => by simp [Held, Marked.start], fun _ h => h.elim⟩

/-- What is kept when the marked bytes change. -/
theorem tracks_of_held {bytes : ℕ → Prop} {e : InodeDirty} (hl : Separated l) (hheld : ∀ b, Held l b ↔ bytes b)
    (hbound : ∀ b, bytes b → b < u64Max) (hflow : e.overflow = false) :
    Tracks ⟨bytes, Needs bytes⟩ (if maxDirtyIntervals < l.length then
      { e with intervals := [], overflow := true } else { e with intervals := l }) := by
  split_ifs with hmany
  · exact ⟨⟨by simp, .nil⟩, iff_of_true rfl ⟨l, hl, hmany, hheld⟩, by simp, by simp, hbound⟩
  · have hfew : l.length ≤ maxDirtyIntervals := not_lt.mp hmany
    exact ⟨hl, iff_of_false (by simp [hflow]) (not_needs hl hfew hheld), hfew, fun _ => hheld, hbound⟩

theorem Tracks.mark {s : Marked} {e : InodeDirty} (h : Tracks s e) (ino : ℕ) {offset len : ℕ}
    (hfit : offset + len ≤ u64Max) : Tracks (s.step ino (.mark ino offset len))
      (if len = 0 then e else e.insert ⟨offset, satAdd offset len⟩) := by
  have hbound : ∀ b, s.bytes b ∨ offset ≤ b ∧ b < offset + len → b < u64Max := by
    rintro b (hb | hb)
    · exact h.bound b hb
    · omega
  simp only [Marked.step, if_true]
  cases hflow : e.overflow with
  | true =>
    have hfull := h.full.mp hflow
    have hsame : (if len = 0 then e else e.insert ⟨offset, satAdd offset len⟩) = e := by
      simp [InodeDirty.insert, hflow]
    rw [hsame]
    exact ⟨h.separated, iff_of_true hflow (.inl hfull), h.few, by simp [hflow], hbound⟩
  | false =>
    have hfull : ¬ s.full := by simp [← h.full, hflow]
    rw [or_iff_right hfull]
    by_cases hlen : len = 0
    · have hheld : ∀ b, Held e.intervals b ↔ s.bytes b ∨ offset ≤ b ∧ b < offset + len := fun b => by
        rw [h.held hflow b, or_iff_left (by omega)]
      have hkept := tracks_of_held h.separated hheld hbound hflow
      rw [if_neg (not_lt.mpr h.few)] at hkept
      rwa [if_pos hlen]
    · have hstop : satAdd offset len = offset + len := min_eq_left hfit
      obtain ⟨hsep, hheld, _⟩ := @insertInterval_spec ⟨offset, offset + len⟩ (by simp; omega) _ h.separated
      rw [if_neg hlen, InodeDirty.insert, if_neg (by simp [hflow]), hstop]
      refine tracks_of_held hsep (fun b => ?_) hbound hflow
      rw [hheld, h.held hflow, or_comm, Run.mem_def]

namespace DirtyTracker

theorem entry_insert (t : DirtyTracker) (i ino : ℕ) (e : InodeDirty) :
    entry ⟨t.inodes.insert i e⟩ ino = if ino = i then e else t.entry ino := by
  unfold entry
  rw [OrdMap.get?_insert]
  split_ifs <;> rfl

def Op.Fits : Op → Prop
  | .mark _ offset len => offset + len ≤ u64Max
  | .clear _ => True

/-- Each call keeps every entry in step with what was marked. -/
theorem step_tracks {t : DirtyTracker} {ino : ℕ} {s : Marked} (h : Tracks s (t.entry ino)) :
    ∀ {op : Op}, op.Fits → Tracks (s.step ino op) ((t.step op).entry ino)
  | .mark i offset len, hfit => by
    by_cases hi : i = ino
    · subst hi
      have hmark := h.mark i hfit
      rw [step, markDirty]
      split_ifs at hmark ⊢
      · exact hmark
      · rwa [entry_insert, if_pos rfl]
    · rw [Marked.step, if_neg hi, step, markDirty]
      split_ifs
      · exact h
      · rwa [entry_insert, if_neg (Ne.symm hi)]
  | .clear i, _ => by
    rw [Marked.step, step, clearDirty]
    cases hget : t.inodes.get? i with
    | none =>
      split_ifs with hi
      · have hentry : t.entry ino = {} := by rw [entry, ← hi, hget, Option.getD_none]
        rw [hentry]
        exact tracks_start
      · exact h
    | some e =>
      rw [entry_insert]
      split_ifs with hi hi' hi'
      · exact tracks_start
      · exact absurd hi.symm hi'
      · exact absurd hi'.symm hi
      · exact h

theorem run_tracks {ino : ℕ} : ∀ (ops : List Op) {t : DirtyTracker} {s : Marked}, Tracks s (t.entry ino) →
    (∀ op ∈ ops, op.Fits) → Tracks (ops.foldl (Marked.step ino) s) ((ops.foldl step t).entry ino)
  | [], _, _, h, _ => h
  | _ :: ops, _, _, h, hfit =>
    run_tracks ops (step_tracks h (hfit _ mem_cons_self)) fun op hop => hfit op (mem_cons_of_mem _ hop)

/-- The bytes that are reported as dirty. -/
def Reported (t : DirtyTracker) (ino b : ℕ) : Prop := ∃ r ∈ t.dirtyRanges ino, r.offset ≤ b ∧ b < r.offset + r.len

theorem dirtyRanges_eq (t : DirtyTracker) (ino : ℕ) : t.dirtyRanges ino = if (t.entry ino).overflow then
    [⟨ino, 0, u64Max⟩] else (t.entry ino).intervals.map fun iv => ⟨ino, iv.start, iv.stop - iv.start⟩ := by
  unfold dirtyRanges entry
  cases t.inodes.get? ino <;> rfl

theorem reported_iff {t : DirtyTracker} {ino : ℕ} (h : (t.entry ino).overflow = false)
    (hsep : Separated (t.entry ino).intervals) (b : ℕ) : t.Reported ino b ↔ Held (t.entry ino).intervals b := by
  have hmem : ∀ r ∈ (t.entry ino).intervals, (r.start ≤ b ∧ b < r.start + (r.stop - r.start) ↔ b ∈ r) := by
    intro r hr
    have := hsep.nonempty r hr
    rw [Run.mem_def]
    omega
  simp only [Reported, dirtyRanges_eq, h, Bool.false_eq_true, if_false, mem_map, exists_exists_and_eq_and]
  exact exists_congr fun r => and_congr_right (hmem r)

/-- **The intervals of an inode stay sorted and apart, and the ranges reported are the bytes marked since the
last clear, or all bytes once those needed more than 256 intervals.** -/
theorem dirty_ranges_exact (ops : List Op) (hfit : ∀ op ∈ ops, op.Fits) (ino : ℕ) :
    let t := ops.foldl step new
    let s := ops.foldl (Marked.step ino) .start
    Separated (t.entry ino).intervals ∧
    (s.full → t.dirtyRanges ino = [⟨ino, 0, u64Max⟩]) ∧
    (¬ s.full → ∀ b, t.Reported ino b ↔ s.bytes b) ∧ ∀ b, s.bytes b → t.Reported ino b := by
  intro t s
  have h : Tracks s (t.entry ino) := run_tracks ops tracks_start hfit
  have hall : s.full → t.dirtyRanges ino = [⟨ino, 0, u64Max⟩] := fun hfull => by
    rw [dirtyRanges_eq, if_pos (h.full.mpr hfull)]
  have hexact : ¬ s.full → ∀ b, t.Reported ino b ↔ s.bytes b := fun hfull b => by
    have hflow : (t.entry ino).overflow = false := Bool.eq_false_iff.mpr (mt h.full.mp hfull)
    rw [reported_iff hflow h.separated, h.held hflow]
  refine ⟨h.separated, hall, hexact, fun b hb => ?_⟩
  by_cases hfull : s.full
  · refine ⟨⟨ino, 0, u64Max⟩, by simp [hall hfull], Nat.zero_le b, ?_⟩
    exact (h.bound b hb).trans_eq (Nat.zero_add _).symm
  · exact (hexact hfull b).mpr hb

/-- A mark that is cleared, then two that overlap, one that touches them, one of another inode and one apart. -/
def markings : List Op :=
  [.mark 1 0 100, .clear 1, .mark 1 4096 4096, .mark 1 6000 4096, .mark 1 10096 100, .mark 2 0 10, .mark 1 20000 10]

theorem dirty_ranges_exact_markings :
    (markings.foldl step new).dirtyRanges 1 = [⟨1, 4096, 6100⟩, ⟨1, 20000, 10⟩] ∧
      ∀ b, (markings.foldl step new).Reported 1 b ↔ 4096 ≤ b ∧ b < 10196 ∨ 20000 ≤ b ∧ b < 20010 := by
  have hfit : ∀ op ∈ markings, op.Fits := by simp [markings, Op.Fits, u64Max]
  have hranges : (markings.foldl step new).dirtyRanges 1 = [⟨1, 4096, 6100⟩, ⟨1, 20000, 10⟩] := by decide
  obtain ⟨-, hfull, hexact, -⟩ := dirty_ranges_exact markings hfit 1
  have hfew : ¬ (markings.foldl (Marked.step 1) .start).full := fun h => by
    have := (hfull h).symm.trans hranges
    simp at this
  refine ⟨hranges, fun b => (hexact hfew b).trans ?_⟩
  simp only [markings, foldl_cons, foldl_nil, Marked.step, Marked.start]
  simp
  omega

end DirtyTracker

end Tidefs.CommitGroup
