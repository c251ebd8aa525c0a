/-
# The orphan index

The inodes that lost their last link, as a set that is written out as a log of checksummed
records. Crash-safe changes are kept apart until the next commit, so that they can be taken
back; plain changes, and the replay watermark, are not.

Taking back restores the set that the plain changes alone would have made, provided that no
plain change is made to an inode with a crash-safe one pending. It also declares the index
clean, which is right only if there were no plain changes and the watermark stayed
(`index_is_recovered`); otherwise a change is lost that nothing will write out
(`abort_forgets_insert`). The log reads back to what was written, and any part of it from
the header on to some of the inodes, without a report of corruption (`replay_take`).
-/
import Tidefs.Lib.Ordered
import Tidefs.Lib.Codec

namespace Tidefs.Orphan

open Ordered Codec List Option OrdSet

/-- Inode numbers have 64 bits. -/
abbrev InodeId := Fin (2 ^ 64)

/-- The set stands for the `BPlusTree` of the source, whose operations are those of an ordered map
(`Btree.btree_refines_map`). -/
structure OrphanIndex where
  tree : OrdSet InodeId
  dirty : Bool
  pendingInserts : OrdSet InodeId
  pendingRemoves : OrdSet InodeId
  watermark : InodeId

namespace OrphanIndex

/-! ### Changes -/

def new : OrphanIndex := ⟨.empty, false, .empty, .empty, 0⟩

variable (x : OrphanIndex)

/-- The index, and whether the inode is new to it. -/
def insert (inodeId : InodeId) : OrphanIndex × Bool :=
  ({ x with tree := x.tree.insert inodeId, dirty := x.dirty || inodeId ∉ x.tree }, inodeId ∉ x.tree)

def remove (inodeId : InodeId) : OrphanIndex × Bool :=
  ({ x with tree := x.tree.erase inodeId, dirty := x.dirty || inodeId ∈ x.tree }, inodeId ∈ x.tree)

/-- A pending removal of the inode is cancelled; only without one does the insertion become pending. -/
def insertCrashSafe (inodeId : InodeId) : OrphanIndex × Bool :=
  let cancelledRemove := inodeId ∈ x.pendingRemoves
  let isNew := inodeId ∉ x.tree
  ({ x with
    pendingRemoves := x.pendingRemoves.erase inodeId
    tree := x.tree.insert inodeId
    dirty := x.dirty || isNew
    pendingInserts := if isNew ∧ ¬ cancelledRemove then x.pendingInserts.insert inodeId else x.pendingInserts }, isNew)

/-- A pending insertion is only dropped; the dirty mark stays. -/
def removeCrashSafe (inodeId : InodeId) : OrphanIndex × Bool :=
  if inodeId ∈ x.pendingInserts then
    ({ x with pendingInserts := x.pendingInserts.erase inodeId, tree := x.tree.erase inodeId }, true)
  else if inodeId ∈ x.tree then
    ({ x with tree := x.tree.erase inodeId, dirty := true, pendingRemoves := x.pendingRemoves.insert inodeId }, true)
  else (x, false)

def advanceWatermark (position : InodeId) : OrphanIndex :=
  { x with watermark := if x.watermark < position then position else x.watermark, dirty := true }

def commitPending : OrphanIndex :=
  { x with dirty := false, pendingInserts := .empty, pendingRemoves := .empty }

def abortPending : OrphanIndex :=
  let undone := x.tree.eraseAll (x.pendingInserts.toList.filter fun key => key ∉ x.pendingRemoves)
  { x with
    tree := undone.extend x.pendingRemoves.toList
    dirty := false
    pendingInserts := .empty
    pendingRemoves := .empty }

def hasPending : Bool := !x.pendingInserts.isEmpty || !x.pendingRemoves.isEmpty

def isDirty : Bool := x.dirty || x.hasPending

end OrphanIndex

open OrphanIndex

/-! ### The log -/

section Log

variable (checksum : List UInt8 → List UInt8)

def logRecordSize : ℕ := 40

def encodeRecord (inodeId : InodeId) : List UInt8 := toLe 8 inodeId ++ checksum (toLe 8 inodeId)

/-- The number of entries has 32 bits. -/
def OrphanIndex.encodeLog (x : OrphanIndex) : List UInt8 :=
  toLe 4 x.tree.toList.length ++ toLe 8 x.watermark ++ x.tree.toList.flatMap (encodeRecord checksum)

section Commit

variable {κ : Type*}

/-- The log is handed to the store, which answers with a key or refuses. -/
def OrphanIndex.commitToTxg (x : OrphanIndex) (putNamed : List UInt8 → Except String κ) :
    OrphanIndex × Except String κ :=
  match putNamed (x.encodeLog checksum) with
  | .ok key => (x.commitPending, .ok key)
  | .error e => (x, .error e)

end Commit

structure OrphanLogIncompleteTail where
  nextEntryIndex : ℕ
  bytesAvailable : ℕ
  recordBytes : ℕ
  missingEntries : ℕ

structure OrphanLogRecoveryReport where
  expectedEntries : ℕ
  replayedEntries : ℕ
  corruptedInodes : List InodeId
  incompleteTail : Option OrphanLogIncompleteTail
  watermark : InodeId

/-- A log without a whole header. -/
inductive LogRecoverError where
  | truncatedHeader

/-- A number read from eight bytes. -/
def readInode (bytes : List UInt8) : InodeId := Fin.ofNat _ (fromLe bytes)

/-- The records from one on: those that are there in full are checked, the first that is not ends the replay. -/
def replayRecords (count : ℕ) : ℕ → ℕ → List UInt8 → OrphanIndex × OrphanLogRecoveryReport →
    OrphanIndex × OrphanLogRecoveryReport
  | 0, _, _, st => st
  | left + 1, recordIndex, data, (idx, report) =>
    if data.length < logRecordSize then
      (idx, { report with
        incompleteTail := some ⟨recordIndex, data.length, logRecordSize, count - recordIndex⟩ })
    else
      let entry := data.take 8
      let expected := (data.drop 8).take 32
      replayRecords count left (recordIndex + 1) (data.drop logRecordSize)
        (if checksum entry = expected then
          ((idx.insert (readInode entry)).1, { report with replayedEntries := report.replayedEntries + 1 })
        else (idx, { report with corruptedInodes := report.corruptedInodes ++ [readInode entry] }))

def recoverFromLogReport (data : List UInt8) : Except LogRecoverError (OrphanIndex × OrphanLogRecoveryReport) :=
  if data.length < 12 then .error .truncatedHeader
  else
    let count := fromLe (data.take 4)
    let watermark := readInode ((data.drop 4).take 8)
    let replayed := replayRecords checksum count count 0 (data.drop 12)
      ({ OrphanIndex.new with watermark := watermark }, ⟨count, 0, [], none, watermark⟩)
    .ok ({ replayed.1 with dirty := false }, replayed.2)

def recoverFromLog (data : List UInt8) : Except LogRecoverError (OrphanIndex × List InodeId) :=
  (recoverFromLogReport checksum data).map fun r => (r.1, r.2.corruptedInodes)

/-- What the store returns is replayed; without a log the index is empty. -/
def replayFromTxg (stored : Except String (Option (List UInt8))) : OrphanIndex × List InodeId :=
  match stored with
  | .ok (some bytes) =>
    match recoverFromLogReport checksum bytes with
    | .ok (idx, report) => (idx, report.corruptedInodes)
    | .error _ => (.new, [])
  | .ok none => (.new, [])
  | .error _ => (.new, [])

variable {checksum}

def ChecksumWidth (checksum : List UInt8 → List UInt8) : Prop := ∀ bytes, (checksum bytes).length = 32

theorem readInode_toLe (inodeId : InodeId) : readInode (toLe 8 inodeId) = inodeId := by
  have hlt : (inodeId : ℕ) < 256 ^ 8 := inodeId.isLt
  rw [readInode, fromLe_toLe hlt]
  exact Fin.ofNat_val_eq_self inodeId

theorem length_encodeRecord (hwidth : ChecksumWidth checksum) (inodeId : InodeId) :
    (encodeRecord checksum inodeId).length = logRecordSize := by
  rw [encodeRecord, length_append, length_toLe, hwidth]
  rfl

theorem replayRecords_record (hwidth : ChecksumWidth checksum) (count left i : ℕ) (inodeId : InodeId)
    (rest : List UInt8) (idx : OrphanIndex) (report : OrphanLogRecoveryReport) :
    replayRecords checksum count (left + 1) i (encodeRecord checksum inodeId ++ rest) (idx, report) =
      replayRecords checksum count left (i + 1) rest
        ((idx.insert inodeId).1, { report with replayedEntries := report.replayedEntries + 1 }) := by
  have hlength := length_encodeRecord hwidth inodeId
  have hentry : (encodeRecord checksum inodeId ++ rest).take 8 = toLe 8 inodeId := by
    rw [encodeRecord, append_assoc]
    exact take_left' (length_toLe 8 _)
  have hsum : ((encodeRecord checksum inodeId ++ rest).drop 8).take 32 = checksum (toLe 8 inodeId) := by
    rw [encodeRecord, append_assoc, drop_left' (length_toLe 8 _)]
    exact take_left' (hwidth _)
  have hrest : (encodeRecord checksum inodeId ++ rest).drop logRecordSize = rest := drop_left' hlength
  rw [replayRecords, if_neg (by rw [length_append, hlength]; omega)]
  simp only [hentry, hsum, hrest, if_true, readInode_toLe]

/-- **Any part of the records replays to some of the inodes**, none of them corrupt. -/
theorem replayRecords_take (hwidth : ChecksumWidth checksum) (count : ℕ) : ∀ (inodes : List InodeId) (n left i : ℕ)
    (idx : OrphanIndex) (report : OrphanLogRecoveryReport),
    (replayRecords checksum count left i ((inodes.flatMap (encodeRecord checksum)).take n) (idx, report)).2.corruptedInodes =
        report.corruptedInodes ∧
      ∀ key ∈ (replayRecords checksum count left i ((inodes.flatMap (encodeRecord checksum)).take n)
        (idx, report)).1.tree, key ∈ idx.tree ∨ key ∈ inodes
  | _, _, 0, _, _, _ => ⟨rfl, fun _ h => .inl h⟩
  | [], n, left + 1, i, idx, report => by
    have hnil : (([] : List InodeId).flatMap (encodeRecord checksum)).take n = [] := take_nil
    rw [hnil, replayRecords, if_pos (by decide)]
    exact ⟨rfl, fun _ h => .inl h⟩
  | inodeId :: inodes, n, left + 1, i, idx, report => by
    have hlength := length_encodeRecord hwidth inodeId
    by_cases hn : n < logRecordSize
    · -- the first record is cut
      rw [replayRecords, if_pos (lt_of_le_of_lt (length_take_le _ _) hn)]
      exact ⟨rfl, fun _ h => .inl h⟩
    · have hsplit : ((inodeId :: inodes).flatMap (encodeRecord checksum)).take n =
          encodeRecord checksum inodeId ++ (inodes.flatMap (encodeRecord checksum)).take (n - logRecordSize) := by
        rw [flatMap_cons, take_append, hlength, take_of_length_le (by omega)]
      obtain ⟨h1, h2⟩ := replayRecords_take hwidth count inodes (n - logRecordSize) left (i + 1) (idx.insert inodeId).1
        { report with replayedEntries := report.replayedEntries + 1 }
      rw [hsplit, replayRecords_record hwidth]
      refine ⟨h1, fun key hkey => ?_⟩
      rcases h2 key hkey with hkey | hkey
      · rcases mem_insert.mp hkey with rfl | hkey
        · exact .inr (mem_cons_self ..)
        · exact .inl hkey
      · exact .inr (mem_cons_of_mem _ hkey)

theorem replayRecords_all (hwidth : ChecksumWidth checksum) (count : ℕ) : ∀ (inodes : List InodeId) (i : ℕ)
    (idx : OrphanIndex) (report : OrphanLogRecoveryReport),
    (replayRecords checksum count inodes.length i (inodes.flatMap (encodeRecord checksum)) (idx, report)).1.tree =
        idx.tree.extend inodes ∧
      (replayRecords checksum count inodes.length i (inodes.flatMap (encodeRecord checksum)) (idx, report)).1.watermark =
        idx.watermark
  | [], _, _, _ => ⟨rfl, rfl⟩
  | inodeId :: inodes, i, idx, report => by
    obtain ⟨h1, h2⟩ := replayRecords_all hwidth count inodes (i + 1) (idx.insert inodeId).1
      { report with replayedEntries := report.replayedEntries + 1 }
    rw [flatMap_cons, length_cons, replayRecords_record hwidth, h1, h2]
    exact ⟨rfl, rfl⟩

/-- The header of a log, of which at least itself is there. -/
theorem take_encodeLog (checksum : List UInt8 → List UInt8) (x : OrphanIndex) {n : ℕ} (hn : 12 ≤ n) :
    ((x.encodeLog checksum).take n).take 4 = toLe 4 x.tree.toList.length ∧
      (((x.encodeLog checksum).take n).drop 4).take 8 = toLe 8 x.watermark ∧
      ((x.encodeLog checksum).take n).drop 12 = (x.tree.toList.flatMap (encodeRecord checksum)).take (n - 12) := by
  unfold encodeLog
  rw [append_assoc]
  refine ⟨?_, ?_, ?_⟩
  · rw [take_take, min_eq_left (by omega)]
    exact take_left' (length_toLe 4 _)
  · rw [drop_take, drop_left' (length_toLe 4 _), take_take, min_eq_left (by omega)]
    exact take_left' (length_toLe 8 _)
  · rw [drop_take, ← append_assoc, drop_left' (by rw [length_append, length_toLe, length_toLe])]

theorem length_encodeLog (checksum : List UInt8 → List UInt8) (x : OrphanIndex) :
    (x.encodeLog checksum).length = 12 + (x.tree.toList.flatMap (encodeRecord checksum)).length := by
  unfold encodeLog
  rw [length_append, length_append, length_toLe, length_toLe]

/-- **A log that was cut replays to some of its inodes without a report of corruption.** -/
theorem replay_take (hwidth : ChecksumWidth checksum) (x : OrphanIndex) {n : ℕ} (hn : 12 ≤ n) :
    ∃ idx, replayFromTxg checksum (.ok (some ((x.encodeLog checksum).take n))) = (idx, []) ∧
      ∀ key ∈ idx.tree, key ∈ x.tree := by
  have hlength : ¬ ((x.encodeLog checksum).take n).length < 12 := by
    have := length_encodeLog checksum x
    rw [length_take]
    omega
  obtain ⟨h1, h2, h3⟩ := take_encodeLog checksum x hn
  simp only [replayFromTxg, recoverFromLogReport, if_neg hlength, h1, h2, h3]
  obtain ⟨hclean, hsub⟩ := replayRecords_take hwidth (fromLe (toLe 4 x.tree.toList.length)) x.tree.toList (n - 12)
    (fromLe (toLe 4 x.tree.toList.length)) 0 { new with watermark := readInode (toLe 8 x.watermark) }
    ⟨fromLe (toLe 4 x.tree.toList.length), 0, [], none, readInode (toLe 8 x.watermark)⟩
  refine ⟨_, Prod.ext rfl hclean, fun key hkey => ?_⟩
  rcases hsub key hkey with hkey | hkey
  · exact absurd hkey (not_mem_empty key)
  · exact hkey

/-- **The log reads back.** -/
theorem recover_encode (hwidth : ChecksumWidth checksum) (x : OrphanIndex) (hsmall : x.tree.toList.length < 2 ^ 32) :
    ∃ idx, recoverFromLog checksum (x.encodeLog checksum) = .ok (idx, []) ∧ idx.tree = x.tree ∧
      idx.watermark = x.watermark := by
  have hlength : 12 ≤ (x.encodeLog checksum).length := Nat.le.intro (length_encodeLog checksum x).symm
  have htake : (x.encodeLog checksum).take (x.encodeLog checksum).length = x.encodeLog checksum := take_length
  obtain ⟨h1, h2, h3⟩ := take_encodeLog checksum x hlength
  rw [htake] at h1 h2 h3
  have hrecords : (x.tree.toList.flatMap (encodeRecord checksum)).take ((x.encodeLog checksum).length - 12) =
      x.tree.toList.flatMap (encodeRecord checksum) := by
    rw [length_encodeLog, Nat.add_sub_cancel_left, take_length]
  have hcount : fromLe (toLe 4 x.tree.toList.length) = x.tree.toList.length := fromLe_toLe hsmall
  rw [hrecords] at h3
  simp only [recoverFromLog, recoverFromLogReport, if_neg (not_lt.mpr hlength), h1, h2, h3, hcount, readInode_toLe]
  obtain ⟨htree, hwatermark⟩ := replayRecords_all hwidth x.tree.toList.length x.tree.toList 0
    { new with watermark := x.watermark } ⟨x.tree.toList.length, 0, [], none, x.watermark⟩
  have hclean := (replayRecords_take hwidth x.tree.toList.length x.tree.toList
    (x.tree.toList.flatMap (encodeRecord checksum)).length x.tree.toList.length 0
    { new with watermark := x.watermark } ⟨x.tree.toList.length, 0, [], none, x.watermark⟩).1
  rw [take_length] at hclean
  exact ⟨_, congrArg Except.ok (Prod.ext rfl hclean), htree.trans (extend_toList x.tree), hwatermark⟩

end Log

/-! ### Histories -/

section Histories

variable (checksum : List UInt8 → List UInt8)

/-- The index, the log the store last took, what was written there, and what the plain changes since then alone have
made of it. -/
structure History where
  index : OrphanIndex
  log : Option (List UInt8)
  savedTree : OrdSet InodeId
  savedWatermark : InodeId
  kept : OrdSet InodeId

/-- The calls; a commit comes with the answer of the store. -/
inductive Op where
  | insert (inodeId : InodeId)
  | remove (inodeId : InodeId)
  | insertCrashSafe (inodeId : InodeId)
  | removeCrashSafe (inodeId : InodeId)
  | advanceWatermark (position : InodeId)
  | commitToTxg (answer : Except String ℕ)
  | abortPending

def start : History := ⟨.new, none, .empty, 0, .empty⟩

def step (h : History) : Op → History
  | .insert inodeId => { h with index := (h.index.insert inodeId).1, kept := h.kept.insert inodeId }
  | .remove inodeId => { h with index := (h.index.remove inodeId).1, kept := h.kept.erase inodeId }
  | .insertCrashSafe inodeId => { h with index := (h.index.insertCrashSafe inodeId).1 }
  | .removeCrashSafe inodeId => { h with index := (h.index.removeCrashSafe inodeId).1 }
  | .advanceWatermark position => { h with index := h.index.advanceWatermark position }
  | .commitToTxg answer =>
    match h.index.commitToTxg checksum fun _ => answer with
    | (index, .ok _) => ⟨index, some (h.index.encodeLog checksum), h.index.tree, h.index.watermark, h.index.tree⟩
    | (index, .error _) => { h with index := index }
  | .abortPending => { h with index := h.index.abortPending }

def run (ops : List Op) : History := ops.foldl (step checksum) start

/-- No crash-safe change of the inode is pending. -/
def Settled (x : OrphanIndex) (inodeId : InodeId) : Prop :=
  inodeId ∉ x.pendingInserts ∧ inodeId ∉ x.pendingRemoves

/-- Plain changes are made to inodes without a pending one, the number of orphans has 32 bits, and changes are taken
back only where there was no plain change and no advance of the watermark since the last commit. -/
def Careful (h : History) : Op → Prop
  | .insert inodeId => Settled h.index inodeId
  | .remove inodeId => Settled h.index inodeId
  | .commitToTxg (.ok _) => h.index.tree.toList.length < 2 ^ 32
  | .abortPending => h.kept = h.savedTree ∧ h.index.watermark = h.savedWatermark
  | _ => True

instance (h : History) : ∀ op, Decidable (Careful h op)
  | .insert _ => inferInstanceAs (Decidable (_ ∧ _))
  | .remove _ => inferInstanceAs (Decidable (_ ∧ _))
  | .insertCrashSafe _ => instDecidableTrue
  | .removeCrashSafe _ => instDecidableTrue
  | .advanceWatermark _ => instDecidableTrue
  | .commitToTxg (.ok _) => inferInstanceAs (Decidable (_ < _))
  | .commitToTxg (.error _) => instDecidableTrue
  | .abortPending => inferInstanceAs (Decidable (_ ∧ _))

def CarefulRun : History → List Op → Prop
  | _, [] => True
  | h, op :: ops => Careful h op ∧ CarefulRun (step checksum h op) ops

instance : ∀ (h : History) (ops : List Op), Decidable (CarefulRun checksum h ops)
  | _, [] => instDecidableTrue
  | h, op :: ops =>
    have := instDecidableCarefulRun (step checksum h op) ops
    inferInstanceAs (Decidable (_ ∧ _))

structure Inv (h : History) : Prop where
  tree : ∀ key, key ∈ h.index.tree ↔ key ∈ h.index.pendingInserts ∨ (key ∈ h.kept ∧ key ∉ h.index.pendingRemoves)
  inserts : ∀ key ∈ h.index.pendingInserts, key ∉ h.kept
  removes : ∀ key ∈ h.index.pendingRemoves, key ∈ h.kept
  clean : h.index.dirty = false → (∀ key, Settled h.index key) ∧ h.kept = h.savedTree ∧
    h.index.watermark = h.savedWatermark
  log : ∀ bytes, h.log = some bytes →
    bytes = OrphanIndex.encodeLog checksum ⟨h.savedTree, false, .empty, .empty, h.savedWatermark⟩
  small : h.savedTree.toList.length < 2 ^ 32

variable {checksum} {h : History} (hi : Inv checksum h)
include hi

/-- **Taking back the crash-safe changes leaves the plain ones.** -/
theorem abortPending_tree : h.index.abortPending.tree = h.kept := by
  apply ext_mem
  intro key
  simp only [abortPending, mem_extend, mem_eraseAll, mem_filter, decide_eq_true_eq, hi.tree key]
  have h1 := hi.inserts key
  have h2 := hi.removes key
  tauto

theorem insert_inv (key : InodeId) (hsettled : Settled h.index key) :
    Inv checksum (step checksum h (.insert key)) := by
  obtain ⟨hins, hrem⟩ := hsettled
  refine ⟨fun x => ?_, fun x hx => ?_, fun x hx => ?_, fun hdirty => ?_, hi.log, hi.small⟩
  · show x ∈ h.index.tree.insert key ↔ x ∈ h.index.pendingInserts ∨ (x ∈ h.kept.insert key ∧ x ∉ h.index.pendingRemoves)
    rw [mem_insert, mem_insert, hi.tree x]
    by_cases hx : x = key
    · subst hx
      simp [hrem]
    · simp [hx]
  · show x ∉ h.kept.insert key
    rw [mem_insert]
    rintro (rfl | hkept)
    · exact hins hx
    · exact hi.inserts x hx hkept
  · exact mem_insert.mpr (.inr (hi.removes x hx))
  · have hdirty : (h.index.dirty || decide (key ∉ h.index.tree)) = false := hdirty
    rw [Bool.or_eq_false_iff, decide_eq_false_iff_not, not_not] at hdirty
    obtain ⟨hsettled, hkept, hwm⟩ := hi.clean hdirty.1
    refine ⟨hsettled, (OrdSet.insert_of_mem ?_).trans hkept, hwm⟩
    rcases (hi.tree key).mp hdirty.2 with hmem | hmem
    · exact absurd hmem hins
    · exact hmem.1

theorem remove_inv (key : InodeId) (hsettled : Settled h.index key) :
    Inv checksum (step checksum h (.remove key)) := by
  obtain ⟨hins, hrem⟩ := hsettled
  refine ⟨fun x => ?_, fun x hx => ?_, fun x hx => ?_, fun hdirty => ?_, hi.log, hi.small⟩
  · show x ∈ h.index.tree.erase key ↔ x ∈ h.index.pendingInserts ∨ (x ∈ h.kept.erase key ∧ x ∉ h.index.pendingRemoves)
    rw [mem_erase, mem_erase, hi.tree x]
    by_cases hx : x = key
    · subst hx
      simp [hins]
    · simp [hx]
  · show x ∉ h.kept.erase key
    rw [mem_erase]
    exact fun hkept => hi.inserts x hx hkept.1
  · refine mem_erase.mpr ⟨hi.removes x hx, ?_⟩
    rintro rfl
    exact hrem hx
  · have hdirty : (h.index.dirty || decide (key ∈ h.index.tree)) = false := hdirty
    rw [Bool.or_eq_false_iff, decide_eq_false_iff_not] at hdirty
    obtain ⟨hsettled, hkept, hwm⟩ := hi.clean hdirty.1
    refine ⟨hsettled, (OrdSet.erase_of_not_mem fun hmem => hdirty.2 ?_).trans hkept, hwm⟩
    exact (hi.tree key).mpr (.inr ⟨hmem, hrem⟩)

/-- Nothing pending is cancelled: an inode in the tree is not among the pending removals. -/
theorem insertCrashSafe_of_mem {key : InodeId} (hold : key ∈ h.index.tree) :
    (h.index.insertCrashSafe key).1 = h.index := by
  have hrem : key ∉ h.index.pendingRemoves := by
    intro hmem
    rcases (hi.tree key).mp hold with hins | hkept
    · exact hi.inserts key hins (hi.removes key hmem)
    · exact hkept.2 hmem
  simp [insertCrashSafe, OrdSet.insert_of_mem hold, OrdSet.erase_of_not_mem hrem, hold]

omit hi

theorem dirty_insertCrashSafe {x : OrphanIndex} {key : InodeId} (hnew : key ∉ x.tree) :
    (x.insertCrashSafe key).1.dirty = true := by
  simp [insertCrashSafe, hnew]

theorem insertCrashSafe_inv (hi : Inv checksum h) (key : InodeId) :
    Inv checksum (step checksum h (.insertCrashSafe key)) := by
  by_cases hnew : key ∈ h.index.tree
  · simp only [step, insertCrashSafe_of_mem hi hnew]
    exact hi
  have hclean : (h.index.insertCrashSafe key).1.dirty ≠ false := by
    rw [dirty_insertCrashSafe hnew]
    decide
  have hnot := fun hmem => hnew ((hi.tree key).mpr hmem)
  -- a pending removal is cancelled, otherwise the insertion is pending
  have hinserts : ∀ x, x ∈ (h.index.insertCrashSafe key).1.pendingInserts ↔
      x ∈ h.index.pendingInserts ∨ x = key ∧ key ∉ h.index.pendingRemoves := by
    intro x
    by_cases hrem : key ∈ h.index.pendingRemoves
    · simp [insertCrashSafe, hrem]
    · simp [insertCrashSafe, hrem, hnew, or_comm]
  refine ⟨fun x => ?_, fun x hx => ?_, fun x hx => ?_, fun hdirty => absurd hdirty hclean, hi.log, hi.small⟩
  · show x ∈ h.index.tree.insert key ↔ x ∈ (h.index.insertCrashSafe key).1.pendingInserts ∨
      (x ∈ h.kept ∧ x ∉ h.index.pendingRemoves.erase key)
    rw [hinserts, mem_insert, mem_erase, hi.tree x]
    by_cases hx : x = key
    · have hremoves := hi.removes key
      subst hx
      tauto
    · simp [hx]
  · rcases (hinserts x).mp hx with hx | ⟨rfl, hrem⟩
    · exact hi.inserts x hx
    · exact fun hmem => hnot (.inr ⟨hmem, hrem⟩)
  · exact hi.removes x (mem_erase.mp hx).1

theorem removeCrashSafe_inv (hi : Inv checksum h) (key : InodeId) :
    Inv checksum (step checksum h (.removeCrashSafe key)) := by
  simp only [step, removeCrashSafe]
  split_ifs with hins htree
  · -- a pending insertion is dropped
    have hkept := hi.inserts key hins
    refine ⟨fun x => ?_, fun x hx => ?_, hi.removes, fun hdirty => ?_, hi.log, hi.small⟩
    · rw [mem_erase, mem_erase, hi.tree x]
      by_cases hx : x = key
      · subst hx
        simp [hkept]
      · simp [hx]
    · exact hi.inserts x (mem_erase.mp hx).1
    · exact absurd hins ((hi.clean hdirty).1 key).1
  · have hkept : key ∈ h.kept := by
      rcases (hi.tree key).mp htree with hmem | hmem
      · exact absurd hmem hins
      · exact hmem.1
    refine ⟨fun x => ?_, hi.inserts, fun x hx => ?_, fun hdirty => (by cases hdirty), hi.log, hi.small⟩
    · rw [mem_erase, mem_insert, hi.tree x]
      by_cases hx : x = key
      · subst hx
        simp [hins]
      · simp [hx]
    · rcases mem_insert.mp hx with rfl | hx
      · exact hkept
      · exact hi.removes x hx
  · exact hi

/-- An index without pending changes, just written or just put back. -/
theorem settled_inv {x : OrphanIndex} (hlog : ∀ bytes, h.log = some bytes →
      bytes = encodeLog checksum ⟨h.savedTree, false, .empty, .empty, h.savedWatermark⟩)
    (hsmall : h.savedTree.toList.length < 2 ^ 32) (htree : x.tree = h.savedTree) (hkept : h.kept = h.savedTree)
    (hins : x.pendingInserts = .empty) (hrem : x.pendingRemoves = .empty) (hwm : x.watermark = h.savedWatermark) :
    Inv checksum { h with index := x } := by
  obtain ⟨tree, dirty, inserts, removes, watermark⟩ := x
  obtain rfl : inserts = .empty := hins
  obtain rfl : removes = .empty := hrem
  refine ⟨fun key => ?_, fun key hkey => absurd hkey (not_mem_empty key), fun key hkey => absurd hkey (not_mem_empty key),
    fun _ => ⟨fun key => ⟨not_mem_empty key, not_mem_empty key⟩, hkept, hwm⟩, hlog, hsmall⟩
  rw [show tree = _ from htree, hkept]
  simp

theorem start_inv : Inv checksum start :=
  settled_inv (h := start) (fun _ hbytes => by cases hbytes) (by decide) rfl rfl rfl rfl rfl

/-- A clean index holds what the plain changes made. -/
theorem Inv.tree_of_clean (hi : Inv checksum h) (hclean : h.index.dirty = false) : h.index.tree = h.kept := by
  apply ext_mem
  intro key
  obtain ⟨hins, hrem⟩ := (hi.clean hclean).1 key
  rw [hi.tree key]
  simp [hins, hrem]

/-- **A careful call keeps the invariant.** -/
theorem step_inv (hi : Inv checksum h) : ∀ op, Careful h op → Inv checksum (step checksum h op)
  | .insert key, hop => insert_inv hi key hop
  | .remove key, hop => remove_inv hi key hop
  | .insertCrashSafe key, _ => insertCrashSafe_inv hi key
  | .removeCrashSafe key, _ => removeCrashSafe_inv hi key
  | .advanceWatermark _, _ => ⟨hi.tree, hi.inserts, hi.removes, fun hdirty => (by cases hdirty), hi.log, hi.small⟩
  | .commitToTxg (.error _), _ => hi
  | .commitToTxg (.ok _), hop => by
    have hlog : ∀ bytes, some (h.index.encodeLog checksum) = some bytes →
        bytes = encodeLog checksum ⟨h.index.tree, false, .empty, .empty, h.index.watermark⟩ :=
      fun bytes hbytes => (some.inj hbytes).symm
    exact settled_inv (h := ⟨h.index, some (h.index.encodeLog checksum), h.index.tree, h.index.watermark,
      h.index.tree⟩) hlog hop rfl rfl rfl rfl rfl
  | .abortPending, hop =>
    settled_inv hi.log hi.small ((abortPending_tree hi).trans hop.1) hop.1 rfl rfl hop.2

theorem run_inv : ∀ (ops : List Op) {h : History}, Inv checksum h → CarefulRun checksum h ops →
    Inv checksum (ops.foldl (step checksum) h)
  | [], _, hi, _ => hi
  | op :: ops, _, hi, hrun => run_inv ops (step_inv hi op hrun.1) hrun.2

/-- **The index and its log.** After a careful run, taking back leaves what the plain changes since the last commit made
of the set written then; a clean index is the one read back from the log; and any part of the log from the header on
replays to some of the inodes written, none reported corrupt. -/
theorem index_is_recovered (checksum : List UInt8 → List UInt8) (hwidth : ChecksumWidth checksum) (ops : List Op)
    (hrun : CarefulRun checksum start ops) : (run checksum ops).index.abortPending.tree = (run checksum ops).kept ∧
      ∀ bytes, (run checksum ops).log = some bytes →
        ((run checksum ops).index.isDirty = false → ∃ idx, recoverFromLog checksum bytes = .ok (idx, []) ∧
          idx.tree = (run checksum ops).index.tree ∧ idx.watermark = (run checksum ops).index.watermark) ∧
        ∀ part, part <+: bytes → 12 ≤ part.length → ∃ idx, replayFromTxg checksum (.ok (some part)) = (idx, []) ∧
            ∀ key ∈ idx.tree, key ∈ (run checksum ops).savedTree := by
  have hi : Inv checksum (run checksum ops) := run_inv ops start_inv hrun
  refine ⟨abortPending_tree hi, fun bytes hbytes => ⟨fun hclean => ?_, fun part hpart hlength => ?_⟩⟩
  · rw [OrphanIndex.isDirty, Bool.or_eq_false_iff] at hclean
    obtain ⟨_, hkept, hwm⟩ := hi.clean hclean.1
    obtain ⟨idx, hidx, h1, h2⟩ := recover_encode hwidth
      ⟨(run checksum ops).savedTree, false, .empty, .empty, (run checksum ops).savedWatermark⟩ hi.small
    rw [hi.log bytes hbytes]
    exact ⟨idx, hidx, h1.trans (hkept.symm.trans (hi.tree_of_clean hclean.1).symm), h2.trans hwm.symm⟩
  · rw [prefix_iff_eq_take.mp hpart, hi.log bytes hbytes]
    exact replay_take hwidth _ hlength

/-- An insertion written, its removal taken back, a plain insertion written. -/
theorem index_is_recovered_run :
    CarefulRun (fun _ => List.replicate 32 0) start [.insertCrashSafe 5, .commitToTxg (.ok 1), .removeCrashSafe 5,
        .abortPending, .insert 7, .commitToTxg (.ok 2)] ∧
      (run (fun _ => List.replicate 32 0) [.insertCrashSafe 5, .commitToTxg (.ok 1), .removeCrashSafe 5,
          .abortPending, .insert 7, .commitToTxg (.ok 2)]).index.abortPending.tree =
        (run (fun _ => List.replicate 32 0) [.insertCrashSafe 5, .commitToTxg (.ok 1), .removeCrashSafe 5,
          .abortPending, .insert 7, .commitToTxg (.ok 2)]).kept :=
  ⟨by decide, (index_is_recovered _ (fun _ => length_replicate) _ (by decide)).1⟩

/-- **Taking back forgets a plain insertion.** Inode 5 is inserted after a commit; taking back leaves it there and the
index clean, while the log does not have it. And a plain removal and insertion of an inode whose insertion is pending
are taken back with it. -/
theorem abort_forgets_insert :
    ((run (fun _ => List.replicate 32 0) [.commitToTxg (.ok 1), .insert 5, .abortPending]).index.isDirty = false ∧
      5 ∈ (run (fun _ => List.replicate 32 0) [.commitToTxg (.ok 1), .insert 5, .abortPending]).index.tree ∧
      5 ∉ (replayFromTxg (fun _ => List.replicate 32 0) (.ok
        (run (fun _ => List.replicate 32 0) [.commitToTxg (.ok 1), .insert 5, .abortPending]).log)).1.tree) ∧
    5 ∈ (run (fun _ => List.replicate 32 0) [.insertCrashSafe 5, .remove 5, .insert 5]).kept ∧
      5 ∉ (run (fun _ => List.replicate 32 0) [.insertCrashSafe 5, .remove 5, .insert 5]).index.abortPending.tree := by
  decide

end Histories

end Tidefs.Orphan
