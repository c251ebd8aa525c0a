/-
# Recovery of the commit group counter

A commit writes a journal named after its commit group. At a mount the journals are
looked up by name, from the first on: the scan ends at the first name that is missing
once one was found, and after 1024 names in any case. The next commit group id follows
the last journal the scan met.

With journals of the groups 1..n in the store the scan meets the first 1024 of them
(`recover_eq`). So the counter goes on behind all of them exactly for n up to 1024, if the
keys of each journal can be counted with 32 bits (`recover_reports_iff`); with one journal
more an id that a commit has used is handed out again (`recover_reuses`).
-/
import Tidefs.Lib.Codec
import Tidefs.Lib.Word

namespace Tidefs.CommitGroup

open Codec Word Nat
open List hiding Vector cons nil

/-- The 32 bytes of an object key. -/
abbrev CommitGroupKey := Vector UInt8 32

/-! ### Journals -/

def buildJournalPayload (commitGroupId : ℕ) (keys : List CommitGroupKey) (inodes : List UInt64) : Bytes :=
  toLe 8 commitGroupId ++ (toLe 4 keys.length ++ (keys.flatMap Vector.toList ++
    (toLe 4 inodes.length ++ inodes.flatMap fun ino => toLe 8 ino.toNat)))

/-- The reader of a payload; what follows the inodes is ignored. -/
def readJournal : Reader Unit (ℕ × List CommitGroupKey × List UInt64) := do
  let commitGroupId ← readLe () 8
  let keyCount ← readLe () 4
  let keys ← repeatRead (readVector () 32) keyCount
  let inodeCount ← readLe () 4
  let inodes ← repeatRead (do
    let ino ← readLe () 8
    pure (UInt64.ofNat ino)) inodeCount
  pure (commitGroupId, keys, inodes)

def parseJournalPayload (payload : Bytes) : Option (ℕ × List CommitGroupKey × List UInt64) :=
  match readJournal payload with
  | .error _ => none
  | .ok (journal, _) => some journal

theorem reads_ino (ino : UInt64) : Reads (do
    let ino ← readLe () 8
    pure (UInt64.ofNat ino)) (toLe 8 ino.toNat) ino := by
  have hlt : ino.toNat < 256 ^ 8 := lt_of_lt_of_le ino.toNat_lt (by norm_num)
  have hread := (reads_le () hlt).map UInt64.ofNat
  rwa [UInt64.ofNat_toNat] at hread

variable {commitGroupId : ℕ} {keys : List CommitGroupKey} {inodes : List UInt64}

/-- **A payload is parsed back**, if the count of its keys has 32 bits; of the inodes the first are, as many as
the count says. -/
theorem parse_build (hid : commitGroupId < 2 ^ 64) (hkeys : keys.length < 2 ^ 32) :
    parseJournalPayload (buildJournalPayload commitGroupId keys inodes) =
      some (commitGroupId, keys, inodes.take (inodes.length % 2 ^ 32)) := by
  have h1 : Reads (readLe () 8) (toLe 8 commitGroupId) commitGroupId := reads_le () (by simpa using hid)
  have h2 : Reads (readLe () 4) (toLe 4 keys.length) keys.length := reads_le () (by simpa using hkeys)
  have h3 : Reads (repeatRead (readVector () 32) keys.length) (keys.flatMap Vector.toList) keys :=
    Reads.many fun k _ => reads_vector () k
  have h5 := (Reads.many fun ino (_ : ino ∈ inodes.take (inodes.length % 2 ^ 32)) => reads_ino ino).map
    fun inodes => (commitGroupId, keys, inodes)
  rw [length_take, min_eq_left (Nat.mod_le _ _)] at h5
  have hread : Reads readJournal _ _ := h1.bind (h2.bind (h3.bind ((reads_le_mod () 4 inodes.length).bind h5)))
  have hbytes : buildJournalPayload commitGroupId keys inodes = (toLe 8 commitGroupId ++ (toLe 4 keys.length ++
      (keys.flatMap Vector.toList ++ (toLe 4 inodes.length ++ ((inodes.take (inodes.length % 2 ^ 32)).flatMap fun ino =>
        toLe 8 ino.toNat))))) ++ (inodes.drop (inodes.length % 2 ^ 32)).flatMap fun ino => toLe 8 ino.toNat := by
    simp only [buildJournalPayload, append_assoc, ← flatMap_append, take_append_drop]
  rw [parseJournalPayload, hbytes, hread]

/-- As many keys are parsed as the count says. -/
theorem parse_build_length {parsed : ℕ} {keys' : List CommitGroupKey} {inodes' : List UInt64}
    (hparse : parseJournalPayload (buildJournalPayload commitGroupId keys inodes) = some (parsed, keys', inodes')) :
    keys'.length = keys.length % 2 ^ 32 := by
  unfold parseJournalPayload buildJournalPayload at hparse
  split at hparse
  · cases hparse
  next journal rest hread =>
    obtain rfl := Option.some.inj hparse
    rw [readJournal, (reads_le_mod () 8 commitGroupId).next, (reads_le_mod () 4 keys.length).next] at hread
    obtain ⟨⟨keys₁, bytes₁⟩, hkeys, hread⟩ := bind_eq_ok (x := repeatRead (readVector () 32) _ _) hread
    obtain ⟨⟨count, bytes₂⟩, -, hread⟩ := bind_eq_ok (x := readLe () 4 _) hread
    obtain ⟨⟨inodes₁, bytes₃⟩, -, hread⟩ := bind_eq_ok (x := repeatRead _ count _) hread
    cases hread
    exact repeatRead_length hkeys

/-! ### The scan -/

/-- What a store has under a name, `get_named`. -/
abbrev CommitGroupStore := String → Except String (Option Bytes)

def journalKey (i : ℕ) : String := "commit_group-journal-" ++ toString i

theorem journalKey_inj {i j : ℕ} (h : journalKey i = journalKey j) : i = j :=
  repr_inj.mp ((String.append_right_inj _).mp h)

structure RecoveryResult where
  highestCommittedCommitGroup : ℕ
  nextCommitGroupId : ℕ
  committedKeys : List CommitGroupKey
  tornCommitGroups : List ℕ
  replayedCommitGroups : List ℕ

/-- The error of a read of the store. -/
inductive CommitGroupError where
  | io
deriving DecidableEq

/-- The locals of the scan. -/
structure Scan where
  highest : ℕ
  committedKeys : List CommitGroupKey
  torn : List ℕ
  found : List ℕ

/-- A journal that was found under the id. -/
def Scan.meet (s : Scan) (i : ℕ) (payload : Bytes) : Scan :=
  match parseJournalPayload payload with
  | some (parsed, keys, _) =>
    if parsed = i then
      { s with highest := if s.highest < i then i else s.highest, committedKeys := s.committedKeys ++ keys, found := s.found ++ [i] }
    else { s with torn := s.torn ++ [i], found := s.found ++ [i] }
  | none => { s with torn := s.torn ++ [i], found := s.found ++ [i] }

def scanLoop (store : CommitGroupStore) : List ℕ → Scan → Except CommitGroupError Scan
  | [], s => .ok s
  | i :: is, s =>
    match store (journalKey i) with
    | .error _ => .error .io
    | .ok none => if s.found.isEmpty then scanLoop store is s else .ok s
    | .ok (some payload) => scanLoop store is (s.meet i payload)

def scan (store : CommitGroupStore) (maxCommitGroup : Option ℕ) : Except CommitGroupError RecoveryResult :=
  (scanLoop store (List.range' 1 (maxCommitGroup.getD 1024)) ⟨0, [], [], []⟩).map fun s =>
    { highestCommittedCommitGroup := s.highest
      nextCommitGroupId := if 0 < s.highest then satAdd s.highest 1 else 1
      committedKeys := s.committedKeys
      tornCommitGroups := s.torn
      replayedCommitGroups := [] }

def recover (store : CommitGroupStore) : Except CommitGroupError RecoveryResult := scan store none

def determineNextCommitGroupId (store : CommitGroupStore) : Except CommitGroupError ℕ :=
  (scan store none).map RecoveryResult.nextCommitGroupId

/-! ### Stores with the journals 1..n -/

/-- What a commit of a group wrote to its journal. -/
structure Journal where
  keys : List CommitGroupKey
  inodes : List UInt64

def Journal.payload (j : Journal) (i : ℕ) : Bytes := buildJournalPayload i j.keys j.inodes

/-- The store holds journals for exactly the groups 1..n. -/
structure HoldsJournals (store : CommitGroupStore) (n : ℕ) (journal : ℕ → Journal) : Prop where
  present : ∀ i, 1 ≤ i → i ≤ n → store (journalKey i) = .ok (some ((journal i).payload i))
  absent : ∀ i, n < i → store (journalKey i) = .ok none

def keysOf (journal : ℕ → Journal) (n : ℕ) : List CommitGroupKey := (List.range' 1 n).flatMap fun i => (journal i).keys

variable {store : CommitGroupStore} {n : ℕ} {journal : ℕ → Journal}

theorem keysOf_succ (journal : ℕ → Journal) (n : ℕ) : keysOf journal (n + 1) = keysOf journal n ++ (journal (n + 1)).keys := by
  rw [keysOf, range'_concat, flatMap_append, flatMap_singleton, one_mul, add_comm 1 n]
  rfl

/-- The scan after it met these journals. -/
def meetAll (journal : ℕ → Journal) (is : List ℕ) (s : Scan) : Scan :=
  is.foldl (fun s i => s.meet i ((journal i).payload i)) s

/-- **The scan passes the journals that are there.** -/
theorem scanLoop_present (hstore : HoldsJournals store n journal) (rest : List ℕ) : ∀ (is : List ℕ) (s : Scan),
    (∀ i ∈ is, 1 ≤ i ∧ i ≤ n) → scanLoop store (is ++ rest) s = scanLoop store rest (meetAll journal is s)
  | [], _, _ => rfl
  | i :: is, s, h => by
    obtain ⟨hi, his⟩ := forall_mem_cons.mp h
    rw [cons_append, scanLoop, hstore.present i hi.1 hi.2]
    exact scanLoop_present hstore rest is _ his

/-- Behind the last journal nothing is found. -/
theorem scanLoop_missing (hstore : HoldsJournals store n journal) : ∀ {is : List ℕ} {s : Scan}, (∀ i ∈ is, n < i) →
    scanLoop store is s = .ok s
  | [], _, _ => rfl
  | i :: is, s, h => by
    obtain ⟨hi, his⟩ := forall_mem_cons.mp h
    rw [scanLoop, hstore.absent i hi]
    split_ifs
    · exact scanLoop_missing hstore his
    · rfl

def Scan.result (s : Scan) : RecoveryResult :=
  ⟨s.highest, if 0 < s.highest then satAdd s.highest 1 else 1, s.committedKeys, s.torn, []⟩

/-- **The scan meets the first 1024 journals.** -/
theorem recover_eq (hstore : HoldsJournals store n journal) :
    recover store = .ok (meetAll journal (range' 1 (min n 1024)) ⟨0, [], [], []⟩).result := by
  have hcut : range' 1 1024 = range' 1 (min n 1024) ++ range' (1 + min n 1024) (1024 - min n 1024) := by
    rw [List.range'_append_1, Nat.add_sub_cancel' (min_le_right _ _)]
  have hloop : scanLoop store (range' 1 1024) ⟨0, [], [], []⟩ =
      .ok (meetAll journal (range' 1 (min n 1024)) ⟨0, [], [], []⟩) := by
    rw [hcut, scanLoop_present hstore]
    · refine scanLoop_missing hstore fun i hi => ?_
      obtain ⟨h1, h2⟩ := mem_range'_1.mp hi
      omega
    · intro i hi
      obtain ⟨h1, h2⟩ := mem_range'_1.mp hi
      omega
  rw [recover, scan]
  show (scanLoop store (range' 1 1024) ⟨0, [], [], []⟩).map _ = _
  rw [hloop]
  rfl

def met (journal : ℕ → Journal) (k : ℕ) : Scan := ⟨k, keysOf journal k, [], List.range' 1 k⟩

/-- The journals whose keys can be counted are all met. -/
theorem meetAll_met : ∀ {k : ℕ}, k < 2 ^ 64 → (∀ i, 1 ≤ i → i ≤ k → (journal i).keys.length < 2 ^ 32) →
    meetAll journal (range' 1 k) ⟨0, [], [], []⟩ = met journal k
  | 0, _, _ => rfl
  | k + 1, hid, hfew => by
    have hrange : range' 1 (k + 1) = range' 1 k ++ [k + 1] := by
      rw [range'_concat, one_mul, add_comm 1 k]
    have hhighest : (if (met journal k).highest < k + 1 then k + 1 else (met journal k).highest) = k + 1 :=
      if_pos (lt_succ_self k)
    rw [hrange, meetAll, foldl_append, foldl_cons, foldl_nil]
    rw [show (range' 1 k).foldl _ _ = met journal k from
      meetAll_met (by omega) fun i h1 h2 => hfew i h1 (by omega)]
    rw [Scan.meet, Journal.payload, parse_build hid (hfew (k + 1) (by omega) le_rfl)]
    dsimp only
    rw [if_pos rfl, hhighest, met, met, keysOf_succ, hrange]

/-- A journal adds its keys at most, and not all of them if they cannot be counted. -/
theorem meet_keys_le (s : Scan) (i : ℕ) (j : Journal) :
    (s.meet i (j.payload i)).committedKeys.length + (if 2 ^ 32 ≤ j.keys.length then 1 else 0) ≤
      s.committedKeys.length + j.keys.length := by
  have hcount : j.keys.length % 2 ^ 32 + (if 2 ^ 32 ≤ j.keys.length then 1 else 0) ≤ j.keys.length := by
    split_ifs <;> omega
  unfold Scan.meet
  split
  next parsed keys _ hparse =>
    have hlen := parse_build_length hparse
    rcases eq_or_ne parsed i with hid | hid
    · rw [if_pos hid, length_append]
      omega
    · rw [if_neg hid]
      dsimp only
      omega
  · dsimp only
    omega

theorem meetAll_keys_le : ∀ (is : List ℕ) (s : Scan),
    (meetAll journal is s).committedKeys.length + (if ∃ i ∈ is, 2 ^ 32 ≤ (journal i).keys.length then 1 else 0) ≤
      s.committedKeys.length + (is.flatMap fun i => (journal i).keys).length
  | [], s => by simp [meetAll]
  | i :: is, s => by
    have hhead := meet_keys_le s i (journal i)
    have htail := meetAll_keys_le is (s.meet i ((journal i).payload i))
    rw [flatMap_cons, length_append]
    rw [show meetAll journal (i :: is) s = meetAll journal is (s.meet i ((journal i).payload i)) from rfl]
    simp only [mem_cons, exists_eq_or_imp]
    by_cases hhere : 2 ^ 32 ≤ (journal i).keys.length
    · rw [if_pos hhere] at hhead
      rw [if_pos (.inl hhere)]
      omega
    · rw [if_neg hhere] at hhead
      rw [if_congr (or_iff_right hhere) rfl rfl]
      omega

theorem meet_highest_le {s : Scan} {i bound : ℕ} (payload : Bytes) (hs : s.highest ≤ bound) (hi : i ≤ bound) :
    (s.meet i payload).highest ≤ bound := by
  unfold Scan.meet
  split
  · split_ifs <;> assumption
  · exact hs

theorem meetAll_highest_le {bound : ℕ} : ∀ (is : List ℕ) {s : Scan}, s.highest ≤ bound → (∀ i ∈ is, i ≤ bound) →
    (meetAll journal is s).highest ≤ bound
  | [], _, hs, _ => hs
  | i :: is, _, hs, h => by
    obtain ⟨hi, his⟩ := forall_mem_cons.mp h
    exact meetAll_highest_le is (meet_highest_le _ hs hi) his

/-- All commits are recovered: the last of them, the keys of all, and an id that none has used. -/
def Recovered (store : CommitGroupStore) (n : ℕ) (journal : ℕ → Journal) : Prop :=
  ∃ r, recover store = .ok r ∧ r.highestCommittedCommitGroup = n ∧ r.nextCommitGroupId = n + 1 ∧
    r.committedKeys = keysOf journal n

/-- **All commits are recovered exactly if they are at most 1024 and the keys of each can be counted**; then no
journal is taken for torn. -/
theorem recover_reports_iff (store : CommitGroupStore) (n : ℕ) (journal : ℕ → Journal)
    (hstore : HoldsJournals store n journal) :
    (Recovered store n journal ↔ n ≤ 1024 ∧ ∀ i, 1 ≤ i → i ≤ n → (journal i).keys.length < 2 ^ 32) ∧
      (Recovered store n journal → recover store = .ok ⟨n, n + 1, keysOf journal n, [], []⟩ ∧
        determineNextCommitGroupId store = .ok (n + 1)) := by
  have hscan := recover_eq hstore
  have hfound : n ≤ 1024 → (∀ i, 1 ≤ i → i ≤ n → (journal i).keys.length < 2 ^ 32) →
      recover store = .ok ⟨n, n + 1, keysOf journal n, [], []⟩ := by
    intro hn hfew
    have hnext : (if 0 < n then satAdd n 1 else 1) = n + 1 := by
      have hsum : n + 1 ≤ u64Max := (succ_le_succ hn).trans (by decide)
      split_ifs with h
      · exact min_eq_left hsum
      · omega
    rw [hscan, min_eq_left hn, meetAll_met (by omega) hfew, Scan.result, met, hnext]
  have hiff : Recovered store n journal ↔ n ≤ 1024 ∧ ∀ i, 1 ≤ i → i ≤ n → (journal i).keys.length < 2 ^ 32 := by
    constructor
    · rintro ⟨r, hr, hhighest, -, hkeys⟩
      obtain rfl := Except.ok.inj (hscan.symm.trans hr)
      have hle : n ≤ 1024 := by
        rw [← hhighest]
        refine meetAll_highest_le _ (Nat.zero_le _) fun i hi => ?_
        have := mem_range'_1.mp hi
        omega
      refine ⟨hle, fun i h1 h2 => ?_⟩
      by_contra hmany
      have hlength := @meetAll_keys_le journal (range' 1 (min n 1024)) ⟨0, [], [], []⟩
      rw [min_eq_left hle] at hlength hkeys
      rw [if_pos ⟨i, mem_range'_1.mpr ⟨h1, by omega⟩, not_lt.mp hmany⟩] at hlength
      rw [show (meetAll journal (range' 1 n) _).committedKeys = _ from hkeys, keysOf] at hlength
      simp at hlength
    · exact fun h => ⟨_, hfound h.1 h.2, rfl, rfl, rfl⟩
  refine ⟨hiff, fun hrec => ?_⟩
  have h := hfound (hiff.mp hrec).1 (hiff.mp hrec).2
  exact ⟨h, congrArg (Except.map RecoveryResult.nextCommitGroupId) h⟩

def storeOf (n : ℕ) (journal : ℕ → Journal) : CommitGroupStore := fun name =>
  .ok (((List.range' 1 n).find? fun i => journalKey i = name).map fun i =>
    buildJournalPayload i (journal i).keys (journal i).inodes)

theorem holds_storeOf (n : ℕ) (journal : ℕ → Journal) : HoldsJournals (storeOf n journal) n journal := by
  refine ⟨fun i h1 h2 => ?_, fun i hi => ?_⟩
  · have hfind : (range' 1 n).find? (fun j => decide (journalKey j = journalKey i)) = some i := by
      cases hf : (range' 1 n).find? fun j => decide (journalKey j = journalKey i) with
      | none =>
        have hmem : i ∈ range' 1 n := mem_range'_1.mpr ⟨h1, by omega⟩
        have := find?_eq_none.mp hf i hmem
        simp at this
      | some j =>
        have hj := find?_some hf
        rw [journalKey_inj (of_decide_eq_true hj)]
    rw [storeOf, hfind]
    rfl
  · have hfind : (range' 1 n).find? (fun j => decide (journalKey j = journalKey i)) = none := by
      refine find?_eq_none.mpr fun j hj hkey => ?_
      have hlt := (mem_range'_1.mp hj).2
      rw [journalKey_inj (of_decide_eq_true hkey)] at hlt
      omega
    rw [storeOf, hfind]
    rfl

/-- Two commits of one key each. -/
theorem recover_reports_iff_two : recover (storeOf 2 fun _ => ⟨[Vector.replicate 32 7], [1]⟩) =
    .ok ⟨2, 3, [Vector.replicate 32 7, Vector.replicate 32 7], [], []⟩ := by
  have h := recover_reports_iff _ 2 (fun _ => ⟨[Vector.replicate 32 7], [1]⟩) (holds_storeOf 2 _)
  exact (h.2 (h.1.mpr ⟨by norm_num, fun _ _ _ => by simp⟩)).1

/-- **The scan stops at 1024 journals.** With one more the next id is that of the last
commit, whose keys are missing. -/
theorem recover_reuses : HoldsJournals (storeOf 1025 fun _ => ⟨[Vector.replicate 32 7], []⟩) 1025
      (fun _ => ⟨[Vector.replicate 32 7], []⟩) ∧
    ∃ r, recover (storeOf 1025 fun _ => ⟨[Vector.replicate 32 7], []⟩) = .ok r ∧
      r.highestCommittedCommitGroup = 1024 ∧ r.nextCommitGroupId = 1025 ∧ r.committedKeys.length = 1024 := by
  have hstore := holds_storeOf 1025 fun _ => ⟨[Vector.replicate 32 7], []⟩
  have hlength : ∀ n, (keysOf (fun _ => ⟨[Vector.replicate 32 7], []⟩) n).length = n := fun n => by simp [keysOf]
  have hmet := @meetAll_met (fun _ => ⟨[Vector.replicate 32 7], []⟩) 1024 (by norm_num) fun _ _ _ => by simp
  refine ⟨hstore, _, recover_eq hstore, ?_⟩
  rw [show min 1025 1024 = 1024 from rfl, hmet]
  exact ⟨rfl, rfl, hlength 1024⟩

end Tidefs.CommitGroup
