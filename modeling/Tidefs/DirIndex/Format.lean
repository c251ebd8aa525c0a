/-
# Directory pages

A directory is a sequence of pages of 4096 bytes. A page has a header and entries packed
behind it, and zeros to its end; an entry has a header of 26 bytes and its name. An entry
whose inode is zero is a tombstone.

A page whose entries fit is read back as it was written (`decode_encode`): every name has
a byte, so no entry is taken for padding.
-/
import Tidefs.Lib.Codec

namespace Tidefs.DirIndex

open Codec List Option

abbrev Name := Bytes

/-- Errors returned by directory index operations. -/
inductive DirIndexError where
  | entryAlreadyExists
  | entryNotFound
  | dirNotEmpty
  | staleCursor
deriving DecidableEq

/-- Magic bytes at the start of every page: "VDIR". -/
def dirPageMagic : Bytes := [0x56, 0x44, 0x49, 0x52]

def dirPageSize : ℕ := 4096

def dirPageHeaderLen : ℕ := 16

def dirPageEntriesArea : ℕ := dirPageSize - dirPageHeaderLen

def dirEntryMaxName : ℕ := 255

def dirEntryHeaderLen : ℕ := 26

/-- An entry of a page. -/
structure DirEntry where
  nameLen : ℕ
  inodeId : ℕ
  entryType : ℕ
  generation : ℕ
  offset : ℕ
  name : Name
deriving DecidableEq

namespace DirEntry

def encodedLen (e : DirEntry) : ℕ := dirEntryHeaderLen + e.nameLen

def bytes (e : DirEntry) : Bytes :=
  toLe 1 e.nameLen ++ (toLe 8 e.inodeId ++ (toLe 1 e.entryType ++ (toLe 8 e.generation ++ (toLe 8 e.offset ++ e.name))))

/-- Into a buffer of that many bytes; it panics if the entry does not fit or its name is
not of the length it declares. -/
def encodeInto (e : DirEntry) (room : ℕ) : Option Bytes :=
  if room < e.encodedLen ∨ e.name.length ≠ e.nameLen then none else some e.bytes

def decode (src : Bytes) : Option DirEntry :=
  if src.length < dirEntryHeaderLen then none
  else
    let nameLen := fromLe (src.take 1)
    if src.length < dirEntryHeaderLen + nameLen then none
    else if dirEntryMaxName < nameLen then none
    else
      some { nameLen
             inodeId := fromLe ((src.drop 1).take 8)
             entryType := fromLe ((src.drop 9).take 1)
             generation := fromLe ((src.drop 10).take 8)
             offset := fromLe ((src.drop 18).take 8)
             name := (src.drop 26).take nameLen }

end DirEntry

open DirEntry

/-- A page of a directory. -/
structure DirPage where
  pageNumber : ℕ
  entryCount : ℕ
  flags : ℕ
  entries : List DirEntry
deriving DecidableEq

/-- The entries one after the other, and zeros to the end of the buffer. -/
def encodeEntries : List DirEntry → ℕ → Option Bytes
  | [], room => some (List.replicate room 0)
  | e :: entries, room => do
    let written ← e.encodeInto room
    let behind ← encodeEntries entries (room - e.encodedLen)
    some (written ++ behind)

/-- The loop that reads entries: it ends early at padding and at what is no entry. -/
def decodeEntries : ℕ → Bytes → List DirEntry × Bytes
  | 0, src => ([], src)
  | expected + 1, src =>
    if src.length < dirEntryHeaderLen then ([], src)
    else if src.all (· = 0) then ([], src)
    else
      match DirEntry.decode src with
      | none => ([], src)
      | some entry =>
        let (entries, behind) := decodeEntries expected (src.drop entry.encodedLen)
        (entry :: entries, behind)

namespace DirPage

def new (pageNumber : ℕ) : DirPage := ⟨pageNumber, 0, 0, []⟩

variable (p : DirPage)

def setHasTombstones : DirPage := { p with flags := p.flags ||| 1 }

def bytesUsed : ℕ := (p.entries.map DirEntry.encodedLen).sum

def bytesFree : ℕ := dirPageEntriesArea - p.bytesUsed

def canFit (encodedLen : ℕ) : Bool := encodedLen ≤ p.bytesFree

def header : Bytes :=
  dirPageMagic ++ (toLe 4 p.pageNumber ++ (toLe 2 p.entryCount ++ (toLe 2 p.flags ++ [0, 0, 0, 0])))

def encode : Option Bytes := (encodeEntries p.entries dirPageEntriesArea).map (p.header ++ ·)

def decode (buf : Bytes) : Option DirPage :=
  if buf.take 4 ≠ dirPageMagic then none
  else
    let pageNumber := fromLe ((buf.drop 4).take 4)
    let entryCount := fromLe ((buf.drop 8).take 2)
    let flags := fromLe ((buf.drop 10).take 2)
    let (entries, behind) := decodeEntries entryCount (buf.drop dirPageHeaderLen)
    if entries.length ≠ entryCount then none
    else if ¬ behind.all (· = 0) then none
    else some ⟨pageNumber, entryCount, flags, entries⟩

end DirPage

/-! ### Reading back -/

/-- An entry as the index makes them. -/
structure DirEntry.Valid (e : DirEntry) : Prop where
  nameLen : e.nameLen = e.name.length
  named : 1 ≤ e.name.length
  short : e.name.length ≤ dirEntryMaxName
  inodeId : e.inodeId < 2 ^ 64
  entryType : e.entryType < 2 ^ 8
  generation : e.generation < 2 ^ 64
  offset : e.offset < 2 ^ 64

variable {e : DirEntry} {p : DirPage} {entries : List DirEntry} {src : Bytes} {room : ℕ}

theorem DirEntry.length_bytes (e : DirEntry) : e.bytes.length = dirEntryHeaderLen + e.name.length := by
  simp only [bytes, length_append, length_toLe, dirEntryHeaderLen]
  omega

theorem take_drop_append {a b c : Bytes} {n m : ℕ} (ha : a.length = n) (hb : b.length = m) :
    ((a ++ (b ++ c)).drop n).take m = b := by
  rw [drop_left' ha, take_left' hb]

/-- **An entry** is read back. -/
theorem DirEntry.decode_encode (h : e.Valid) (src : Bytes) : decode (e.bytes ++ src) = some e := by
  obtain ⟨h0, h1, h2, h3, h4, h5, h6⟩ := h
  have hlen : (e.bytes ++ src).length = dirEntryHeaderLen + e.name.length + src.length := by
    rw [length_append, length_bytes]
  have hshort : e.nameLen < 256 ^ 1 := by
    unfold dirEntryMaxName at h2
    omega
  have hname : fromLe ((e.bytes ++ src).take 1) = e.nameLen := by
    rw [bytes, append_assoc, take_left' (length_toLe 1 _), fromLe_toLe hshort]
  unfold decode
  rw [hname, if_neg (by omega), if_neg (by omega), if_neg (by omega)]
  -- the fields, one behind the other
  have f1 : ((e.bytes ++ src).drop 1).take 8 = toLe 8 e.inodeId := by
    simp only [bytes, append_assoc]
    exact take_drop_append (length_toLe 1 _) (length_toLe 8 _)
  have f2 : ((e.bytes ++ src).drop 9).take 1 = toLe 1 e.entryType := by
    simp only [bytes, append_assoc]
    rw [← append_assoc (toLe 1 e.nameLen)]
    exact take_drop_append (by simp) (length_toLe 1 _)
  have f3 : ((e.bytes ++ src).drop 10).take 8 = toLe 8 e.generation := by
    simp only [bytes, append_assoc]
    rw [← append_assoc (toLe 8 e.inodeId), ← append_assoc (toLe 1 e.nameLen)]
    exact take_drop_append (by simp) (length_toLe 8 _)
  have f4 : ((e.bytes ++ src).drop 18).take 8 = toLe 8 e.offset := by
    simp only [bytes, append_assoc]
    rw [← append_assoc (toLe 1 e.entryType), ← append_assoc (toLe 8 e.inodeId), ← append_assoc (toLe 1 e.nameLen)]
    exact take_drop_append (by simp) (length_toLe 8 _)
  have f5 : ((e.bytes ++ src).drop 26).take e.nameLen = e.name := by
    simp only [bytes, append_assoc]
    rw [← append_assoc (toLe 8 e.generation), ← append_assoc (toLe 1 e.entryType),
      ← append_assoc (toLe 8 e.inodeId), ← append_assoc (toLe 1 e.nameLen)]
    exact take_drop_append (by simp) h0.symm
  rw [f1, f2, f3, f4, f5, fromLe_toLe h3, fromLe_toLe h4, fromLe_toLe h5, fromLe_toLe h6]

theorem DirEntry.not_padding (h : e.Valid) (src : Bytes) : (e.bytes ++ src).all (· = 0) = false := by
  have hlen := h.named
  have hshort := h.short
  -- the first byte is the length of the name
  have hfirst : UInt8.ofNat e.nameLen ≠ 0 := by
    intro h0
    have hval := congrArg UInt8.toNat h0
    rw [UInt8.toNat_ofNat', h.nameLen] at hval
    unfold dirEntryMaxName at hshort
    have hmod : e.name.length % 2 ^ 8 = 0 := hval
    omega
  refine all_eq_false.mpr ⟨UInt8.ofNat e.nameLen, mem_append_left _ (mem_cons_self ..), ?_⟩
  rw [decide_eq_true_eq]
  exact hfirst

/-- The bytes that a page's entries take. -/
def entriesLen (entries : List DirEntry) : ℕ := (entries.map DirEntry.encodedLen).sum

theorem exists_encodeEntries : ∀ {entries : List DirEntry} {room : ℕ}, (∀ e ∈ entries, e.Valid) →
    entriesLen entries ≤ room → ∃ bytes, encodeEntries entries room = some bytes ∧ bytes.length = room
  | [], room, _, _ => ⟨List.replicate room 0, rfl, length_replicate⟩
  | e :: entries, room, h, hlen => by
    obtain ⟨he, hes⟩ := forall_mem_cons.mp h
    rw [entriesLen, map_cons, sum_cons] at hlen
    obtain ⟨behind, hb, hblen⟩ := exists_encodeEntries hes (show entriesLen entries ≤ room - e.encodedLen from
      Nat.le_sub_of_add_le (by rw [entriesLen]; omega))
    refine ⟨e.bytes ++ behind, ?_, ?_⟩
    · rw [encodeEntries, encodeInto, if_neg, hb]
      · rfl
      · rintro (hroom | hname)
        · omega
        · exact hname he.nameLen.symm
    · rw [length_append, hblen, length_bytes, ← he.nameLen]
      unfold encodedLen at hlen ⊢
      omega

/-- **The entries of a page** are read back, and zeros are left. -/
theorem decodeEntries_encodeEntries : ∀ {entries : List DirEntry} {room : ℕ} {bytes : Bytes},
    (∀ e ∈ entries, e.Valid) → encodeEntries entries room = some bytes →
    ∃ n, decodeEntries entries.length bytes = (entries, List.replicate n 0)
  | [], room, bytes, _, h => by
    obtain rfl := some.inj h
    exact ⟨room, rfl⟩
  | e :: entries, room, bytes, hvalid, h => by
    obtain ⟨he, hes⟩ := forall_mem_cons.mp hvalid
    unfold encodeEntries encodeInto at h
    split_ifs at h with hfit
    · exact nomatch h
    · obtain ⟨written, hwritten, h⟩ := bind_eq_some_iff.mp h
      obtain ⟨behind, hb, hbytes⟩ := bind_eq_some_iff.mp h
      obtain rfl := some.inj hwritten
      obtain rfl := some.inj hbytes
      obtain ⟨n, hn⟩ := decodeEntries_encodeEntries hes hb
      refine ⟨n, ?_⟩
      have hlen : ¬ (e.bytes ++ behind).length < dirEntryHeaderLen := by
        rw [length_append, length_bytes]
        omega
      have hdrop : (e.bytes ++ behind).drop e.encodedLen = behind :=
        drop_left' (by rw [length_bytes, encodedLen, he.nameLen])
      rw [length_cons, decodeEntries, if_neg hlen, not_padding he, if_neg Bool.false_ne_true,
        decode_encode he]
      dsimp only
      rw [hdrop, hn]

/-- A page that can be written. -/
structure DirPage.Valid (p : DirPage) : Prop where
  entries : ∀ e ∈ p.entries, e.Valid
  entryCount : p.entryCount = p.entries.length
  fits : p.bytesUsed ≤ dirPageEntriesArea
  pageNumber : p.pageNumber < 2 ^ 32
  flags : p.flags < 2 ^ 16

/-- An entry has its header at least, so a page has few of them. -/
theorem length_le_entriesLen : ∀ entries : List DirEntry, 26 * entries.length ≤ entriesLen entries
  | [] => le_rfl
  | e :: entries => by
    have ih := length_le_entriesLen entries
    rw [entriesLen, map_cons, sum_cons, length_cons]
    unfold entriesLen at ih
    unfold encodedLen dirEntryHeaderLen at *
    omega

theorem DirPage.length_header (p : DirPage) : p.header.length = dirPageHeaderLen := by
  simp [header, dirPageMagic, dirPageHeaderLen]

/-- **A page** is read back. -/
theorem DirPage.decode_encode (h : p.Valid) : ∃ bytes, p.encode = some bytes ∧ bytes.length = dirPageSize ∧
    decode bytes = some p := by
  obtain ⟨behind, hb, hlen⟩ := exists_encodeEntries h.entries h.fits
  refine ⟨p.header ++ behind, by rw [encode, hb]; rfl, by rw [length_append, length_header, hlen]; rfl, ?_⟩
  obtain ⟨n, hn⟩ := decodeEntries_encodeEntries h.entries hb
  have hcount : p.entryCount < 256 ^ 2 := by
    have hfew := length_le_entriesLen p.entries
    have hfits : entriesLen p.entries ≤ dirPageEntriesArea := h.fits
    rw [h.entryCount]
    unfold dirPageEntriesArea dirPageSize dirPageHeaderLen at hfits
    omega
  have f1 : ((p.header ++ behind).drop 4).take 4 = toLe 4 p.pageNumber := by
    simp only [header, append_assoc]
    exact take_drop_append rfl (length_toLe 4 _)
  have f2 : ((p.header ++ behind).drop 8).take 2 = toLe 2 p.entryCount := by
    simp only [header, append_assoc]
    rw [← append_assoc dirPageMagic]
    exact take_drop_append (by simp [dirPageMagic]) (length_toLe 2 _)
  have f3 : ((p.header ++ behind).drop 10).take 2 = toLe 2 p.flags := by
    simp only [header, append_assoc]
    rw [← append_assoc (toLe 4 p.pageNumber), ← append_assoc dirPageMagic]
    exact take_drop_append (by simp [dirPageMagic]) (length_toLe 2 _)
  have hmagic : (p.header ++ behind).take 4 = dirPageMagic := by
    simp only [header, append_assoc]
    exact take_left' rfl
  have g1 : fromLe (toLe 4 p.pageNumber) = p.pageNumber := fromLe_toLe h.pageNumber
  have g2 : fromLe (toLe 2 p.entryCount) = p.entryCount := fromLe_toLe hcount
  have g3 : fromLe (toLe 2 p.flags) = p.flags := fromLe_toLe h.flags
  unfold decode
  dsimp only
  rw [if_neg (by rw [hmagic]; exact fun h => h rfl), f1, f2, f3, g1, g2, g3, drop_left' (length_header p)]
  rw [← h.entryCount] at hn
  rw [hn]
  rw [if_neg (fun hne => hne h.entryCount.symm), if_neg (by simp)]

end Tidefs.DirIndex
