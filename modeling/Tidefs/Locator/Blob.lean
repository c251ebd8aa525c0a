/-
# The slots of a locator table and their bytes

A slot of a locator table is an entry with a logical offset; two offsets at the top of the
range mark empty slots and slots that were freed. The slots of both regions of an inode are
written out whole, each region after its number of slots. Blobs of an earlier version and
of the version before that, with one region and no version byte, are read too.
-/
import Tidefs.Lib.Codec

namespace Tidefs.Locator

open Codec Nat
open List hiding Vector cons isEmpty length nil

abbrev U64 := Fin (2 ^ 64)

/-- Where an extent of a file is stored. -/
structure LocatorEntry where
  logicalOffset : U64
  extentId : U64
  deviceId : U64
  physicalOffset : U64
  length : Fin (2 ^ 32)
  flags : UInt8
  checksum : Vector UInt8 32
deriving DecidableEq

def emptySentinel : U64 := 18446744073709551615

def tombstoneSentinel : U64 := 18446744073709551614

namespace LocatorEntry

def new (logicalOffset extentId deviceId physicalOffset : U64) (length : Fin (2 ^ 32)) (flags : UInt8) : LocatorEntry :=
  ⟨logicalOffset, extentId, deviceId, physicalOffset, length, flags, Vector.replicate 32 0⟩

def empty : LocatorEntry := ⟨emptySentinel, 0, 0, 0, 0, 0, Vector.replicate 32 0⟩

def tombstone : LocatorEntry := ⟨tombstoneSentinel, 0, 0, 0, 0, 0, Vector.replicate 32 0⟩

def isEmpty (e : LocatorEntry) : Bool := e.logicalOffset == emptySentinel

def isTombstone (e : LocatorEntry) : Bool := e.logicalOffset == tombstoneSentinel

def isLive (e : LocatorEntry) : Bool := e.logicalOffset != emptySentinel && e.logicalOffset != tombstoneSentinel

end LocatorEntry

/-! ### Writing -/

def formatVersion : UInt8 := 2

def entryBytes : ℕ := 69

def entryBytesV1 : ℕ := 29

def entryFields (e : LocatorEntry) : List (List UInt8) :=
  [toLe 8 e.logicalOffset, toLe 8 e.extentId, toLe 8 e.deviceId, toLe 8 e.physicalOffset, toLe 4 e.length, [e.flags],
    e.checksum.toList]

def serializeEntry (e : LocatorEntry) : List UInt8 := (entryFields e).flatten

def serializeRegion (slots : List LocatorEntry) : List UInt8 := toLe 8 slots.length ++ slots.flatMap serializeEntry

def serializeBlob (primary secondary : List LocatorEntry) : List UInt8 :=
  formatVersion :: (serializeRegion primary ++ serializeRegion secondary)

/-! ### Reading -/

def readU64 (buf : List UInt8) (start : ℕ) : U64 := Fin.ofNat _ (fromLe (slice buf start 8))

def readU32 (buf : List UInt8) (start : ℕ) : Fin (2 ^ 32) := Fin.ofNat _ (fromLe (slice buf start 4))

/-- Bytes as an array of 32. -/
def readChecksum (buf : List UInt8) : Vector UInt8 32 := Vector.ofFn fun i => buf.getD i 0

def deserializeEntry (buf : List UInt8) : LocatorEntry :=
  ⟨readU64 buf 0, readU64 buf 8, readU64 buf 16, readU64 buf 24, readU32 buf 32, (slice buf 36 1).headD 0,
    readChecksum (slice buf 37 32)⟩

/-- Entries of the first version have no device and no checksum. -/
def deserializeEntryV1 (buf : List UInt8) : LocatorEntry :=
  ⟨readU64 buf 0, readU64 buf 8, 0, readU64 buf 16, readU32 buf 24, (slice buf 28 1).headD 0, Vector.replicate 32 0⟩

/-- A region of entries of a size: truncated data is refused, what follows the entries is left. -/
def deserializeRegionOf (size : ℕ) (entry : List UInt8 → LocatorEntry) (data : List UInt8) :
    Option (List LocatorEntry) :=
  if data.length < 8 then none
  else
    let capacity := fromLe (data.take 8)
    let expected := 8 + capacity * size
    if data.length < expected then none
    else some ((List.range capacity).map fun i => entry (slice data (8 + i * size) size))

def deserializeRegion : List UInt8 → Option (List LocatorEntry) := deserializeRegionOf entryBytes deserializeEntry

def deserializeRegionV1 : List UInt8 → Option (List LocatorEntry) :=
  deserializeRegionOf entryBytesV1 deserializeEntryV1

/-- Two regions of entries of a size behind a version byte. -/
def deserializeTwo (size : ℕ) (region : List UInt8 → Option (List LocatorEntry)) (data : List UInt8) :
    Option (List LocatorEntry × List LocatorEntry) :=
  if data.length < 9 then none
  else do
    let primary ← region (data.drop 1)
    let secStart := 1 + (8 + primary.length * size)
    let secondary ← region (data.drop secStart)
    some (primary, secondary)

def deserializeBlob (data : List UInt8) : Option (List LocatorEntry × List LocatorEntry) :=
  match data with
  | [] => none
  | version :: _ =>
    if version = 2 then deserializeTwo entryBytes deserializeRegion data
    else if version = 1 then deserializeTwo entryBytesV1 deserializeRegionV1 data
    else do
      let primary ← deserializeRegionV1 data
      some (primary, replicate primary.length .empty)

/-! ### Reading back -/

theorem length_serializeEntry (e : LocatorEntry) : (serializeEntry e).length = entryBytes := by
  simp [serializeEntry, entryFields, entryBytes]

theorem readU64_field {e : LocatorEntry} {i start : ℕ} {x : U64} (hget : (entryFields e)[i]? = some (toLe 8 x))
    (hstart : (((entryFields e).take i).map List.length).sum = start) : readU64 (serializeEntry e) start = x := by
  rw [readU64, serializeEntry, slice_flatten hget hstart (length_toLe 8 _), fromLe_toLe x.isLt]
  exact Fin.ofNat_val_eq_self x

theorem readChecksum_toList (v : Vector UInt8 32) : readChecksum v.toList = v := by
  apply Vector.ext
  intro i hi
  simp [readChecksum]

/-- **An entry reads back.** -/
theorem deserializeEntry_serialize (e : LocatorEntry) : deserializeEntry (serializeEntry e) = e := by
  have hlength : readU32 (serializeEntry e) 32 = e.length := by
    have hslice : slice (serializeEntry e) 32 4 = toLe 4 e.length :=
      @slice_flatten (entryFields e) 4 32 4 _ rfl (by simp [entryFields]) (length_toLe 4 _)
    rw [readU32, hslice, fromLe_toLe e.length.isLt]
    exact Fin.ofNat_val_eq_self e.length
  have hflags : (slice (serializeEntry e) 36 1).headD 0 = e.flags := by
    have hslice : slice (serializeEntry e) 36 1 = [e.flags] :=
      @slice_flatten (entryFields e) 5 36 1 _ rfl (by simp [entryFields]) rfl
    rw [hslice]
    rfl
  have hchecksum : readChecksum (slice (serializeEntry e) 37 32) = e.checksum := by
    have hslice : slice (serializeEntry e) 37 32 = e.checksum.toList :=
      @slice_flatten (entryFields e) 6 37 32 _ rfl (by simp [entryFields]) (by simp)
    rw [hslice, readChecksum_toList]
  have h0 : readU64 (serializeEntry e) 0 = e.logicalOffset := @readU64_field e 0 0 _ rfl (by simp [entryFields])
  have h1 : readU64 (serializeEntry e) 8 = e.extentId := @readU64_field e 1 8 _ rfl (by simp [entryFields])
  have h2 : readU64 (serializeEntry e) 16 = e.deviceId := @readU64_field e 2 16 _ rfl (by simp [entryFields])
  have h3 : readU64 (serializeEntry e) 24 = e.physicalOffset := @readU64_field e 3 24 _ rfl (by simp [entryFields])
  rw [deserializeEntry, h0, h1, h2, h3, hlength, hflags, hchecksum]

theorem slice_entries : ∀ (slots : List LocatorEntry) (i : ℕ) (e : LocatorEntry) (rest : List UInt8),
    slots[i]? = some e → slice (slots.flatMap serializeEntry ++ rest) (i * entryBytes) entryBytes = serializeEntry e
  | [], _, _, _, h => by cases h
  | first :: slots, 0, e, rest, h => by
    obtain rfl : first = e := Option.some.inj h
    rw [slice, zero_mul, drop_zero, flatMap_cons, append_assoc]
    exact take_left' (length_serializeEntry _)
  | first :: slots, i + 1, e, rest, h => by
    have hrest := slice_entries slots i e rest h
    have hskip : (i + 1) * entryBytes = entryBytes + i * entryBytes := by rw [add_one_mul, add_comm]
    rw [slice] at hrest ⊢
    rw [flatMap_cons, append_assoc, hskip, ← drop_drop, drop_left' (length_serializeEntry first), hrest]

theorem length_entries (slots : List LocatorEntry) :
    (slots.flatMap serializeEntry).length = slots.length * entryBytes := by
  induction slots with
  | nil => rw [flatMap_nil, length_nil, length_nil, zero_mul]
  | cons e slots ih =>
    rw [flatMap_cons, length_append, length_serializeEntry, ih, length_cons, add_one_mul, add_comm]

/-- **A region reads back**, whatever follows it. -/
theorem deserializeRegion_serialize {slots : List LocatorEntry} (hsmall : slots.length < 2 ^ 64) (rest : List UInt8) :
    deserializeRegion (serializeRegion slots ++ rest) = some slots := by
  have hlength : (serializeRegion slots ++ rest).length = 8 + slots.length * entryBytes + rest.length := by
    rw [serializeRegion, length_append, length_append, length_toLe, length_entries]
  have hcapacity : fromLe ((serializeRegion slots ++ rest).take 8) = slots.length := by
    rw [serializeRegion, append_assoc, take_left' (length_toLe 8 _), fromLe_toLe hsmall]
  rw [deserializeRegion, deserializeRegionOf, if_neg (by rw [hlength]; omega), hcapacity]
  rw [if_neg (by rw [hlength]; omega)]
  refine congrArg some (ext_getElem? fun i => ?_)
  rw [getElem?_map]
  rcases lt_or_ge i slots.length with hi | hi
  · have hslice : slice (serializeRegion slots ++ rest) (8 + i * entryBytes) entryBytes = serializeEntry slots[i] := by
      have hentry := slice_entries slots i slots[i] rest (getElem?_eq_getElem hi)
      rw [slice] at hentry ⊢
      rw [serializeRegion, append_assoc, ← drop_drop, drop_left' (length_toLe 8 _), hentry]
    rw [getElem?_range hi, getElem?_eq_getElem hi, Option.map_some, hslice, deserializeEntry_serialize]
  · rw [getElem?_eq_none_iff.mpr hi, getElem?_eq_none_iff.mpr (by rw [length_range]; exact hi)]
    rfl

/-- **A blob reads back.** -/
theorem deserializeBlob_serialize {primary secondary : List LocatorEntry} (hprimary : primary.length < 2 ^ 64)
    (hsecondary : secondary.length < 2 ^ 64) :
    deserializeBlob (serializeBlob primary secondary) = some (primary, secondary) := by
  set blob := serializeBlob primary secondary with hblob
  have hregion : (serializeRegion primary).length = 8 + primary.length * entryBytes := by
    rw [serializeRegion, length_append, length_toLe, length_entries]
  have hlength : ¬ blob.length < 9 := by
    rw [hblob, serializeBlob, length_cons, length_append, hregion]
    omega
  have hfirst : deserializeRegion (blob.drop 1) = some primary :=
    deserializeRegion_serialize hprimary _
  have hsecond : deserializeRegion (blob.drop (1 + (8 + primary.length * entryBytes))) =
      some secondary := by
    have hdrop : blob.drop (1 + (8 + primary.length * entryBytes)) =
        serializeRegion secondary ++ [] := by
      rw [append_nil, ← drop_drop]
      exact drop_left' hregion
    rw [hdrop]
    exact deserializeRegion_serialize hsecondary []
  have hversion : deserializeBlob blob =
      deserializeTwo entryBytes deserializeRegion blob := by
    simp only [hblob, serializeBlob, deserializeBlob, formatVersion, if_true]
  rw [hversion, deserializeTwo, if_neg hlength, hfirst]
  dsimp only [Option.bind_eq_bind, Option.bind_some]
  rw [hsecond]
  rfl

end Tidefs.Locator
