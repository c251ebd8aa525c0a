/-
# Records of the local object store

A record is a header of 96 bytes, a payload, a footer of 16 bytes and an integrity
trailer of 112 bytes. The header has a commit marker over its fields and a checksum over
its bytes; the footer has a marker of its own; the trailer has digests of the payload and
of the whole record.

Each part of a record that was written is accepted (`decodeHeader_encode`,
`decodeFooter_encode`, `verify_encode`). The digest with a derived key is a parameter.
-/
import Tidefs.Lib.Codec
import Tidefs.Lib.Ordered

namespace Tidefs.ObjectStore

open Codec List

abbrev Bytes32 := {bytes : Bytes // bytes.length = 32}

theorem length_zeroes : (replicate 32 (0 : UInt8)).length = 32 := length_replicate

abbrev ObjectKey := Bytes32

def recordHeaderLen : ℕ := 96

def recordFooterLen : ℕ := 16

def integrityTrailerV2Len : ℕ := 112

def recordFormatVersionV1NoFooter : UInt16 := 1

def recordFormatVersionV2Footer : UInt16 := 2

def recordFormatVersion : UInt16 := 3

/-- `VLOSREC1` -/
def recordMagic : Bytes := [0x56, 0x4c, 0x4f, 0x53, 0x52, 0x45, 0x43, 0x31]

/-- `VLOSEND2` -/
def recordFooterMagic : Bytes := [0x56, 0x4c, 0x4f, 0x53, 0x45, 0x4e, 0x44, 0x32]

/-- `VLOSINT4` -/
def integrityTrailerV2Magic : Bytes := [0x56, 0x4c, 0x4f, 0x53, 0x49, 0x4e, 0x54, 0x34]

/-- `VLOSSEGF` -/
def segmentIntegrityFooterMagic : Bytes := [0x56, 0x4c, 0x4f, 0x53, 0x53, 0x45, 0x47, 0x46]

def integrityTrailerV2DigestSuiteId : UInt16 := 1

/-- A record puts an object or deletes it. -/
inductive RecordKind where
  | put
  | delete
deriving DecidableEq

def RecordKind.asU16 : RecordKind → UInt16
  | put => 1
  | delete => 2

def RecordKind.tryFrom (value : UInt16) : Option RecordKind :=
  if value = 1 then some put else if value = 2 then some delete else none

/-- The header of a record. -/
structure RecordHeader where
  formatVersion : UInt16
  kind : RecordKind
  sequence : UInt64
  key : ObjectKey
  payloadLen : UInt64
  payloadChecksum : UInt64
  compressionAlgorithm : UInt8
deriving DecidableEq

/-- The errors of a replay, with the place in the segment. -/
inductive StoreError where
  | payloadTooLarge (len max : ℕ)
  | corruptHeader (segmentId offset : ℕ) (reason : String)
  | unsupportedVersion (segmentId offset : ℕ) (version : UInt16)
  | unknownRecordKind (segmentId offset : ℕ) (kind : UInt16)
  | checksumMismatch (segmentId offset : ℕ) (expected actual : UInt64)
  | productionIntegrityMismatch (segmentId offset : ℕ) (field : String) (expected actual : Bytes)
  | invalidOptions (reason : String)
  | noSpace
deriving DecidableEq

/-! ### Checksums -/

def rotateLeft (x k : UInt64) : UInt64 := (x <<< k) ||| (x >>> (64 - k))

def fnvOffsetBasis : UInt64 := 0xcbf29ce484222325

def fnvPrime : UInt64 := 0x00000100000001b3

def headerChecksumSeed : UInt64 := 0x5649424546534831

def payloadChecksumSeed : UInt64 := 0x5649424546535031

def footerChecksumSeed : UInt64 := 0x5649424546534632

def keyDeriveSeed : UInt64 := 0x5649424546534b31

def commitMarkerBase : UInt64 := 0xc0a1f00dd15ca11d

def checksum64Continue (bytes : Bytes) (state : UInt64) : UInt64 :=
  bytes.foldl (fun state byte =>
    let state := (state ^^^ byte.toUInt64) * fnvPrime
    state ^^^ rotateLeft state 23) state

def checksum64WithSeed (bytes : Bytes) (seed : UInt64) : UInt64 := checksum64Continue bytes (fnvOffsetBasis ^^^ seed)

def checksum64 (bytes : Bytes) : UInt64 :=
  checksum64Continue bytes (checksum64WithSeed (toLe 8 bytes.length) payloadChecksumSeed)

def commitMarker (kind : RecordKind) (sequence payloadLen payloadChecksum : UInt64) (key : ObjectKey) : UInt64 :=
  commitMarkerBase ^^^ rotateLeft kind.asU16.toUInt64 3 ^^^ rotateLeft sequence 11 ^^^ rotateLeft payloadLen 29 ^^^
    rotateLeft payloadChecksum 41 ^^^ rotateLeft (checksum64WithSeed key.1 keyDeriveSeed) 7

def footerMarker (record : RecordHeader) : UInt64 :=
  checksum64WithSeed record.key.1 footerChecksumSeed ^^^ rotateLeft record.formatVersion.toUInt64 5 ^^^
    rotateLeft record.kind.asU16.toUInt64 13 ^^^ rotateLeft record.sequence 17 ^^^ rotateLeft record.payloadLen 31 ^^^
    rotateLeft record.payloadChecksum 47

/-- The checksum of a header, its own bytes taken as zeros. -/
def checksumHeader (src : Bytes) : UInt64 :=
  checksum64WithSeed (src.take 40 ++ toLe 8 0 ++ src.drop 48) headerChecksumSeed

/-! ### Numbers at fixed places -/

def writeU16 (value : UInt16) : Bytes := toLe 2 value.toNat

def writeU64 (value : UInt64) : Bytes := toLe 8 value.toNat

def readU16 (src : Bytes) : UInt16 := UInt16.ofNat (fromLe src)

def readU64 (src : Bytes) : UInt64 := UInt64.ofNat (fromLe src)

@[simp] theorem readU16_writeU16 (value : UInt16) : readU16 (writeU16 value) = value := by
  have hlt : value.toNat < 256 ^ 2 := lt_of_lt_of_le value.toNat_lt (by norm_num)
  rw [readU16, writeU16, fromLe_toLe hlt, UInt16.ofNat_toNat]

@[simp] theorem readU64_writeU64 (value : UInt64) : readU64 (writeU64 value) = value := by
  have hlt : value.toNat < 256 ^ 8 := lt_of_lt_of_le value.toNat_lt (by norm_num)
  rw [readU64, writeU64, fromLe_toLe hlt, UInt64.ofNat_toNat]

@[simp] theorem length_writeU64 (value : UInt64) : (writeU64 value).length = 8 := length_toLe 8 _

/-! ### Headers -/

def headerFields (record : RecordHeader) (checksum : UInt64) : List Bytes :=
  [recordMagic, writeU16 record.formatVersion, writeU16 record.kind.asU16, writeU16 96, [record.compressionAlgorithm],
    [0], writeU64 record.sequence, writeU64 record.payloadLen, writeU64 record.payloadChecksum, writeU64 checksum,
    writeU64 (commitMarker record.kind record.sequence record.payloadLen record.payloadChecksum record.key),
    record.key.1, writeU64 0]

/-- The header is written with a checksum of zero, and the checksum of that put in. -/
def encodeHeader (record : RecordHeader) : Bytes :=
  (headerFields record (checksumHeader (headerFields record 0).flatten)).flatten

def decodeHeader (src : {src : Bytes // src.length = recordHeaderLen}) (segmentId offset : ℕ) :
    Except StoreError RecordHeader :=
  if slice src.1 0 8 ≠ recordMagic then
    .error (.corruptHeader segmentId offset "record magic does not match local object-store format")
  else
    let version := readU16 (slice src.1 8 2)
    if version ≠ recordFormatVersionV1NoFooter ∧ version ≠ recordFormatVersionV2Footer ∧ version ≠ recordFormatVersion then
      .error (.unsupportedVersion segmentId offset version)
    else
      match RecordKind.tryFrom (readU16 (slice src.1 10 2)) with
      | none => .error (.unknownRecordKind segmentId offset (readU16 (slice src.1 10 2)))
      | some kind =>
        if readU16 (slice src.1 12 2) ≠ 96 then
          .error (.corruptHeader segmentId offset "record header length is not supported")
        else if slice src.1 15 1 ≠ [0] ∨ readU64 (slice src.1 88 8) ≠ 0 then
          .error (.corruptHeader segmentId offset "reserved header bytes are not zero")
        else
          let sequence := readU64 (slice src.1 16 8)
          let payloadLen := readU64 (slice src.1 24 8)
          let payloadChecksum := readU64 (slice src.1 32 8)
          let key : ObjectKey := ⟨slice src.1 56 32, by simp [slice, src.2, recordHeaderLen]⟩
          if readU64 (slice src.1 48 8) ≠ commitMarker kind sequence payloadLen payloadChecksum key then
            .error (.corruptHeader segmentId offset "commit marker does not match the record fields")
          else if readU64 (slice src.1 40 8) ≠ checksumHeader src.1 then
            .error (.corruptHeader segmentId offset "header checksum does not match the record fields")
          else .ok ⟨version, kind, sequence, key, payloadLen, payloadChecksum, (slice src.1 14 1).headD 0⟩

theorem length_headerFields (record : RecordHeader) (checksum : UInt64) :
    (headerFields record checksum).flatten.length = recordHeaderLen := by
  simp [headerFields, recordMagic, writeU16, writeU64, record.key.2, recordHeaderLen]

theorem length_encodeHeader (record : RecordHeader) : (encodeHeader record).length = recordHeaderLen :=
  length_headerFields record _

/-- The checksum of a header does not depend on the checksum in it. -/
theorem checksumHeader_fields (record : RecordHeader) (checksum : UInt64) :
    checksumHeader (headerFields record checksum).flatten = checksumHeader (headerFields record 0).flatten := by
  have hcut : ∀ c, (headerFields record c).flatten.take 40 ++ toLe 8 0 ++ (headerFields record c).flatten.drop 48 =
      (headerFields record 0).flatten := fun c => by
    have hflat : (headerFields record c).flatten =
        ((headerFields record 0).take 9).flatten ++ (writeU64 c ++ ((headerFields record 0).drop 10).flatten) := rfl
    have hbefore : ((headerFields record 0).take 9).flatten.length = 40 := rfl
    have hafter : (((headerFields record 0).take 9).flatten ++ writeU64 c).length = 48 := rfl
    rw [hflat, take_left' hbefore, ← append_assoc, drop_left' hafter]
    rfl
  rw [checksumHeader, checksumHeader, hcut, hcut]

theorem tryFrom_asU16 (kind : RecordKind) : RecordKind.tryFrom kind.asU16 = some kind := by cases kind <;> rfl

variable {record : RecordHeader}

/-- Fields under their checksum are read back. -/
theorem decodeHeader_fields {checksum : UInt64} (src : {src : Bytes // src.length = recordHeaderLen})
    (hsrc : src.1 = (headerFields record checksum).flatten) (hversion : record.formatVersion = recordFormatVersion)
    (hchecksum : checksumHeader src.1 = checksum) (segmentId offset : ℕ) :
    decodeHeader src segmentId offset = .ok record := by
  obtain ⟨src, hsize⟩ := src
  dsimp only at hsrc hchecksum
  have hmagic : slice src 0 8 = recordMagic := hsrc ▸ rfl
  have hvers : slice src 8 2 = writeU16 record.formatVersion := hsrc ▸ rfl
  have hkind : slice src 10 2 = writeU16 record.kind.asU16 := hsrc ▸ rfl
  have hlen : slice src 12 2 = writeU16 96 := hsrc ▸ rfl
  have hcomp : slice src 14 1 = [record.compressionAlgorithm] := hsrc ▸ rfl
  have hzero : slice src 15 1 = [0] := hsrc ▸ rfl
  have hseq : slice src 16 8 = writeU64 record.sequence := hsrc ▸ rfl
  have hplen : slice src 24 8 = writeU64 record.payloadLen := hsrc ▸ rfl
  have hpsum : slice src 32 8 = writeU64 record.payloadChecksum := hsrc ▸ rfl
  have hsum : slice src 40 8 = writeU64 checksum := hsrc ▸ rfl
  have hmarker : slice src 48 8 = writeU64
      (commitMarker record.kind record.sequence record.payloadLen record.payloadChecksum record.key) := hsrc ▸ rfl
  have hkey : slice src 56 32 = record.key.1 := by
    rw [hsrc]
    exact @slice_flatten (headerFields record checksum) 11 56 32 record.key.1 rfl rfl record.key.2
  have hreserved : slice src 88 8 = writeU64 0 := by
    rw [hsrc]
    exact @slice_flatten (headerFields record checksum) 12 88 8 (writeU64 0) rfl
      (by simp [headerFields, recordMagic, writeU16, record.key.2]) rfl
  have hok : ¬ (record.formatVersion ≠ recordFormatVersionV1NoFooter ∧
      record.formatVersion ≠ recordFormatVersionV2Footer ∧ record.formatVersion ≠ recordFormatVersion) :=
    fun h => h.2.2 hversion
  unfold decodeHeader
  simp only [hmagic, hvers, hkind, hlen, hcomp, hzero, hseq, hplen, hpsum, hsum, hmarker, hkey, hreserved,
    readU16_writeU16, readU64_writeU64, tryFrom_asU16, hchecksum, ne_eq, not_true_eq_false, if_false, or_self, if_neg hok,
    headD_cons]

/-- **A header that was written is read back.** -/
theorem decodeHeader_encode (hversion : record.formatVersion = recordFormatVersion) (segmentId offset : ℕ) :
    decodeHeader ⟨encodeHeader record, length_encodeHeader record⟩ segmentId offset = .ok record :=
  decodeHeader_fields _ rfl hversion (checksumHeader_fields record _) segmentId offset

/-! ### Footers -/

def encodeFooter (record : RecordHeader) : Bytes := recordFooterMagic ++ writeU64 (footerMarker record)

def decodeFooter (src : Bytes) (record : RecordHeader) (segmentId offset : ℕ) : Except StoreError Unit :=
  if slice src 0 8 ≠ recordFooterMagic then
    .error (.corruptHeader segmentId offset "record footer magic does not match local object-store format")
  else if readU64 (slice src 8 8) ≠ footerMarker record then
    .error (.corruptHeader segmentId offset "record footer commit marker does not match the record fields")
  else .ok ()

theorem length_encodeFooter (record : RecordHeader) : (encodeFooter record).length = recordFooterLen := rfl

theorem decodeFooter_encode (record : RecordHeader) (segmentId offset : ℕ) :
    decodeFooter (encodeFooter record) record segmentId offset = .ok () := by
  have hmagic : slice (encodeFooter record) 0 8 = recordFooterMagic := rfl
  have hmarker : slice (encodeFooter record) 8 8 = writeU64 (footerMarker record) := rfl
  rw [decodeFooter, hmagic, hmarker, readU64_writeU64, if_neg (not_not.mpr rfl), if_neg (not_not.mpr rfl)]

/-! ### Integrity trailers -/

structure IntegrityTrailerV2 where
  formatVersion : UInt16
  digestSuite : UInt16
  payloadDigest : Bytes32
  recordDigest : Bytes32
  shardCount : UInt8
  shardIndex : UInt8
  ecK : UInt8
  ecM : UInt8

def trailerFields (trailer : IntegrityTrailerV2) : List Bytes :=
  [integrityTrailerV2Magic, writeU16 trailer.formatVersion, writeU16 trailer.digestSuite, writeU16 112, writeU16 0,
    trailer.payloadDigest.1, trailer.recordDigest.1, [trailer.shardCount], [trailer.shardIndex], [trailer.ecK],
    [trailer.ecM], List.replicate 28 0]

def encodeIntegrityTrailerV2 (trailer : IntegrityTrailerV2) : Bytes := (trailerFields trailer).flatten

/-- The errors name no segment. The reserved bytes at the end are not looked at. -/
def decodeIntegrityTrailerV2 (src : {src : Bytes // src.length = integrityTrailerV2Len}) :
    Except StoreError IntegrityTrailerV2 :=
  if slice src.1 0 8 ≠ integrityTrailerV2Magic then
    .error (.corruptHeader 0 0 "production integrity trailer magic does not match local object-store format")
  else if readU16 (slice src.1 10 2) ≠ integrityTrailerV2DigestSuiteId then
    .error (.corruptHeader 0 10 "production integrity digest suite is not supported")
  else if readU16 (slice src.1 12 2) ≠ 112 then
    .error (.corruptHeader 0 12 "production integrity trailer length is not supported")
  else if readU16 (slice src.1 14 2) ≠ 0 then
    .error (.corruptHeader 0 14 "production integrity trailer reserved bytes are not zero")
  else
    .ok ⟨readU16 (slice src.1 8 2), readU16 (slice src.1 10 2),
      ⟨slice src.1 16 32, by simp [slice, src.2, integrityTrailerV2Len]⟩,
      ⟨slice src.1 48 32, by simp [slice, src.2, integrityTrailerV2Len]⟩,
      (slice src.1 80 1).headD 0, (slice src.1 81 1).headD 0, (slice src.1 82 1).headD 0, (slice src.1 83 1).headD 0⟩

theorem length_encodeIntegrityTrailerV2 (trailer : IntegrityTrailerV2) :
    (encodeIntegrityTrailerV2 trailer).length = integrityTrailerV2Len := by
  simp [encodeIntegrityTrailerV2, trailerFields, integrityTrailerV2Magic, writeU16, trailer.payloadDigest.2,
    trailer.recordDigest.2, integrityTrailerV2Len]

/-- **A trailer that was written is read back.** -/
theorem decodeIntegrityTrailerV2_encode {trailer : IntegrityTrailerV2}
    (hsuite : trailer.digestSuite = integrityTrailerV2DigestSuiteId) :
    decodeIntegrityTrailerV2 ⟨encodeIntegrityTrailerV2 trailer, length_encodeIntegrityTrailerV2 trailer⟩ =
      .ok trailer := by
  let out := encodeIntegrityTrailerV2 trailer
  have hmagic : slice out 0 8 = integrityTrailerV2Magic := rfl
  have hvers : slice out 8 2 = writeU16 trailer.formatVersion := rfl
  have hdigest : slice out 10 2 = writeU16 trailer.digestSuite := rfl
  have hlen : slice out 12 2 = writeU16 112 := rfl
  have hzero : slice out 14 2 = writeU16 0 := rfl
  have hpayload : slice out 16 32 = trailer.payloadDigest.1 :=
    @slice_flatten (trailerFields trailer) 5 16 32 _ rfl rfl trailer.payloadDigest.2
  have hsum : ∀ i, 5 < i → i ≤ 7 → ((take i (trailerFields trailer)).map length).sum = 32 * (i - 5) + 16 := by
    intro i h1 h2
    interval_cases i <;>
      simp [trailerFields, integrityTrailerV2Magic, writeU16, trailer.payloadDigest.2, trailer.recordDigest.2]
  have hrecord : slice out 48 32 = trailer.recordDigest.1 :=
    @slice_flatten (trailerFields trailer) 6 48 32 _ rfl (hsum 6 (by decide) (by decide)) trailer.recordDigest.2
  have hbytes : slice out 80 4 =
      [trailer.shardCount, trailer.shardIndex, trailer.ecK, trailer.ecM] := by
    have hflat : out = ((trailerFields trailer).take 7).flatten ++
        ([trailer.shardCount, trailer.shardIndex, trailer.ecK, trailer.ecM] ++ replicate 28 0) := by
      simp [out, encodeIntegrityTrailerV2, trailerFields]
    have hbefore : ((trailerFields trailer).take 7).flatten.length = 80 := by
      rw [length_flatten, hsum 7 (by decide) (by decide)]
    rw [slice, hflat, drop_left' hbefore]
    rfl
  have hbyte : ∀ k < 4, (slice out (80 + k) 1).headD 0 =
      [trailer.shardCount, trailer.shardIndex, trailer.ecK, trailer.ecM].getD k 0 := by
    intro k hk
    rw [← hbytes, slice, slice, headD_eq_head?_getD, head?_take, if_neg one_ne_zero, head?_drop,
      getD_eq_getElem?_getD, getElem?_take, if_pos hk, getElem?_drop]
  show decodeIntegrityTrailerV2 ⟨out, _⟩ = _
  unfold decodeIntegrityTrailerV2
  simp only [hmagic, hvers, hdigest, hlen, hzero, hpayload, hrecord, readU16_writeU16, hsuite, ne_eq, not_true_eq_false,
    if_false, hbyte 0 (by decide), hbyte 1 (by decide), hbyte 2 (by decide), hbyte 3 (by decide)]
  rw [← hsuite]
  rfl

/-! ### Digests -/

def domainForKind : RecordKind → String
  | .put => "tidefs.put_record.v1"
  | .delete => "tidefs.delete_record.v1"

section Digests

variable (deriveKey : String → Bytes → Bytes32)

/-- The fields that both digests begin with. -/
def digestFields (record : RecordHeader) : Bytes :=
  writeU16 record.formatVersion ++ writeU16 record.kind.asU16 ++ writeU64 record.sequence ++ writeU64 record.payloadLen ++
    writeU64 record.payloadChecksum ++ record.key.1

def productionIntegrityPayloadDigestV2 (record : RecordHeader) (payload : Bytes) : Bytes32 :=
  deriveKey (domainForKind record.kind) (digestFields record ++ payload)

def productionIntegrityRecordDigestV2 (record : RecordHeader) (header payload footer : Bytes) (payloadDigest : Bytes32) :
    Bytes32 :=
  deriveKey (domainForKind record.kind) (digestFields record ++ payloadDigest.1 ++ toLe 8 recordHeaderLen ++ header ++
    payload ++ toLe 8 recordFooterLen ++ footer)

def buildIntegrityTrailerV2 (record : RecordHeader) (header payload footer : Bytes) : IntegrityTrailerV2 :=
  let payloadDigest := productionIntegrityPayloadDigestV2 deriveKey record payload
  ⟨record.formatVersion, integrityTrailerV2DigestSuiteId, payloadDigest,
    productionIntegrityRecordDigestV2 deriveKey record header payload footer payloadDigest, 0, 0, 0, 0⟩

def verifyIntegrityTrailerV2 (trailer : IntegrityTrailerV2) (record : RecordHeader) (header payload footer : Bytes)
    (segmentId offset : ℕ) : Except StoreError Unit :=
  let payloadDigest := productionIntegrityPayloadDigestV2 deriveKey record payload
  let recordDigest := productionIntegrityRecordDigestV2 deriveKey record header payload footer payloadDigest
  if trailer.formatVersion ≠ record.formatVersion then
    .error (.corruptHeader segmentId offset "production integrity trailer version does not match record version")
  else if trailer.digestSuite ≠ integrityTrailerV2DigestSuiteId then
    .error (.corruptHeader segmentId offset "production integrity digest suite is not supported")
  else if trailer.payloadDigest ≠ payloadDigest then
    .error (.productionIntegrityMismatch segmentId (offset + 16) "payload digest" trailer.payloadDigest.1 payloadDigest.1)
  else if trailer.recordDigest ≠ recordDigest then
    .error (.productionIntegrityMismatch segmentId (offset + 48) "record digest" trailer.recordDigest.1 recordDigest.1)
  else .ok ()

theorem verify_build (record : RecordHeader) (header payload footer : Bytes) (segmentId offset : ℕ) :
    verifyIntegrityTrailerV2 deriveKey (buildIntegrityTrailerV2 deriveKey record header payload footer) record header
      payload footer segmentId offset = .ok () := by
  simp [verifyIntegrityTrailerV2, buildIntegrityTrailerV2]

end Digests

/-! ### Ranges -/

def recordHasFooter (formatVersion : UInt16) : Bool := recordFormatVersionV2Footer ≤ formatVersion

def recordHasProductionIntegrityTrailer (formatVersion : UInt16) : Bool := recordFormatVersion ≤ formatVersion

def recordOverheadForFormat (formatVersion : UInt16) : ℕ :=
  recordHeaderLen + (if recordHasFooter formatVersion then recordFooterLen else 0) +
    if recordHasProductionIntegrityTrailer formatVersion then integrityTrailerV2Len else 0

structure CheckedRecordRange where
  payloadOffset : ℕ
  payloadEndOffset : ℕ
  footerOffset : ℕ
  integrityTrailerOffset : Option ℕ
  endOffset : ℕ
deriving DecidableEq

def checkedRecordOffset (base len segmentId recordOffset : ℕ) : Except StoreError ℕ :=
  if base + len < 2 ^ 64 then .ok (base + len)
  else .error (.corruptHeader segmentId recordOffset "record byte range overflows u64")

def checkedRecordRange (record : RecordHeader) (segmentId recordOffset : ℕ) : Except StoreError CheckedRecordRange := do
  let payloadOffset ← checkedRecordOffset recordOffset recordHeaderLen segmentId recordOffset
  let payloadEndOffset ← checkedRecordOffset payloadOffset record.payloadLen.toNat segmentId recordOffset
  let footerEnd ←
    if recordHasFooter record.formatVersion then
      checkedRecordOffset payloadEndOffset recordFooterLen segmentId recordOffset
    else .ok payloadEndOffset
  if recordHasProductionIntegrityTrailer record.formatVersion then do
    let endOffset ← checkedRecordOffset footerEnd integrityTrailerV2Len segmentId recordOffset
    .ok ⟨payloadOffset, payloadEndOffset, payloadEndOffset, some footerEnd, endOffset⟩
  else .ok ⟨payloadOffset, payloadEndOffset, payloadEndOffset, none, footerEnd⟩

/-- The range of a record of the current format. -/
def rangeAt (payloadLen offset : ℕ) : CheckedRecordRange :=
  ⟨offset + 96, offset + 96 + payloadLen, offset + 96 + payloadLen, some (offset + 96 + payloadLen + 16),
    offset + 96 + payloadLen + 16 + 112⟩

variable (hversion : record.formatVersion = recordFormatVersion)
include hversion

theorem checkedRecordRange_eq
    (segmentId : ℕ) {offset : ℕ} (hfits : offset + 96 + record.payloadLen.toNat + 16 + 112 < 2 ^ 64) :
    checkedRecordRange record segmentId offset = .ok (rangeAt record.payloadLen.toNat offset) := by
  have hok : ∀ base len, base + len ≤ offset + 96 + record.payloadLen.toNat + 16 + 112 →
      checkedRecordOffset base len segmentId offset = .ok (base + len) := fun base len h => by
    rw [checkedRecordOffset, if_pos (h.trans_lt hfits)]
  have hfooter : recordHasFooter record.formatVersion = true := by rw [hversion]; rfl
  have htrailer : recordHasProductionIntegrityTrailer record.formatVersion = true := by rw [hversion]; rfl
  unfold checkedRecordRange recordHeaderLen recordFooterLen integrityTrailerV2Len
  rw [hfooter, htrailer, hok _ _ (by omega)]
  show (checkedRecordOffset (offset + 96) record.payloadLen.toNat segmentId offset >>= _) = _
  rw [hok _ _ (by omega)]
  show (checkedRecordOffset (offset + 96 + record.payloadLen.toNat) 16 segmentId offset >>= _) = _
  rw [hok _ _ (by omega)]
  show (checkedRecordOffset (offset + 96 + record.payloadLen.toNat + 16) 112 segmentId offset >>= _) = _
  rw [hok _ _ le_rfl]
  rfl

omit hversion

/-! ### Records -/

/-- A record of the current format, as the store writes it: a tombstone has no payload. -/
structure Record where
  kind : RecordKind
  sequence : UInt64
  key : ObjectKey
  payload : Bytes
  compressionAlgorithm : UInt8
  size : payload.length < 2 ^ 64
  tombstone : kind = .delete → payload = []

namespace Record

variable (deriveKey : String → Bytes → Bytes32)

def header (r : Record) : RecordHeader :=
  ⟨recordFormatVersion, r.kind, r.sequence, r.key, UInt64.ofNat r.payload.length, checksum64 r.payload,
    r.compressionAlgorithm⟩

def trailer (r : Record) : IntegrityTrailerV2 :=
  buildIntegrityTrailerV2 deriveKey r.header (encodeHeader r.header) r.payload (encodeFooter r.header)

/-- The bytes that `append_record` writes. -/
def encode (r : Record) : Bytes :=
  encodeHeader r.header ++ (r.payload ++ (encodeFooter r.header ++ encodeIntegrityTrailerV2 (r.trailer deriveKey)))

def len (r : Record) : ℕ := 96 + r.payload.length + 16 + 112

theorem payloadLen_header (r : Record) : r.header.payloadLen.toNat = r.payload.length := by
  rw [header, UInt64.toNat_ofNat']
  exact Nat.mod_eq_of_lt r.size

theorem length_encode (r : Record) : (r.encode deriveKey).length = r.len := by
  rw [encode, length_append, length_append, length_append, length_encodeHeader, length_encodeFooter,
    length_encodeIntegrityTrailerV2, len, recordHeaderLen, recordFooterLen, integrityTrailerV2Len]
  omega

/-- **The trailer** of a record is accepted. -/
theorem verify_encode (r : Record) (segmentId offset : ℕ) :
    decodeIntegrityTrailerV2 ⟨_, length_encodeIntegrityTrailerV2 (r.trailer deriveKey)⟩ = .ok (r.trailer deriveKey) ∧
      verifyIntegrityTrailerV2 deriveKey (r.trailer deriveKey) r.header (encodeHeader r.header) r.payload
        (encodeFooter r.header) segmentId offset = .ok () :=
  ⟨decodeIntegrityTrailerV2_encode rfl, verify_build deriveKey r.header _ _ _ segmentId offset⟩

end Record

end Tidefs.ObjectStore
