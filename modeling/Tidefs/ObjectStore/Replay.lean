/-
# Replay of a segment

`replay_segment` reads the records of a segment file from its start and applies them to
the index and the history of locations. In the last segment, a read that comes up short
is a torn tail: the file is cut back to the end of the record before.

Whatever byte the last segment was cut at, the records that are complete before the cut
are replayed and the file is left with them alone; replayed again, it gives the same and
needs no repair (`torn_tail_repaired`).
-/
import Tidefs.Lib.Word
import Tidefs.ObjectStore.Record

namespace Tidefs.ObjectStore

open Codec Ordered Word List Option Record Nat

structure ObjectLocation where
  key : ObjectKey
  segmentId : ℕ
  recordOffset : ℕ
  payloadOffset : ℕ
  payloadLen : UInt64
  sequence : UInt64
  payloadChecksum : UInt64
deriving DecidableEq

structure ReplayReport where
  recordsSeen : ℕ
  v1RecordsSeen : ℕ
  v2RecordsSeen : ℕ
  v3RecordsSeen : ℕ
  productionIntegrityRecordsSeen : ℕ
  putsSeen : ℕ
  deletesSeen : ℕ
  highestSequence : ℕ
  repairedTailBytes : ℕ

/-- What a replay has built so far. -/
structure ReplayState where
  index : OrdMap ObjectKey ObjectLocation
  history : OrdMap ObjectKey (List ObjectLocation)
  replay : ReplayReport
  nextSequence : ℕ

/-- What the store is opened for. -/
inductive StoreOpenMode where
  | writableCreate
  | readOnlyExisting
  | preflightExisting
deriving DecidableEq

def StoreOpenMode.isWritable (mode : StoreOpenMode) : Bool := mode = writableCreate

def StoreOpenMode.toleratesTornTail (mode : StoreOpenMode) : Bool := mode = preflightExisting

structure StoreOptions where
  maxSegmentBytes : ℕ
  repairTornTail : Bool

/-- The request `open_with_mode` makes for a segment, with the keys that are not counted
and the digest. -/
structure ReplaySegmentRequest where
  segmentId : ℕ
  isLastSegment : Bool
  mode : StoreOpenMode
  options : StoreOptions
  isPublicScanInternalKey : ObjectKey → Bool
  deriveKey : String → Bytes → Bytes32

namespace ReplaySegmentRequest

def tolerateTornTail (q : ReplaySegmentRequest) : Bool := q.mode.toleratesTornTail

/-- A store that is not opened for writing does not repair, whatever the options. -/
def repairTornTail (q : ReplaySegmentRequest) : Bool := q.mode.isWritable && q.options.repairTornTail

theorem not_tolerates (q : ReplaySegmentRequest) (h : q.repairTornTail = true) : q.tolerateTornTail = false := by
  have hmode : q.mode = .writableCreate := of_decide_eq_true (Bool.and_eq_true_iff.mp h).1
  rw [tolerateTornTail, hmode]
  rfl

end ReplaySegmentRequest

/-- What one turn of the loop reads: the end, a torn tail of so many bytes with the error
that it is elsewhere than in the last segment, or a record. -/
inductive Step where
  | done
  | torn (bytes : ℕ) (reason : String)
  | record (record : RecordHeader) (range : CheckedRecordRange)

variable (q : ReplaySegmentRequest)

/-- The last check of a record. Without a footer, a payload at the end of the file that
does not match counts as torn. -/
def checkPayload (segmentLen offset : ℕ) (record : RecordHeader) (range : CheckedRecordRange) (payload : Bytes) :
    Except StoreError Step :=
  if checksum64 payload ≠ record.payloadChecksum then
    if recordHasFooter record.formatVersion = false ∧ q.isLastSegment ∧ segmentLen ≤ range.payloadEndOffset then
      .ok (.torn (segmentLen - offset) "")
    else .error (.checksumMismatch q.segmentId range.payloadOffset record.payloadChecksum (checksum64 payload))
  else .ok (.record record range)

def readTrailer (segmentLen offset : ℕ) (header payload : Bytes) (record : RecordHeader) (range : CheckedRecordRange)
    (footer : Option Bytes) (rest : Bytes) : Except StoreError Step :=
  if recordHasProductionIntegrityTrailer record.formatVersion then
    if h : integrityTrailerV2Len ≤ rest.length then
      match footer with
      | none => .error (.corruptHeader q.segmentId offset "integrity trailer V2 requires a footer-bearing record")
      | some footer => do
        let trailer ← decodeIntegrityTrailerV2 ⟨rest.take integrityTrailerV2Len, by simp [h]⟩
        match range.integrityTrailerOffset with
        | none => .error (.corruptHeader q.segmentId offset "integrity trailer V2 range is absent from record layout")
        | some trailerOffset =>
          verifyIntegrityTrailerV2 q.deriveKey trailer record header payload footer q.segmentId trailerOffset
          checkPayload q segmentLen offset record range payload
    else .ok (.torn (recordHeaderLen + record.payloadLen.toNat + recordFooterLen + rest.length)
      "non-final segment ended in the middle of an integrity trailer V2")
  else checkPayload q segmentLen offset record range payload

def readFooter (segmentLen offset : ℕ) (header payload : Bytes) (record : RecordHeader) (range : CheckedRecordRange)
    (rest : Bytes) : Except StoreError Step :=
  if recordHasFooter record.formatVersion then
    if recordFooterLen ≤ rest.length then do
      decodeFooter (rest.take recordFooterLen) record q.segmentId range.footerOffset
      readTrailer q segmentLen offset header payload record range (some (rest.take recordFooterLen))
        (rest.drop recordFooterLen)
    else .ok (.torn (recordHeaderLen + record.payloadLen.toNat + rest.length)
      "non-final segment ended in the middle of a record footer")
  else readTrailer q segmentLen offset header payload record range none rest

def maxPayloadBytesForFormat (formatVersion : UInt16) : ℕ := q.options.maxSegmentBytes - recordOverheadForFormat formatVersion

def readPayload (segmentLen offset : ℕ) (header : Bytes) (record : RecordHeader) (rest : Bytes) :
    Except StoreError Step :=
  if record.kind = .delete ∧ record.payloadLen ≠ 0 then
    .error (.corruptHeader q.segmentId offset "delete tombstone carries payload bytes")
  else if maxPayloadBytesForFormat q record.formatVersion < record.payloadLen.toNat then
    .error (.payloadTooLarge record.payloadLen.toNat (maxPayloadBytesForFormat q record.formatVersion))
  else do
    let range ← checkedRecordRange record q.segmentId offset
    if record.payloadLen.toNat ≤ rest.length then
      readFooter q segmentLen offset header (rest.take record.payloadLen.toNat) record range
        (rest.drop record.payloadLen.toNat)
    else .ok (.torn (recordHeaderLen + rest.length) "non-final segment ended in the middle of a record payload")

/-- The reads of one turn of the loop, from what is left of the file. -/
def readRecord (segmentLen offset : ℕ) (rest : Bytes) : Except StoreError Step :=
  if rest.length = 0 then .ok .done
  else if h : recordHeaderLen ≤ rest.length then
    if rest.take 8 = segmentIntegrityFooterMagic then .ok .done
    else do
      let headerEnd ← checkedRecordOffset offset recordHeaderLen q.segmentId offset
      match decodeHeader ⟨rest.take recordHeaderLen, by simp [h]⟩ q.segmentId offset with
      | .ok record =>
        readPayload q segmentLen offset (rest.take recordHeaderLen) record (rest.drop recordHeaderLen)
      | .error e => if q.isLastSegment ∧ segmentLen = headerEnd then .ok (.torn recordHeaderLen "") else .error e
  else .ok (.torn rest.length "non-final segment ended in the middle of a record header")

/-- A record seen. -/
def ReplayReport.count (report : ReplayReport) (record : RecordHeader) : ReplayReport :=
  let report := { report with
    highestSequence := max report.highestSequence record.sequence.toNat
    recordsSeen := wrap64 (report.recordsSeen + 1) }
  let report :=
    if record.formatVersion = recordFormatVersionV1NoFooter then
      { report with v1RecordsSeen := wrap64 (report.v1RecordsSeen + 1) }
    else if record.formatVersion = recordFormatVersionV2Footer then
      { report with v2RecordsSeen := wrap64 (report.v2RecordsSeen + 1) }
    else if record.formatVersion = recordFormatVersion then
      { report with
        v3RecordsSeen := wrap64 (report.v3RecordsSeen + 1)
        productionIntegrityRecordsSeen := wrap64 (report.productionIntegrityRecordsSeen + 1) }
    else report
  match record.kind with
  | .put => { report with putsSeen := wrap64 (report.putsSeen + 1) }
  | .delete => { report with deletesSeen := wrap64 (report.deletesSeen + 1) }

def locationOf (offset : ℕ) (record : RecordHeader) (range : CheckedRecordRange) : ObjectLocation :=
  ⟨record.key, q.segmentId, offset, range.payloadOffset, record.payloadLen, record.sequence, record.payloadChecksum⟩

/-- A record applied: a put is the newest location of its key, a tombstone takes the key
out of the index and leaves its history. -/
def ReplayState.apply (s : ReplayState) (offset : ℕ) (record : RecordHeader) (range : CheckedRecordRange) :
    ReplayState :=
  let s := { s with
    replay := if q.isPublicScanInternalKey record.key then s.replay else s.replay.count record
    nextSequence := max s.nextSequence (satAdd record.sequence.toNat 1) }
  match record.kind with
  | .put =>
    { s with
      history := s.history.insert record.key
        ((s.history.get? record.key).getD [] ++ [locationOf q offset record range])
      index := s.index.insert record.key (locationOf q offset record range) }
  | .delete => { s with index := s.index.erase record.key }

/-- The place the file is cut at, if it is. -/
def repairOrRejectTail (s : ReplayState) (offset tornBytes : ℕ) : Except StoreError (ReplayState × Option ℕ) :=
  if q.tolerateTornTail then .ok (s, none)
  else if q.repairTornTail then
    .ok ({ s with replay := { s.replay with repairedTailBytes := wrap64 (s.replay.repairedTailBytes + tornBytes) } },
      some offset)
  else .error (.corruptHeader q.segmentId offset "torn tail encountered and tail repair is disabled")

theorem ne_nil_of_record {segmentLen offset : ℕ} {rest : Bytes} {record : RecordHeader} {range : CheckedRecordRange}
    (h : readRecord q segmentLen offset rest = .ok (.record record range)) : rest ≠ [] := by
  rintro rfl
  exact nomatch h

/-- The loop, with whether a record was seen. A record that was read whole is passed by. -/
def replayLoop (segmentLen offset : ℕ) (rest : Bytes) (s : ReplayState) (seen : Bool) :
    Except StoreError (ReplayState × Bool × Option ℕ) :=
  match _h : readRecord q segmentLen offset rest with
  | .error e => .error e
  | .ok .done => .ok (s, seen, none)
  | .ok (.torn bytes reason) =>
    if q.isLastSegment then (repairOrRejectTail q s offset bytes).map fun r => (r.1, seen, r.2)
    else .error (.corruptHeader q.segmentId offset reason)
  | .ok (.record record range) =>
    replayLoop segmentLen range.endOffset
      (rest.drop (recordOverheadForFormat record.formatVersion + record.payloadLen.toNat))
      (s.apply q offset record range) true
termination_by rest.length
decreasing_by
  have hne := length_pos_iff.mpr (ne_nil_of_record q _h)
  have hover : recordHeaderLen ≤ recordOverheadForFormat record.formatVersion := by
    unfold recordOverheadForFormat
    omega
  rw [length_drop]
  unfold recordHeaderLen at hover
  omega

/-- The footer of a segment that is not the last must not be of another segment; one that
cannot be read is let pass. -/
def checkSegmentFooter (file : Bytes) : Except StoreError Unit :=
  let footerOffset := file.length - 192
  let footer := slice file footerOffset 192
  if 0 < footerOffset ∧ footer.length = 192 ∧ slice footer 0 8 = segmentIntegrityFooterMagic ∧
      (readU64 (slice footer 8 8)).toNat ≠ q.segmentId then
    .error (.corruptHeader q.segmentId footerOffset "SegmentIntegrityFooter segment_id mismatch")
  else .ok ()

def replaySegment (file : Bytes) (s : ReplayState) : Except StoreError (ReplayState × Bytes) := do
  let (s, seen, cut) ← replayLoop q file.length 0 file s false
  if seen ∧ ¬ q.isLastSegment then checkSegmentFooter q file
  match cut with
  | none => .ok (s, file)
  | some offset => .ok (s, file.take offset)

/-! ### What a segment of whole records gives -/

def encodeRecords (records : List Record) : Bytes := records.flatMap fun r => r.encode q.deriveKey

/-- The records applied in order, the first at the offset. -/
def replayed : ℕ → List Record → ReplayState → ReplayState
  | _, [], s => s
  | offset, r :: records, s =>
    replayed (offset + r.len) records (s.apply q offset r.header (rangeAt r.payload.length offset))

/-- The records that end at this byte or before. -/
def completeBefore : ℕ → List Record → List Record
  | _, [] => []
  | n, r :: records => if r.len ≤ n then r :: completeBefore (n - r.len) records else []

/-- Records that the options let a segment have. -/
def Admitted (records : List Record) : Prop :=
  ∀ r ∈ records, r.payload.length ≤ maxPayloadBytesForFormat q recordFormatVersion

def repaired (s : ReplayState) (tornBytes : ℕ) : ReplayState :=
  { s with replay := { s.replay with repairedTailBytes := wrap64 (s.replay.repairedTailBytes + tornBytes) } }

variable {q} {r : Record} {segmentLen offset : ℕ} {s : ReplayState} {seen : Bool}

/-! ### One record -/

theorem readTrailer_encode (range : CheckedRecordRange) {trailerOffset : ℕ}
    (hrange : range.integrityTrailerOffset = some trailerOffset) (rest : Bytes) :
    readTrailer q segmentLen offset (encodeHeader r.header) r.payload r.header range (some (encodeFooter r.header))
      (encodeIntegrityTrailerV2 (r.trailer q.deriveKey) ++ rest) = .ok (.record r.header range) := by
  have hlen := length_encodeIntegrityTrailerV2 (r.trailer q.deriveKey)
  have htake : (encodeIntegrityTrailerV2 (r.trailer q.deriveKey) ++ rest).take integrityTrailerV2Len =
      encodeIntegrityTrailerV2 (r.trailer q.deriveKey) := take_left' hlen
  obtain ⟨hdecode, hverify⟩ := r.verify_encode q.deriveKey q.segmentId trailerOffset
  have hpayload : checkPayload q segmentLen offset r.header range r.payload = .ok (.record r.header range) :=
    if_neg (not_not.mpr rfl)
  unfold readTrailer
  rw [if_pos (by rfl), dif_pos (by rw [length_append, hlen]; omega)]
  simp only [htake, hdecode, hrange]
  show (verifyIntegrityTrailerV2 q.deriveKey _ _ _ _ _ _ _ >>= _) = _
  rw [hverify]
  exact hpayload

theorem readTrailer_short (header payload footer : Bytes) (range : CheckedRecordRange) {rest : Bytes}
    (hshort : rest.length < integrityTrailerV2Len) :
    ∃ reason, readTrailer q segmentLen offset header payload r.header range (some footer) rest =
      .ok (.torn (recordHeaderLen + r.payload.length + recordFooterLen + rest.length) reason) := by
  unfold readTrailer
  rw [if_pos (by rfl), dif_neg (by omega), r.payloadLen_header]
  exact ⟨_, rfl⟩

theorem readFooter_encode (header payload : Bytes) (range : CheckedRecordRange) (rest : Bytes) :
    readFooter q segmentLen offset header payload r.header range (encodeFooter r.header ++ rest) =
      readTrailer q segmentLen offset header payload r.header range (some (encodeFooter r.header)) rest := by
  have hlen := length_encodeFooter r.header
  unfold readFooter
  rw [if_pos (by rfl), if_pos (by rw [length_append, hlen]; omega), take_left' hlen, drop_left' hlen,
    decodeFooter_encode]
  rfl

theorem readFooter_short (header payload : Bytes) (range : CheckedRecordRange) {rest : Bytes}
    (hshort : rest.length < recordFooterLen) :
    ∃ reason, readFooter q segmentLen offset header payload r.header range rest =
      .ok (.torn (recordHeaderLen + r.payload.length + rest.length) reason) := by
  unfold readFooter
  rw [if_pos (by rfl), if_neg (by omega), r.payloadLen_header]
  exact ⟨_, rfl⟩

/-- The checks before the payload is read let an admitted record pass. -/
theorem readPayload_eq (hadmitted : r.payload.length ≤ maxPayloadBytesForFormat q recordFormatVersion)
    (hoffset : offset + r.len < 2 ^ 64) (header rest : Bytes) : readPayload q segmentLen offset header r.header rest =
      if r.payload.length ≤ rest.length then
        readFooter q segmentLen offset header (rest.take r.payload.length) r.header (rangeAt r.payload.length offset)
          (rest.drop r.payload.length)
      else .ok (.torn (recordHeaderLen + rest.length) "non-final segment ended in the middle of a record payload") := by
  have hkind : ¬ (r.header.kind = .delete ∧ r.header.payloadLen ≠ 0) := fun ⟨hdelete, hlen⟩ => hlen (by
    show UInt64.ofNat r.payload.length = 0
    rw [r.tombstone hdelete]
    rfl)
  have hmax : ¬ maxPayloadBytesForFormat q r.header.formatVersion < r.header.payloadLen.toNat := by
    rw [r.payloadLen_header, not_lt]
    exact hadmitted
  have hrange := @checkedRecordRange_eq r.header rfl q.segmentId offset (by
    rw [r.payloadLen_header]
    unfold len at hoffset
    omega)
  unfold readPayload
  rw [if_neg hkind, if_neg hmax, hrange, r.payloadLen_header]
  rfl

theorem readRecord_header (hoffset : offset + r.len < 2 ^ 64) (rest : Bytes) :
    readRecord q segmentLen offset (encodeHeader r.header ++ rest) =
      readPayload q segmentLen offset (encodeHeader r.header) r.header rest := by
  have hlen := length_encodeHeader r.header
  have htotal : recordHeaderLen ≤ (encodeHeader r.header ++ rest).length := by rw [length_append, hlen]; omega
  have htake : (encodeHeader r.header ++ rest).take recordHeaderLen = encodeHeader r.header := take_left' hlen
  have hmagic : (encodeHeader r.header ++ rest).take 8 = recordMagic := rfl
  have hend : checkedRecordOffset offset recordHeaderLen q.segmentId offset = .ok (offset + recordHeaderLen) := by
    rw [checkedRecordOffset, if_pos]
    unfold len at hoffset
    unfold recordHeaderLen
    omega
  unfold readRecord
  rw [if_neg (by unfold recordHeaderLen at htotal; omega), dif_pos htotal, hmagic, if_neg (by decide), hend]
  simp only [htake, decodeHeader_encode (show r.header.formatVersion = recordFormatVersion from rfl), drop_left' hlen]
  rfl

variable (hadmitted : r.payload.length ≤ maxPayloadBytesForFormat q recordFormatVersion)
include hadmitted

/-- **A whole record is read**, whatever follows it. -/
theorem readRecord_complete
    (hoffset : offset + r.len < 2 ^ 64) (rest : Bytes) : readRecord q segmentLen offset (r.encode q.deriveKey ++ rest) =
      .ok (.record r.header (rangeAt r.payload.length offset)) := by
  rw [encode, append_assoc, readRecord_header hoffset, readPayload_eq hadmitted hoffset, append_assoc,
    if_pos (by rw [length_append]; omega), take_left' rfl, drop_left' rfl, append_assoc, readFooter_encode]
  exact readTrailer_encode _ rfl rest

/-- **A record cut anywhere** is a torn tail of the bytes that are left of it: in the
header, the payload, the footer or the trailer. -/
theorem readRecord_cut (hoffset : offset + r.len < 2 ^ 64) {n : ℕ} (hpos : 0 < n) (hcut : n < r.len) :
    ∃ reason, readRecord q segmentLen offset ((r.encode q.deriveKey).take n) = .ok (.torn n reason) := by
  have hheader := length_encodeHeader r.header
  have htrailer := length_encodeIntegrityTrailerV2 (r.trailer q.deriveKey)
  have hfooter := length_encodeFooter r.header
  set trailer := encodeIntegrityTrailerV2 (r.trailer q.deriveKey)
  let rest := encodeFooter r.header ++ trailer
  unfold len at hcut
  unfold recordHeaderLen at hheader
  unfold recordFooterLen at hfooter
  unfold integrityTrailerV2Len at htrailer
  by_cases h1 : n < 96
  · have hlen : ((r.encode q.deriveKey).take n).length = n := by
      rw [length_take, r.length_encode, len]
      omega
    unfold readRecord
    rw [if_neg (by omega), dif_neg (by unfold recordHeaderLen; omega), hlen]
    exact ⟨_, rfl⟩
  · obtain ⟨a, rfl⟩ := Nat.exists_eq_add_of_le (not_lt.mp h1)
    have htake : (r.encode q.deriveKey).take (96 + a) = encodeHeader r.header ++
        (r.payload ++ rest).take a := by
      rw [encode, ← hheader, take_length_add_append]
    rw [htake, readRecord_header hoffset, readPayload_eq hadmitted hoffset]
    by_cases h2 : a < r.payload.length
    · have hlen : ((r.payload ++ rest).take
          a).length = a := by
        rw [length_take, length_append]
        omega
      rw [if_neg (by omega), hlen]
      exact ⟨_, rfl⟩
    · obtain ⟨b, rfl⟩ := Nat.exists_eq_add_of_le (not_lt.mp h2)
      rw [take_length_add_append, if_pos (by rw [length_append]; omega), take_left' rfl, drop_left' rfl]
      by_cases h3 : b < 16
      · have hlen : (rest.take b).length = b := by
          rw [length_take, length_append]
          omega
        obtain ⟨reason, hread⟩ := @readFooter_short q r segmentLen offset (encodeHeader r.header) r.payload
          (rangeAt r.payload.length offset) _ (hlen.trans_lt h3)
        rw [hread, hlen, recordHeaderLen, Nat.add_assoc]
        exact ⟨reason, rfl⟩
      · obtain ⟨c, rfl⟩ := Nat.exists_eq_add_of_le (not_lt.mp h3)
        have hsplit : rest.take (16 + c) =
            encodeFooter r.header ++ trailer.take c := by
          rw [← hfooter, take_length_add_append]
        have hlen : (trailer.take c).length = c := by
          rw [length_take]
          omega
        obtain ⟨reason, hread⟩ := @readTrailer_short q r segmentLen offset (encodeHeader r.header) r.payload
          (encodeFooter r.header) (rangeAt r.payload.length offset) _
          (hlen.trans_lt (by unfold integrityTrailerV2Len; omega))
        rw [hsplit, readFooter_encode, hread, hlen, recordHeaderLen, recordFooterLen,
          show 96 + r.payload.length + 16 + c = 96 + (r.payload.length + (16 + c)) by omega]
        exact ⟨reason, rfl⟩

omit hadmitted

/-! ### The loop -/

theorem replayLoop_done {rest : Bytes} (h : readRecord q segmentLen offset rest = .ok .done) :
    replayLoop q segmentLen offset rest s seen = .ok (s, seen, none) := by
  rw [replayLoop]
  split <;> simp_all

theorem replayLoop_torn {rest : Bytes} {bytes : ℕ} {reason : String}
    (h : readRecord q segmentLen offset rest = .ok (.torn bytes reason)) (hlast : q.isLastSegment = true) :
    replayLoop q segmentLen offset rest s seen =
      (repairOrRejectTail q s offset bytes).map fun r => (r.1, seen, r.2) := by
  rw [replayLoop]
  split <;> simp_all

theorem replayLoop_record {rest : Bytes} {record : RecordHeader} {range : CheckedRecordRange}
    (h : readRecord q segmentLen offset rest = .ok (.record record range)) :
    replayLoop q segmentLen offset rest s seen = replayLoop q segmentLen range.endOffset
      (rest.drop (recordOverheadForFormat record.formatVersion + record.payloadLen.toNat))
      (s.apply q offset record range) true := by
  rw [replayLoop]
  split <;> simp_all

theorem encodeRecords_cons (r : Record) (records : List Record) :
    encodeRecords q (r :: records) = r.encode q.deriveKey ++ encodeRecords q records := flatMap_cons

theorem length_encodeRecords_cons (r : Record) (records : List Record) :
    (encodeRecords q (r :: records)).length = r.len + (encodeRecords q records).length := by
  rw [encodeRecords_cons, length_append, r.length_encode]

/-- **Whole records are replayed** and the loop goes on behind them. -/
theorem replayLoop_encode : ∀ (records : List Record) {offset : ℕ} {s : ReplayState} {seen : Bool} (rest : Bytes),
    Admitted q records → offset + (encodeRecords q records).length < 2 ^ 64 →
    replayLoop q segmentLen offset (encodeRecords q records ++ rest) s seen =
      replayLoop q segmentLen (offset + (encodeRecords q records).length) rest (replayed q offset records s)
        (seen || !records.isEmpty)
  | [], offset, s, seen, rest, _, _ => by simp [encodeRecords, replayed]
  | r :: records, offset, s, seen, rest, hadmitted, hsize => by
    obtain ⟨hr, hrecords⟩ := forall_mem_cons.mp hadmitted
    rw [length_encodeRecords_cons] at hsize ⊢
    have hread := @readRecord_complete q r segmentLen offset hr (by omega) (encodeRecords q records ++ rest)
    have hnext : recordOverheadForFormat r.header.formatVersion + r.header.payloadLen.toNat = r.len := by
      rw [r.payloadLen_header]
      show 224 + r.payload.length = 96 + r.payload.length + 16 + 112
      omega
    have hend : (rangeAt r.payload.length offset).endOffset = offset + r.len := by
      show offset + 96 + r.payload.length + 16 + 112 = offset + (96 + r.payload.length + 16 + 112)
      omega
    rw [encodeRecords_cons, append_assoc, replayLoop_record hread, hnext, drop_left' (r.length_encode _), hend,
      replayLoop_encode records rest hrecords (by omega), add_assoc]
    simp [replayed]

/-! ### Cuts -/

/-- What is left of records cut at a byte: the complete ones, and a part of the next if
the cut is inside it. -/
theorem take_encodeRecords : ∀ (records : List Record) (n : ℕ), ∃ torn,
    (encodeRecords q records).take n = encodeRecords q (completeBefore n records) ++ torn ∧
    (torn = [] ∨ ∃ r ∈ records, ∃ k, 0 < k ∧ k < r.len ∧ torn = (r.encode q.deriveKey).take k ∧
      (encodeRecords q (completeBefore n records)).length + r.len ≤ (encodeRecords q records).length)
  | [], n => ⟨[], by simp [encodeRecords, completeBefore], Or.inl rfl⟩
  | r :: records, n => by
    rw [completeBefore]
    by_cases hle : r.len ≤ n
    · obtain ⟨k, rfl⟩ := Nat.exists_eq_add_of_le hle
      obtain ⟨torn, htake, htorn⟩ := take_encodeRecords records k
      rw [if_pos hle, Nat.add_sub_cancel_left]
      refine ⟨torn, ?_, htorn.imp_right ?_⟩
      · rw [encodeRecords_cons, encodeRecords_cons, ← r.length_encode q.deriveKey, take_length_add_append, htake,
          append_assoc]
      · rintro ⟨r', hr', k', hpos, hlt, heq, hlen⟩
        refine ⟨r', mem_cons_of_mem _ hr', k', hpos, hlt, heq, ?_⟩
        rw [length_encodeRecords_cons, length_encodeRecords_cons]
        omega
    · rw [if_neg hle]
      have htake : (encodeRecords q (r :: records)).take n = (r.encode q.deriveKey).take n := by
        rw [encodeRecords_cons, take_append_of_le_length (by rw [r.length_encode]; omega)]
      refine ⟨(r.encode q.deriveKey).take n, htake, ?_⟩
      rcases Nat.eq_zero_or_pos n with rfl | hpos
      · exact Or.inl rfl
      · refine Or.inr ⟨r, mem_cons_self, n, hpos, by omega, rfl, ?_⟩
        rw [length_encodeRecords_cons]
        show 0 + r.len ≤ _
        omega

/-- The complete records are the first ones, they end before the cut, and the next one
does not. -/
theorem completeBefore_spec : ∀ (records : List Record) (n : ℕ), ∃ later, records = completeBefore n records ++ later ∧
    (n < (encodeRecords q records).length → (encodeRecords q (completeBefore n records)).length ≤ n) ∧
    ∀ r ∈ later.head?, n < (encodeRecords q (completeBefore n records)).length + r.len
  | [], n => ⟨[], rfl, fun h => absurd h (not_lt_zero n), fun _ h => nomatch h⟩
  | r :: records, n => by
    rw [completeBefore]
    by_cases hle : r.len ≤ n
    · obtain ⟨later, hsplit, hbefore, hnext⟩ := completeBefore_spec records (n - r.len)
      rw [if_pos hle]
      refine ⟨later, congrArg (r :: ·) hsplit, fun hn => ?_, fun r' hr' => ?_⟩
      · rw [length_encodeRecords_cons] at hn ⊢
        have := hbefore (by omega)
        omega
      · rw [length_encodeRecords_cons]
        have := hnext r' hr'
        omega
    · rw [if_neg hle]
      refine ⟨r :: records, rfl, fun _ => zero_le n, fun r' hr' => ?_⟩
      obtain rfl : r = r' := some.inj hr'
      omega

theorem admitted_completeBefore {records : List Record} (h : Admitted q records) (n : ℕ) :
    Admitted q (completeBefore n records) := fun r hr => by
  obtain ⟨later, hsplit, -⟩ := @completeBefore_spec q records n
  exact h r (hsplit ▸ mem_append_left later hr)

theorem length_completeBefore_le (records : List Record) (n : ℕ) :
    (encodeRecords q (completeBefore n records)).length ≤ (encodeRecords q records).length := by
  obtain ⟨later, hsplit, -⟩ := @completeBefore_spec q records n
  conv_rhs => rw [hsplit, encodeRecords, flatMap_append, length_append]
  exact le_add_right _ _

theorem readRecord_nil : readRecord q segmentLen offset [] = .ok .done := rfl

/-- A last segment of whole records is replayed and left as it is. -/
theorem replaySegment_encode (hlast : q.isLastSegment = true) {records : List Record} (hadmitted : Admitted q records)
    (hsize : (encodeRecords q records).length < 2 ^ 64) (s : ReplayState) :
    replaySegment q (encodeRecords q records) s = .ok (replayed q 0 records s, encodeRecords q records) := by
  have hloop := @replayLoop_encode q (encodeRecords q records).length records 0 s false [] hadmitted (by omega)
  rw [append_nil, replayLoop_done readRecord_nil] at hloop
  unfold replaySegment
  rw [hloop, hlast]
  simp [bind, Except.bind]

/-- **A torn tail is repaired.** A last segment of records, cut at any byte, is replayed up
to the last record that is complete, and cut back to its end; the bytes taken away are
reported. The repaired file replays to the same, and stays as it is. -/
theorem torn_tail_repaired (q : ReplaySegmentRequest) (hlast : q.isLastSegment = true)
    (hrepair : q.repairTornTail = true) (records : List Record) (hadmitted : Admitted q records)
    (hsize : (encodeRecords q records).length < 2 ^ 64) (n : ℕ) (s : ReplayState) : let kept := completeBefore n records
    let file := (encodeRecords q records).take n
    let torn := file.length - (encodeRecords q kept).length
    replaySegment q file s =
      .ok (if torn = 0 then replayed q 0 kept s else repaired (replayed q 0 kept s) torn, encodeRecords q kept) ∧
    replaySegment q (encodeRecords q kept) s = .ok (replayed q 0 kept s, encodeRecords q kept) := by
  intro kept file torn
  have hkept : Admitted q kept := admitted_completeBefore hadmitted n
  have hlen : (encodeRecords q kept).length < 2 ^ 64 := (length_completeBefore_le records n).trans_lt hsize
  have hagain := replaySegment_encode hlast hkept hlen s
  refine ⟨?_, hagain⟩
  obtain ⟨rest, htake, hcase⟩ := @take_encodeRecords q records n
  have hfile : file = encodeRecords q kept ++ rest := htake
  have htorn : torn = rest.length := by
    show file.length - _ = _
    rw [hfile, length_append, Nat.add_sub_cancel_left]
  rcases hcase with rfl | ⟨r, hr, k, hpos, hlt, rfl, hend⟩
  · rw [append_nil] at hfile
    rw [htorn, hfile, length_nil, if_pos rfl]
    exact hagain
  · have hk : ((r.encode q.deriveKey).take k).length = k := by
      rw [length_take, r.length_encode]
      omega
    obtain ⟨reason, hread⟩ := @readRecord_cut q r file.length (0 + (encodeRecords q kept).length) (hadmitted r hr)
      (by rw [Nat.zero_add]; exact hend.trans_lt hsize) k hpos hlt
    have hloop := @replayLoop_encode q file.length kept 0 s false ((r.encode q.deriveKey).take k) hkept (by omega)
    rw [← hfile, replayLoop_torn hread hlast] at hloop
    have htail : ∀ s' : ReplayState, repairOrRejectTail q s' (0 + (encodeRecords q kept).length) k =
        .ok (repaired s' k, some (encodeRecords q kept).length) := fun s' => by
      rw [repairOrRejectTail, q.not_tolerates hrepair, hrepair, if_neg Bool.false_ne_true, if_pos rfl, Nat.zero_add]
      rfl
    rw [htail] at hloop
    rw [htorn, hk, if_neg (by omega)]
    unfold replaySegment
    rw [hloop, hlast]
    have hcut : file.take (encodeRecords q kept).length = encodeRecords q kept := by rw [hfile, take_left' rfl]
    simp [bind, Except.bind, Except.map, hcut]

/-- An empty store. -/
def emptyState : ReplayState := ⟨OrdMap.empty, OrdMap.empty, ⟨0, 0, 0, 0, 0, 0, 0, 0, 0⟩, 1⟩

/-- The last segment, repaired on open. -/
def repairRequest (segmentId : ℕ) : ReplaySegmentRequest :=
  ⟨segmentId, true, .writableCreate, ⟨256, true⟩, fun _ => false, fun _ _ => ⟨List.replicate 32 0, length_zeroes⟩⟩

theorem length_seven : [(7 : UInt8)].length < 2 ^ 64 := by decide

def oneByte (key : UInt8) (sequence : UInt64) : Record :=
  ⟨.put, sequence, ⟨List.replicate 32 key, rfl⟩, [7], 0, length_seven, fun h => nomatch h⟩

/-- Two records, cut in the trailer of the second. -/
theorem torn_tail_repaired_second :
    replaySegment (repairRequest 0) ((encodeRecords (repairRequest 0) [oneByte 1 1, oneByte 2 2]).take 400) emptyState =
      .ok (repaired (replayed (repairRequest 0) 0 [oneByte 1 1] emptyState) 175,
        encodeRecords (repairRequest 0) [oneByte 1 1]) := by
  have hlen : (encodeRecords (repairRequest 0) [oneByte 1 1, oneByte 2 2]).length = 450 := by
    rw [length_encodeRecords_cons, length_encodeRecords_cons]
    rfl
  have hone : (encodeRecords (repairRequest 0) [oneByte 1 1]).length = 225 := by
    rw [length_encodeRecords_cons]
    rfl
  have hrepaired := (torn_tail_repaired (repairRequest 0) rfl rfl [oneByte 1 1, oneByte 2 2]
    (by intro r hr; fin_cases hr <;> decide) (by rw [hlen]; decide) 400 emptyState).1
  have hkept : completeBefore 400 [oneByte 1 1, oneByte 2 2] = [oneByte 1 1] := by
    rw [completeBefore, if_pos (by decide), completeBefore, if_neg (by decide)]
  rw [hkept, length_take, hlen, hone] at hrepaired
  exact hrepaired

end Tidefs.ObjectStore
