import PebblesDB.Env.File
import PebblesDB.Log.Format

/-!
# The log reader

`db/log_reader.cc`, unchanged from LevelDB. `ReadPhysicalRecord` parses one physical record out
of the current block, reading the next block when fewer than a header's bytes remain;
`ReadRecord` glues fragments into logical records, reporting what it drops. Two of its
behaviours matter later: a header whose type and length are both zero is taken for
preallocated space and the *whole rest of the block* is discarded with it, and a record that
runs past the end of the file is taken for a torn write and ends the log silently.

`buffer_` is kept as a window (`bufferStart`, `bufferSize`) onto the file. Reads and skips go
through the `SequentialFile`'s own position `filePos`, which `end_of_buffer_offset_` follows
except after a second `SkipToInitialBlock`. Reads never fail: the reader reads a file that was
written completely (see `PebblesDB.Env.File`).

Both loops are well-founded on `progress`: twice the unread part of the file, plus the buffered
bytes, plus one while end of file has not been seen. Every physical record that is not the end
of file lowers it (`readPhysicalRecord_progress`).
-/

namespace PebblesDB.Log

/-- `kEof`: returned by `ReadPhysicalRecord` at the end of the file. -/
def kEof : ℕ := kMaxRecordType + 1

/-- `kBadRecord`: returned for a record that fails its checksum, has a zero header, or starts
before the initial offset. -/
def kBadRecord : ℕ := kMaxRecordType + 2

/-- `a - b` on `uint64_t`. -/
def u64Sub (a b : ℕ) : ℕ :=
  (a + (2 ^ 64 - b % 2 ^ 64)) % 2 ^ 64

/-- The state of a `log::Reader`. -/
structure Reader where
  /-- `checksum_`. -/
  checksum : Bool
  /-- `initial_offset_`. -/
  initialOffset : ℕ
  /-- The file offset `buffer_` starts at. -/
  bufferStart : ℕ
  /-- `buffer_.size()`. -/
  bufferSize : ℕ
  /-- `eof_`: the last read returned less than a full block. -/
  eof : Bool
  /-- `last_record_offset_`. -/
  lastRecordOffset : ℕ
  /-- `end_of_buffer_offset_`. -/
  endOfBufferOffset : ℕ
  /-- The position of the `SequentialFile`. -/
  filePos : ℕ
  /-- What the reporter was told, oldest first: dropped bytes and the reason. -/
  reports : List (ℕ × String)

namespace Reader

/-- `Reader::Reader(file, reporter, checksum, initial_offset)`. -/
def init (checksum : Bool) (initialOffset : ℕ) : Reader where
  checksum := checksum
  initialOffset := initialOffset
  bufferStart := 0
  bufferSize := 0
  eof := false
  lastRecordOffset := 0
  endOfBufferOffset := 0
  filePos := 0
  reports := []

/-- `Reader::ReportDrop` / `ReportCorruption`: tell the reporter, unless the dropped bytes lie
before the initial offset. -/
def reportCorruption (r : Reader) (bytes : ℕ) (reason : String) : Reader :=
  if r.initialOffset ≤ u64Sub (u64Sub r.endOfBufferOffset r.bufferSize) bytes then
    { r with reports := r.reports ++ [(bytes, reason)] }
  else r

/-- What `ReadRecord` does on a full or first fragment while a fragmented record is open: an
empty first fragment before it is a bug of old writers, any other is reported. -/
def reportPartial (r : Reader) (scratch : List UInt8) (inFragmentedRecord : Bool)
    (reason : String) : Reader :=
  if inFragmentedRecord && !scratch.isEmpty then r.reportCorruption scratch.length reason else r

/-- `buffer_.remove_prefix(n)`. -/
def removePrefix (r : Reader) (n : ℕ) : Reader :=
  { r with bufferStart := r.bufferStart + n, bufferSize := r.bufferSize - n }

/-- `buffer_.clear()`. -/
def clearBuffer (r : Reader) : Reader :=
  { r with bufferSize := 0 }

/-- `buffer_.clear()` followed by `file_->Read(kBlockSize, &buffer_, backing_store_)`. -/
def readBlock (f : File) (r : Reader) : Reader :=
  let got := min kBlockSize (f.size - r.filePos)
  { r with bufferStart := r.filePos, bufferSize := got, filePos := r.filePos + got,
           endOfBufferOffset := r.endOfBufferOffset + got, eof := decide (got < kBlockSize) }

/-- `Reader::SkipToInitialBlock`: skip the blocks that lie wholly before the initial offset, and
the block too if the offset falls in its trailer. -/
def skipToInitialBlock (r : Reader) : Reader :=
  let offsetInBlock := r.initialOffset % kBlockSize
  let blockStartLocation :=
    if offsetInBlock > kBlockSize - 6 then r.initialOffset - offsetInBlock + kBlockSize
    else r.initialOffset - offsetInBlock
  { r with endOfBufferOffset := blockStartLocation,
           filePos := if 0 < blockStartLocation then r.filePos + blockStartLocation
             else r.filePos }

@[simp] theorem reportPartial_false (r : Reader) (scratch : List UInt8) (reason : String) :
    r.reportPartial scratch false reason = r := rfl

/-- A read that finds a whole block left in the file. -/
theorem readBlock_of_le {f : File} {r : Reader} (h : r.filePos + kBlockSize ≤ f.size) :
    readBlock f r =
      { r with bufferStart := r.filePos, bufferSize := kBlockSize,
               filePos := r.filePos + kBlockSize,
               endOfBufferOffset := r.endOfBufferOffset + kBlockSize, eof := false } := by
  have hgot : min kBlockSize (f.size - r.filePos) = kBlockSize := min_eq_left (by omega)
  rw [readBlock, hgot, decide_eq_false (Nat.lt_irrefl _)]

/-- A read that finds less than a block left: it returns the tail and sets `eof_`. -/
theorem readBlock_of_lt {f : File} {r : Reader} (h : f.size < r.filePos + kBlockSize) :
    readBlock f r =
      { r with bufferStart := r.filePos, bufferSize := f.size - r.filePos,
               filePos := r.filePos + (f.size - r.filePos),
               endOfBufferOffset := r.endOfBufferOffset + (f.size - r.filePos), eof := true } := by
  have hlt : f.size - r.filePos < kBlockSize := by
    unfold kBlockSize at h ⊢
    omega
  rw [readBlock, min_eq_right hlt.le, decide_eq_true hlt]

/-- The measure both reading loops decrease. -/
def progress (f : File) (r : Reader) : ℕ :=
  2 * (f.size - r.filePos) + r.bufferSize + if r.eof then 0 else 1

@[simp] theorem progress_reportCorruption (f : File) (r : Reader) (bytes : ℕ) (reason : String) :
    progress f (r.reportCorruption bytes reason) = progress f r := by
  unfold reportCorruption
  split <;> rfl

@[simp] theorem progress_reportPartial (f : File) (r : Reader) (scratch : List UInt8)
    (inFragmentedRecord : Bool) (reason : String) :
    progress f (r.reportPartial scratch inFragmentedRecord reason) = progress f r := by
  unfold reportPartial
  split
  · exact progress_reportCorruption f r _ reason
  · rfl

@[simp] theorem progress_clearBuffer (f : File) (r : Reader) :
    progress f (clearBuffer r) = progress f r - r.bufferSize := by
  cases heof : r.eof <;> simp only [progress, clearBuffer, heof] <;> omega

theorem progress_clearBuffer_lt (f : File) (r : Reader) (h : 0 < r.bufferSize) :
    progress f (clearBuffer r) < progress f r := by
  rw [progress_clearBuffer]
  have : r.bufferSize ≤ progress f r := by
    unfold progress
    omega
  omega

theorem progress_removePrefix_lt (f : File) (r : Reader) {n : ℕ} (hn : 0 < n)
    (h : n ≤ r.bufferSize) : progress f (r.removePrefix n) < progress f r := by
  cases heof : r.eof <;> simp only [progress, removePrefix, heof] <;> omega

/-- Reading a block never raises the measure: the bytes it buffers come off the unread part. -/
theorem progress_readBlock_le (f : File) (r : Reader) (h : r.eof = false) :
    progress f (readBlock f r) ≤ progress f r := by
  by_cases hgot : min kBlockSize (f.size - r.filePos) < kBlockSize
  · simp only [progress, readBlock, h, hgot, decide_true, Bool.false_eq_true, if_true, if_false]
    omega
  · simp only [progress, readBlock, h, hgot, decide_false, Bool.false_eq_true, if_false]
    omega

end Reader

open Reader

/-- The result of `ReadPhysicalRecord`: the type (or `kEof`, `kBadRecord`), the payload, and
the reader afterwards. -/
structure Physical where
  /-- The record type, `kEof` or `kBadRecord`. -/
  type : ℕ
  /-- The payload, empty unless a record was returned. -/
  fragment : List UInt8
  /-- The reader after the call. -/
  reader : Reader

/-- `Reader::ReadPhysicalRecord`, from the parse of the header on; `header` is where the
buffer starts. -/
def parsePhysicalRecord (f : File) (r : Reader) : Physical :=
  let header := r.bufferStart
  let length := parseLength (f.byte (header + 4)) (f.byte (header + 5))
  let type := charToUnsigned (f.byte (header + 6))
  if r.bufferSize < kHeaderSize + length then
    -- a length running past the buffer: corruption, or a torn write at the end of the file
    if !r.eof then ⟨kBadRecord, [], (clearBuffer r).reportCorruption r.bufferSize
      "bad record length"⟩
    else ⟨kEof, [], clearBuffer r⟩
  else if type = RecordType.zeroType.toNat ∧ length = 0 then
    -- preallocated space: skip the rest of the block without reporting
    ⟨kBadRecord, [], clearBuffer r⟩
  else if r.checksum ∧ Crc32c.value (f.bytes (header + 6) (1 + length)) ≠
      Crc32c.unmask (decodeFixed32 (f.bytes header 4)) then
    ⟨kBadRecord, [], (clearBuffer r).reportCorruption r.bufferSize "checksum mismatch"⟩
  else
    let r' := r.removePrefix (kHeaderSize + length)
    -- skip a physical record that started before the initial offset
    if r'.endOfBufferOffset - r'.bufferSize - kHeaderSize - length < r.initialOffset then
      ⟨kBadRecord, [], r'⟩
    else ⟨type, f.bytes (header + kHeaderSize) length, r'⟩

/-- Reading a block either moves the file position by a whole block or reaches the end of
the file. -/
theorem readBlock_advances (f : File) (r : Reader) :
    2 * (f.size - (readBlock f r).filePos) + (if (readBlock f r).eof then 0 else 1) <
      2 * (f.size - r.filePos) + 1 := by
  simp only [readBlock]
  by_cases h : min kBlockSize (f.size - r.filePos) < kBlockSize
  · simp only [h, decide_true, if_true]
    omega
  · simp only [h, decide_false, Bool.false_eq_true, if_false]
    simp only [kBlockSize] at h ⊢
    omega

/-- `Reader::ReadPhysicalRecord`. -/
def readPhysicalRecord (f : File) (r : Reader) : Physical :=
  if r.bufferSize < kHeaderSize then
    -- the last read was a full block, so what is left is a trailer to skip
    if !r.eof then readPhysicalRecord f (readBlock f r)
    -- a truncated header at the end of the file is a torn write, not an error
    else ⟨kEof, [], clearBuffer r⟩
  else parsePhysicalRecord f r
termination_by 2 * (f.size - r.filePos) + if r.eof then 0 else 1
decreasing_by
  have heof : r.eof = false := by simpa using ‹(!r.eof) = true›
  simp only [heof, Bool.false_eq_true, if_false]
  exact readBlock_advances f r

/-- A parsed physical record that is not the end of the file consumes buffered bytes. -/
theorem parsePhysicalRecord_progress (f : File) (r : Reader) (hsize : kHeaderSize ≤ r.bufferSize)
    (h : (parsePhysicalRecord f r).type ≠ kEof) :
    progress f (parsePhysicalRecord f r).reader < progress f r := by
  have hpos : 0 < r.bufferSize := by simp only [kHeaderSize] at hsize; omega
  dsimp only [parsePhysicalRecord] at h ⊢
  -- one case per exit of the header parse
  split_ifs at h ⊢ with hlen
  · rw [progress_reportCorruption]
    exact progress_clearBuffer_lt f r hpos
  · exact absurd rfl h
  · exact progress_clearBuffer_lt f r hpos
  · rw [progress_reportCorruption]
    exact progress_clearBuffer_lt f r hpos
  -- the record is returned or skipped: either way its header leaves the buffer
  all_goals
    exact progress_removePrefix_lt f r (by unfold kHeaderSize; omega) (by omega)

/-- Every physical record other than the end of the file lowers the measure. -/
theorem readPhysicalRecord_progress (f : File) (r : Reader)
    (h : (readPhysicalRecord f r).type ≠ kEof) :
    progress f (readPhysicalRecord f r).reader < progress f r := by
  induction r using readPhysicalRecord.induct f with
  | case1 r hsize heof ih =>
    have heof' : r.eof = false := by simpa using heof
    rw [readPhysicalRecord, if_pos hsize, if_pos heof] at h ⊢
    exact lt_of_lt_of_le (ih h) (progress_readBlock_le f r heof')
  | case2 r hsize heof =>
    rw [readPhysicalRecord, if_pos hsize, if_neg heof] at h
    exact absurd rfl h
  | case3 r hsize =>
    rw [readPhysicalRecord, if_neg hsize] at h ⊢
    exact parsePhysicalRecord_progress f r (by omega) h

/-! ## Step equations

What one call of `ReadPhysicalRecord` does, by the state of the buffer and by what the file
holds at the buffer's start. The round-trip proofs of `PebblesDB.Log.RoundTrip` go through
these and never unfold the reader. -/

theorem readPhysicalRecord_of_le {f : File} {r : Reader} (h : kHeaderSize ≤ r.bufferSize) :
    readPhysicalRecord f r = parsePhysicalRecord f r := by
  rw [readPhysicalRecord, if_neg (by omega)]

theorem readPhysicalRecord_of_lt {f : File} {r : Reader} (h : r.bufferSize < kHeaderSize)
    (heof : r.eof = false) : readPhysicalRecord f r = readPhysicalRecord f (readBlock f r) := by
  rw [readPhysicalRecord, if_pos h, if_pos (by simp [heof])]

theorem readPhysicalRecord_of_eof {f : File} {r : Reader} (h : r.bufferSize < kHeaderSize)
    (heof : r.eof = true) : readPhysicalRecord f r = ⟨kEof, [], clearBuffer r⟩ := by
  rw [readPhysicalRecord, if_pos h, if_neg (by simp [heof])]

section ReadBack

variable {f : File} {offset : ℕ} {t : RecordType} {payload : List UInt8}

/-- The fields of a header as the reader decodes them from a file holding a written physical
record at `offset`. -/
theorem header_fields (hbytes : f.bytes offset (kHeaderSize + payload.length) =
      header t payload ++ payload) (hlen : payload.length < 65536) :
    parseLength (f.byte (offset + 4)) (f.byte (offset + 5)) = payload.length ∧
      charToUnsigned (f.byte (offset + 6)) = t.toNat ∧
      f.bytes offset 4 = encodeFixed32 (Crc32c.mask (Crc32c.extend (typeCrc t) payload)) ∧
      f.bytes (offset + 6) (1 + payload.length) = UInt8.ofNat t.toNat :: payload ∧
      f.bytes (offset + kHeaderSize) payload.length = payload := by
  have hbyte (k : ℕ) (hk : k < kHeaderSize) :
      f.byte (offset + k) = (header t payload ++ payload).getD k 0 :=
    File.byte_eq_of_bytes hbytes (k := k) (by omega)
  refine ⟨?_, ?_, ?_, ?_, ?_⟩
  · rw [hbyte 4 (by decide), hbyte 5 (by decide)]
    exact parseLength_header hlen
  · rw [hbyte 6 (by decide)]
    exact charToUnsigned_toNat t
  · have h := File.bytes_of_bytes hbytes (k := 0) (m := 4) (by unfold kHeaderSize; omega)
    rw [Nat.add_zero] at h
    rw [h]
    rfl
  · rw [File.bytes_of_bytes hbytes (k := 6) (m := 1 + payload.length)
      (by unfold kHeaderSize; omega)]
    exact List.take_of_length_le
      (by simp only [List.length_drop, List.length_append, length_header, kHeaderSize]; omega)
  · rw [File.bytes_of_bytes hbytes (k := kHeaderSize) (m := payload.length) le_rfl,
      List.drop_left' (length_header t payload), List.take_length]

/-- **Read back.** A buffer that starts with a physical record as the writer emits it yields
that record: its type, its payload, and the buffer past it. -/
theorem parsePhysicalRecord_of_bytes {r : Reader}
    (hbytes : f.bytes r.bufferStart (kHeaderSize + payload.length) = header t payload ++ payload)
    (hlen : payload.length < 65536) (ht : t ≠ .zeroType)
    (hsize : kHeaderSize + payload.length ≤ r.bufferSize)
    (hinit : r.initialOffset ≤ r.endOfBufferOffset - r.bufferSize) :
    parsePhysicalRecord f r =
      ⟨t.toNat, payload, r.removePrefix (kHeaderSize + payload.length)⟩ := by
  obtain ⟨hlength, htype, hcrc, hdata, hfragment⟩ := header_fields hbytes hlen
  have hzero : ¬(t.toNat = RecordType.zeroType.toNat ∧ payload.length = 0) := by
    rintro ⟨h, -⟩
    cases t <;> first | exact ht rfl | exact absurd h (by decide)
  -- the stored checksum is the one of the type byte and the payload
  have hsum : Crc32c.value (UInt8.ofNat t.toNat :: payload) =
      Crc32c.unmask (decodeFixed32 (encodeFixed32 (Crc32c.mask
        (Crc32c.extend (typeCrc t) payload)))) := by
    rw [decodeFixed32_encodeFixed32, Crc32c.unmask_mask, typeCrc, ← Crc32c.value_append]
    rfl
  have hstart : ¬(r.removePrefix (kHeaderSize + payload.length)).endOfBufferOffset -
      (r.removePrefix (kHeaderSize + payload.length)).bufferSize - kHeaderSize -
        payload.length < r.initialOffset := by
    simp only [removePrefix]
    omega
  rw [parsePhysicalRecord]
  simp only [hlength, htype, hcrc, hdata, hsum, hfragment]
  rw [if_neg (by omega), if_neg hzero, if_neg (by simp), if_neg hstart]

/-- A buffer that starts with seven zero bytes, space the writer reserved and never wrote,
reads as a bad record, and the rest of the buffer is dropped with it. -/
theorem parsePhysicalRecord_of_zero {r : Reader}
    (hzero : f.bytes r.bufferStart kHeaderSize = List.replicate kHeaderSize 0)
    (hsize : kHeaderSize ≤ r.bufferSize) :
    parsePhysicalRecord f r = ⟨kBadRecord, [], clearBuffer r⟩ := by
  have hbyte (k : ℕ) (hk : k < kHeaderSize) : f.byte (r.bufferStart + k) = 0 := by
    rw [File.byte_eq_of_bytes hzero hk]
    simp [List.getD_eq_getElem?_getD, hk]
  have hlength : parseLength (f.byte (r.bufferStart + 4)) (f.byte (r.bufferStart + 5)) = 0 := by
    rw [hbyte 4 (by decide), hbyte 5 (by decide)]
    rfl
  have htype : charToUnsigned (f.byte (r.bufferStart + 6)) = RecordType.zeroType.toNat := by
    rw [hbyte 6 (by decide)]
    rfl
  rw [parsePhysicalRecord]
  simp only [hlength, htype]
  rw [if_neg (by omega), if_pos ⟨trivial, trivial⟩]

end ReadBack

/-- The loop of `Reader::ReadRecord` after `scratch->clear()`: the fragments gathered so far,
whether a fragmented record is open, and the offset where it began. -/
def readRecordLoop (f : File) (r : Reader) (scratch : List UInt8) (inFragmentedRecord : Bool)
    (prospectiveRecordOffset : ℕ) : Option (List UInt8) × Reader :=
  let physicalRecordOffset := r.endOfBufferOffset - r.bufferSize
  let p := readPhysicalRecord f r
  if p.type = RecordType.fullType.toNat then
    let r' := p.reader.reportPartial scratch inFragmentedRecord "partial record without end(1)"
    (some p.fragment, { r' with lastRecordOffset := physicalRecordOffset })
  else if p.type = RecordType.firstType.toNat then
    let r' := p.reader.reportPartial scratch inFragmentedRecord "partial record without end(2)"
    readRecordLoop f r' p.fragment true physicalRecordOffset
  else if p.type = RecordType.middleType.toNat then
    if !inFragmentedRecord then
      readRecordLoop f (p.reader.reportCorruption p.fragment.length
        "missing start of fragmented record(1)") scratch inFragmentedRecord
        prospectiveRecordOffset
    else readRecordLoop f p.reader (scratch ++ p.fragment) inFragmentedRecord
      prospectiveRecordOffset
  else if p.type = RecordType.lastType.toNat then
    if !inFragmentedRecord then
      readRecordLoop f (p.reader.reportCorruption p.fragment.length
        "missing start of fragmented record(2)") scratch inFragmentedRecord
        prospectiveRecordOffset
    else
      (some (scratch ++ p.fragment),
        { p.reader with lastRecordOffset := prospectiveRecordOffset })
  else if p.type = kEof then
    -- a record cut off by the end of the file is a torn write: drop it silently
    (none, p.reader)
  else if p.type = kBadRecord then
    if inFragmentedRecord then
      readRecordLoop f (p.reader.reportCorruption scratch.length "error in middle of record") []
        false prospectiveRecordOffset
    else readRecordLoop f p.reader scratch inFragmentedRecord prospectiveRecordOffset
  else
    readRecordLoop f (p.reader.reportCorruption
        (p.fragment.length + if inFragmentedRecord then scratch.length else 0)
        ("unknown record type " ++ toString p.type)) [] false prospectiveRecordOffset
termination_by progress f r
decreasing_by
  all_goals
    -- every recursive call follows a physical record that is not the end of the file
    have hne : p.type ≠ kEof := by
      simp only [kEof, kBadRecord, kMaxRecordType, RecordType.toNat] at *
      omega
    try simp only [progress_reportCorruption, progress_reportPartial]
    exact readPhysicalRecord_progress f r hne

/-! ### Step equations of the record loop

One per branch of the `switch` that a well-formed log reaches, for a physical record already
read. -/

section LoopSteps

variable {f : File} {r r' : Reader} {fragment scratch : List UInt8} {inFragmentedRecord : Bool}
  {prospectiveRecordOffset : ℕ}

theorem readRecordLoop_of_full
    (hp : readPhysicalRecord f r = ⟨RecordType.fullType.toNat, fragment, r'⟩) :
    readRecordLoop f r scratch inFragmentedRecord prospectiveRecordOffset =
      (some fragment, { r'.reportPartial scratch inFragmentedRecord
        "partial record without end(1)" with
          lastRecordOffset := r.endOfBufferOffset - r.bufferSize }) := by
  rw [readRecordLoop, hp]
  simp only [if_true]

theorem readRecordLoop_of_first
    (hp : readPhysicalRecord f r = ⟨RecordType.firstType.toNat, fragment, r'⟩) :
    readRecordLoop f r scratch inFragmentedRecord prospectiveRecordOffset =
      readRecordLoop f (r'.reportPartial scratch inFragmentedRecord
        "partial record without end(2)") fragment true (r.endOfBufferOffset - r.bufferSize) := by
  rw [readRecordLoop, hp]
  simp +decide only [RecordType.toNat, if_true, if_false]

theorem readRecordLoop_of_last
    (hp : readPhysicalRecord f r = ⟨RecordType.lastType.toNat, fragment, r'⟩) :
    readRecordLoop f r scratch true prospectiveRecordOffset =
      (some (scratch ++ fragment), { r' with lastRecordOffset := prospectiveRecordOffset }) := by
  rw [readRecordLoop, hp]
  simp +decide only [RecordType.toNat, if_true, if_false]

theorem readRecordLoop_of_eof (hp : readPhysicalRecord f r = ⟨kEof, fragment, r'⟩) :
    readRecordLoop f r scratch inFragmentedRecord prospectiveRecordOffset = (none, r') := by
  rw [readRecordLoop, hp]
  simp +decide only [RecordType.toNat, kEof, kMaxRecordType, if_true, if_false]

theorem readRecordLoop_of_bad (hp : readPhysicalRecord f r = ⟨kBadRecord, fragment, r'⟩) :
    readRecordLoop f r scratch false prospectiveRecordOffset =
      readRecordLoop f r' scratch false prospectiveRecordOffset := by
  rw [readRecordLoop, hp]
  simp +decide only [RecordType.toNat, kEof, kBadRecord, kMaxRecordType, if_true, if_false]

end LoopSteps

/-- `Reader::ReadRecord`: the next logical record, or `none` at the end of the log. -/
def readRecord (f : File) (r : Reader) : Option (List UInt8) × Reader :=
  let r := if r.lastRecordOffset < r.initialOffset then skipToInitialBlock r else r
  readRecordLoop f r [] false 0

/-- A reader that has reached its initial offset starts the loop at once. -/
theorem readRecord_of_le {f : File} {r : Reader} (h : r.initialOffset ≤ r.lastRecordOffset) :
    readRecord f r = readRecordLoop f r [] false 0 := by
  rw [readRecord, if_neg (by omega)]

/-- At the end of the file `ReadRecord` returns `false`, and keeps returning it. -/
theorem readRecord_of_eof {f : File} {r : Reader} (h : r.initialOffset ≤ r.lastRecordOffset)
    (hbuf : r.bufferSize < kHeaderSize) (heof : r.eof = true) :
    readRecord f r = (none, clearBuffer r) := by
  rw [readRecord_of_le h, readRecordLoop_of_eof (readPhysicalRecord_of_eof hbuf heof)]

/-- The results of `n` successive calls of `ReadRecord`. -/
def readRecords (f : File) : Reader → ℕ → List (Option (List UInt8)) × Reader
  | r, 0 => ([], r)
  | r, n + 1 =>
    let first := readRecord f r
    let rest := readRecords f first.2 n
    (first.1 :: rest.1, rest.2)

theorem readRecords_succ {f : File} {r r' : Reader} {x : Option (List UInt8)} (n : ℕ)
    (h : readRecord f r = (x, r')) :
    readRecords f r (n + 1) = (x :: (readRecords f r' n).1, (readRecords f r' n).2) := by
  rw [readRecords, h]

end PebblesDB.Log
