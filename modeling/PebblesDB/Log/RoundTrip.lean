import PebblesDB.Log.Reader
import PebblesDB.Log.Writer

/-!
# Reading back what the writer wrote

A reader that starts at the beginning of a log written by one writer should return the
records in order and then report the end. This module joins the step equations of the writer
(`PebblesDB.Log.Writer`) and of the reader (`PebblesDB.Log.Reader`) block by block: a block that
begins with a physical record the writer emitted reads that record back
(`readPhysicalRecord_of_block`), and a block that begins with seven bytes nobody wrote reads as
a bad record that takes the rest of the block with it (`readPhysicalRecord_of_zero_block`).

## Where the round trip fails

`Writer::AddRecord` reserves the bytes of a record before it writes them. When a record is cut
into fragments and its last fragment ends exactly at a block boundary, `ComputeRecordSize`
still counts a header for the empty leftover, so the reservation ends seven bytes past the last
byte written. The next record is written after those seven bytes, which stay zero. The reader
takes them for preallocated space, drops the rest of the block with them, and so loses the
next record without reporting anything: `readRecords_writeLog_loses_record`, for a first record
of two blocks' payload (65522 bytes) and any second record that fits in the third block.
-/

namespace PebblesDB.Log

open Reader

/-! ## Reading a block -/

section Block

variable {f : File} {r : Reader}

/-- A reader at a block boundary with an empty buffer reads the next block and returns the
physical record the writer emitted at its start. -/
theorem readPhysicalRecord_of_block {t : RecordType} {payload : List UInt8}
    (hbytes : f.bytes r.filePos (kHeaderSize + payload.length) = header t payload ++ payload)
    (ht : t ≠ .zeroType) (hroom : kHeaderSize + payload.length ≤ kBlockSize)
    (hfull : r.filePos + kBlockSize ≤ f.size) (hbuf : r.bufferSize = 0) (heof : r.eof = false)
    (hinit : r.initialOffset ≤ r.endOfBufferOffset) :
    readPhysicalRecord f r =
      ⟨t.toNat, payload, (readBlock f r).removePrefix (kHeaderSize + payload.length)⟩ := by
  have hread := readBlock_of_le hfull
  have hlen : payload.length < 65536 := by
    unfold kBlockSize kHeaderSize at hroom
    omega
  rw [readPhysicalRecord_of_lt (by rw [hbuf]; decide) heof,
    readPhysicalRecord_of_le (by rw [hread]; exact le_trans (Nat.le_add_right _ _) hroom), hread]
  exact parsePhysicalRecord_of_bytes hbytes hlen ht hroom (by simpa using hinit)

/-- A reader at a block boundary with an empty buffer, where the next seven bytes of the file
were never written, reads a bad record and discards the block. -/
theorem readPhysicalRecord_of_zero_block
    (hzero : f.bytes r.filePos kHeaderSize = List.replicate kHeaderSize 0)
    (hroom : r.filePos + kHeaderSize ≤ f.size) (hbuf : r.bufferSize = 0)
    (heof : r.eof = false) :
    readPhysicalRecord f r = ⟨kBadRecord, [], clearBuffer (readBlock f r)⟩ := by
  have hsize : kHeaderSize ≤ (readBlock f r).bufferSize :=
    le_min (by decide) (by omega)
  rw [readPhysicalRecord_of_lt (by rw [hbuf]; decide) heof, readPhysicalRecord_of_le hsize]
  exact parsePhysicalRecord_of_zero hzero hsize

end Block

/-! ## The failing log -/

section Failure

variable {r1 r2 : List UInt8}

/-- The log of `[r1, r2]` when `r1` carries 65522 bytes, two blocks' worth of payload: a first
fragment filling block 0, a last fragment filling block 1, and `r2` at offset 65543, where
the writer's reservation for `r1` ended. -/
theorem writeLog_two_blocks (h1 : r1.length = 65522) (h2 : r2.length < 32754) :
    (writeLog [r1, r2]).2 =
      emitPhysicalRecordAt
        (emitPhysicalRecordAt (emitPhysicalRecordAt File.empty .firstType (r1.take 32761) 0)
          .lastType (r1.drop 32761) 32768)
        .fullType r2 65543 := by
  have hres : reservedEnd 0 r1.length = 65543 := by
    rw [h1]
    decide
  have hroom : fragmentRoom 0 = 32761 := rfl
  have hnext : 0 + kHeaderSize + 32761 = 32768 := rfl
  simp only [writeLog, List.foldl_cons, List.foldl_nil, Writer.addRecord, hres]
  -- the fragments of `r1`, then `r2` in one piece
  rw [@emitFragments_of_lt File.empty r1 0 true (by decide) (by rw [h1]; decide), hroom, hnext,
    @emitFragments_of_le _ (r1.drop 32761) 32768 false (by decide) (by simp [h1]; decide),
    @emitFragments_of_le _ r2 65543 true (by decide)
      (by unfold fragmentRoom kBlockSize kHeaderSize; omega)]
  rfl

/-- What the reader finds in that log: its length, the two fragments of `r1` at the starts of
blocks 0 and 1, and at the start of block 2 the seven bytes reserved for `r1` and never
written. -/
theorem writeLog_two_blocks_layout (h1 : r1.length = 65522) (h2 : r2.length < 32754) :
    (writeLog [r1, r2]).2.size = 65550 + r2.length ∧
      (writeLog [r1, r2]).2.bytes 0 (kHeaderSize + (r1.take 32761).length) =
        header .firstType (r1.take 32761) ++ r1.take 32761 ∧
      (writeLog [r1, r2]).2.bytes 32768 (kHeaderSize + (r1.drop 32761).length) =
        header .lastType (r1.drop 32761) ++ r1.drop 32761 ∧
      (writeLog [r1, r2]).2.bytes 65536 kHeaderSize = List.replicate kHeaderSize 0 := by
  have hlen0 : (r1.take 32761).length = 32761 := by simp [h1]
  have hlen1 : (r1.drop 32761).length = 32761 := by simp [h1]
  rw [writeLog_two_blocks h1 h2]
  refine ⟨?_, ?_, ?_, ?_⟩
  · simp only [size_emitPhysicalRecordAt, File.size_empty, hlen0, hlen1, kHeaderSize]
    omega
  · rw [bytes_emitPhysicalRecordAt_of_disjoint (Or.inr (by rw [hlen0]; decide)),
      bytes_emitPhysicalRecordAt_of_disjoint (Or.inr (by rw [hlen0]; decide)),
      bytes_emitPhysicalRecordAt]
  · rw [bytes_emitPhysicalRecordAt_of_disjoint (Or.inr (by rw [hlen1]; decide)),
      bytes_emitPhysicalRecordAt]
  -- block 2 starts between the end of `r1`'s last fragment and the start of `r2`
  · rw [bytes_emitPhysicalRecordAt_of_disjoint (Or.inr (by decide)),
      bytes_emitPhysicalRecordAt_of_disjoint (Or.inl (by rw [hlen1]; decide)),
      bytes_emitPhysicalRecordAt_of_disjoint (Or.inl (by rw [hlen0]; decide)), File.bytes_empty]

/-- A checking reader started at offset 0 that has consumed the file up to `pos` and holds
nothing in its buffer. -/
def readerAt (pos : ℕ) : Reader :=
  { Reader.init true 0 with bufferStart := pos, filePos := pos, endOfBufferOffset := pos }

/-- The first call of `ReadRecord` on that log returns `r1`, assembled from blocks 0 and 1. -/
theorem readRecord_two_blocks {f : File} (h1 : r1.length = 65522)
    (hsize : 65536 ≤ f.size)
    (hfirst : f.bytes 0 (kHeaderSize + (r1.take 32761).length) =
      header .firstType (r1.take 32761) ++ r1.take 32761)
    (hlast : f.bytes 32768 (kHeaderSize + (r1.drop 32761).length) =
      header .lastType (r1.drop 32761) ++ r1.drop 32761) :
    readRecord f (Reader.init true 0) = (some r1, readerAt 65536) := by
  have hlen0 : (r1.take 32761).length = 32761 := by simp [h1]
  have hlen1 : (r1.drop 32761).length = 32761 := by simp [h1]
  -- block 0 holds the first fragment
  have hblock0 := readPhysicalRecord_of_block (r := Reader.init true 0) hfirst (by decide)
    (by rw [hlen0]; decide) (by unfold kBlockSize; exact le_trans (by decide) hsize) rfl rfl
    le_rfl
  have hreader0 : (readBlock f (Reader.init true 0)).removePrefix
      (kHeaderSize + (r1.take 32761).length) = readerAt 32768 := by
    rw [readBlock_of_le (by unfold kBlockSize; exact le_trans (by decide) hsize), hlen0]
    rfl
  rw [hreader0] at hblock0
  -- block 1 holds the last fragment
  have hblock1 := readPhysicalRecord_of_block (r := readerAt 32768) hlast (by decide)
    (by rw [hlen1]; decide) (by unfold kBlockSize; exact hsize) rfl rfl (by decide)
  have hreader1 : (readBlock f (readerAt 32768)).removePrefix
      (kHeaderSize + (r1.drop 32761).length) = readerAt 65536 := by
    rw [readBlock_of_le (by unfold kBlockSize; exact hsize), hlen1]
    rfl
  rw [hreader1] at hblock1
  rw [readRecord_of_le le_rfl, readRecordLoop_of_first hblock0, reportPartial_false,
    readRecordLoop_of_last hblock1, List.take_append_drop]
  rfl

/-- A last, partial block that starts with seven zero bytes ends the log: the reader drops the
whole block, whatever else it holds, without a report, and the next call finds the end of the
file too. -/
theorem readRecords_zero_tail {f : File} {pos : ℕ}
    (hzero : f.bytes pos kHeaderSize = List.replicate kHeaderSize 0)
    (hroom : pos + kHeaderSize ≤ f.size) (htail : f.size < pos + kBlockSize) :
    readRecords f (readerAt pos) 2 =
      ([none, none], clearBuffer (clearBuffer (clearBuffer (readBlock f (readerAt pos))))) := by
  have hdrop := readPhysicalRecord_of_zero_block (r := readerAt pos) hzero hroom rfl rfl
  have heof : (clearBuffer (readBlock f (readerAt pos))).eof = true := by
    rw [readBlock_of_lt htail]
    rfl
  have hempty : (clearBuffer (readBlock f (readerAt pos))).bufferSize < kHeaderSize := by
    simp [clearBuffer, kHeaderSize]
  have hcall1 : readRecord f (readerAt pos) =
      (none, clearBuffer (clearBuffer (readBlock f (readerAt pos)))) := by
    rw [readRecord_of_le le_rfl, readRecordLoop_of_bad hdrop,
      readRecordLoop_of_eof (readPhysicalRecord_of_eof hempty heof)]
  have hcall2 := readRecord_of_eof (f := f)
    (r := clearBuffer (clearBuffer (readBlock f (readerAt pos)))) le_rfl
    (by simp [clearBuffer, kHeaderSize]) heof
  rw [readRecords_succ 1 hcall1, readRecords_succ 0 hcall2]
  rfl

/-- **The round trip fails.** In the log of a 65522-byte record followed by any record that fits
in the third block, the reader returns the first record and then the end of the log: the second
record is lost, and nothing is reported. -/
theorem readRecords_writeLog_loses_record (h1 : r1.length = 65522) (h2 : r2.length < 32754) :
    (readRecords (writeLog [r1, r2]).2 (Reader.init true 0) 3).1 = [some r1, none, none] ∧
      (readRecords (writeLog [r1, r2]).2 (Reader.init true 0) 3).2.reports = [] := by
  obtain ⟨hsize, hfirst, hlast, hzero⟩ := writeLog_two_blocks_layout h1 h2
  have hcall := readRecord_two_blocks h1 (by rw [hsize]; omega) hfirst hlast
  have hrest := readRecords_zero_tail hzero
    (by rw [hsize]; unfold kHeaderSize; omega) (by rw [hsize]; unfold kBlockSize; omega)
  rw [readRecords_succ 2 hcall, hrest]
  exact ⟨rfl, rfl⟩

theorem readRecords_writeLog_loses_short_record :
    (List.replicate 65522 (97 : UInt8)).length = 65522 ∧ [(98 : UInt8)].length < 32754 ∧
      (readRecords (writeLog [List.replicate 65522 97, [98]]).2 (Reader.init true 0) 3).1 =
        [some (List.replicate 65522 97), none, none] ∧
      (readRecords (writeLog [List.replicate 65522 97, [98]]).2 (Reader.init true 0) 3).2.reports =
        [] :=
  ⟨List.length_replicate, by decide,
    readRecords_writeLog_loses_record List.length_replicate (by decide)⟩

end Failure

end PebblesDB.Log
