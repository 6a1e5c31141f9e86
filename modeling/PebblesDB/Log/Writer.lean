import PebblesDB.Env.File
import PebblesDB.Log.Format

/-!
# The log writer

`db/log_writer.cc`. PebblesDB lets several threads append to one log at once, so
`Writer::AddRecord` works in two phases. It first reserves the byte range of the whole record
with closed-form arithmetic and a compare-and-swap on `offset_` (`reservedEnd`, built on
`ComputeRecordSize`); then it writes the fragments at offsets computed again, one at a time, by
the same loop as the sequential LevelDB writer (`emitFragments`). Nothing ties the two
computations together: that they agree is a property of the arithmetic, and it fails in one
case (see `PebblesDB.Log.RoundTrip`).

The destination is the mapped file of `PebblesDB.Env.File`, whose writes never fail; the
fragment loop's early exit on a failed write is therefore never taken and is not modelled.
Offsets are unbounded naturals: the `uint64_t` arithmetic of the source would wrap only past
2⁶⁴ bytes.
-/

namespace PebblesDB.Log

/-- `Writer::ComputeRecordSize`: the end offset of a record whose first fragment filled its
block up to the block boundary `start`, with `remain` bytes (payload plus one header) still to
place. -/
def computeRecordSize (start remain : ℕ) : ℕ :=
  let perBlock := kBlockSize - kHeaderSize
  let wholeBlocks := remain / perBlock
  let leftover := remain % perBlock
  start + wholeBlocks * kBlockSize + kHeaderSize + leftover

/-- The `end_offset` that `AddRecord` installs in `offset_` for an `n`-byte payload when
`offset_` was `startOffset`. -/
def reservedEnd (startOffset n : ℕ) : ℕ :=
  -- a block tail shorter than a header is skipped: round up to the next block
  let roundupStart :=
    if kBlockSize - startOffset % kBlockSize < kHeaderSize then
      (startOffset + kHeaderSize) / kBlockSize * kBlockSize
    else startOffset
  let left := kBlockSize - roundupStart % kBlockSize
  if kHeaderSize + n ≤ left then roundupStart + kHeaderSize + n
  else computeRecordSize (roundupStart + left) (n + kHeaderSize - left)

/-- `Writer::EmitPhysicalRecordAt`: the header at `offset`, the payload right after it. -/
def emitPhysicalRecordAt (dest : File) (t : RecordType) (payload : List UInt8) (offset : ℕ) :
    File :=
  (dest.writeAt offset (header t payload)).writeAt (offset + kHeaderSize) payload

/-- The type of a fragment: whether it begins and whether it ends the record. -/
def fragmentType (isBegin isEnd : Bool) : RecordType :=
  if isBegin && isEnd then .fullType
  else if isBegin then .firstType
  else if isEnd then .lastType
  else .middleType

/-- Where the next fragment's header goes: `offset` itself, or the next block boundary when the
block has fewer than `kHeaderSize` bytes left (the trailer). -/
def fragmentStart (offset : ℕ) : ℕ :=
  if kBlockSize - offset % kBlockSize < kHeaderSize then offset + (kBlockSize - offset % kBlockSize)
  else offset

/-- The payload bytes a fragment starting at `start` can hold. -/
def fragmentRoom (start : ℕ) : ℕ :=
  kBlockSize - start % kBlockSize - kHeaderSize

/-- Whether a header would start exactly `kHeaderSize` bytes before a block boundary: the one
position at which the loop emits a fragment with an empty payload. -/
def headerOnlyRoom (offset : ℕ) : ℕ :=
  if kBlockSize - offset % kBlockSize = kHeaderSize then 1 else 0

/-- A fragment starts at least a header's length before the end of its block, and it starts
exactly a header's length before it only where `offset` already did. -/
theorem fragmentStart_mod (offset : ℕ) :
    fragmentStart offset % kBlockSize ≤ kBlockSize - kHeaderSize ∧
      (fragmentStart offset % kBlockSize = kBlockSize - kHeaderSize →
        headerOnlyRoom offset = 1) := by
  unfold fragmentStart headerOnlyRoom
  by_cases hc : kBlockSize - offset % kBlockSize < kHeaderSize
  · rw [if_pos hc]
    simp only [kBlockSize, kHeaderSize] at hc ⊢
    omega
  · rw [if_neg hc]
    refine ⟨by simp only [kBlockSize, kHeaderSize] at hc ⊢; omega, fun h ↦ ?_⟩
    have hroom : kBlockSize - offset % kBlockSize = kHeaderSize := by
      simp only [kBlockSize, kHeaderSize] at hc h ⊢; omega
    rw [if_pos hroom]

theorem headerOnlyRoom_le (offset : ℕ) : headerOnlyRoom offset ≤ 1 := by
  unfold headerOnlyRoom
  split <;> omega

/-- The fragment loop makes progress: either it writes at least one payload byte, or it writes
an empty fragment into a header-only tail and so moves on to a block start. -/
theorem fragment_progress (offset n : ℕ)
    (h : 0 < n - min n (fragmentRoom (fragmentStart offset))) :
    2 * (n - min n (fragmentRoom (fragmentStart offset))) +
        headerOnlyRoom (fragmentStart offset + kHeaderSize +
          min n (fragmentRoom (fragmentStart offset))) <
      2 * n + headerOnlyRoom offset := by
  obtain ⟨hroom, hboundary⟩ := fragmentStart_mod offset
  generalize fragmentStart offset = s at *
  by_cases hm : 0 < min n (fragmentRoom s)
  · have := headerOnlyRoom_le (s + kHeaderSize + min n (fragmentRoom s))
    omega
  · -- an empty fragment: the room was zero, so the header sat right before a boundary
    have hs : s % kBlockSize = kBlockSize - kHeaderSize := by
      simp only [fragmentRoom, kBlockSize, kHeaderSize] at hm hroom h ⊢
      omega
    have hnext : headerOnlyRoom (s + kHeaderSize + min n (fragmentRoom s)) = 0 := by
      have hz : min n (fragmentRoom s) = 0 := by omega
      rw [hz, headerOnlyRoom, if_neg]
      simp only [kBlockSize, kHeaderSize] at hs ⊢
      omega
    rw [hnext, hboundary hs]
    omega

/-- The fragment loop of `AddRecord` (`do { ... } while (s.ok() && left > 0)`), with `rest`
the payload still to write (`ptr` and `left` of the source) and `offset` the next write
position. -/
def emitFragments (dest : File) (rest : List UInt8) (offset : ℕ) (isBegin : Bool) : File :=
  -- switch to a new block, filling the trailer with zeros
  let dest := if kBlockSize - offset % kBlockSize < kHeaderSize then
      dest.writeAt offset (List.replicate (kBlockSize - offset % kBlockSize) 0)
    else dest
  let start := fragmentStart offset
  let fragmentLength := min rest.length (fragmentRoom start)
  let t := fragmentType isBegin (rest.length == fragmentLength)
  let dest := emitPhysicalRecordAt dest t (rest.take fragmentLength) start
  if 0 < rest.length - fragmentLength then
    emitFragments dest (rest.drop fragmentLength) (start + kHeaderSize + fragmentLength) false
  else dest
termination_by 2 * rest.length + headerOnlyRoom offset
decreasing_by
  simp only [List.length_drop]
  exact fragment_progress offset rest.length ‹_›

/-! ## Step equations and frame lemmas -/

theorem fragmentStart_of_le {offset : ℕ} (h : kHeaderSize ≤ kBlockSize - offset % kBlockSize) :
    fragmentStart offset = offset := by
  rw [fragmentStart, if_neg (by omega)]

/-- The last fragment: what is left fits in the block. -/
theorem emitFragments_of_le {dest : File} {rest : List UInt8} {offset : ℕ} {isBegin : Bool}
    (htrailer : kHeaderSize ≤ kBlockSize - offset % kBlockSize)
    (hfit : rest.length ≤ fragmentRoom offset) :
    emitFragments dest rest offset isBegin =
      emitPhysicalRecordAt dest (fragmentType isBegin true) rest offset := by
  rw [emitFragments, if_neg (not_lt.mpr htrailer), fragmentStart_of_le htrailer,
    min_eq_left hfit, Nat.sub_self, if_neg (Nat.lt_irrefl 0), List.take_length, beq_self_eq_true]

/-- A fragment that fills the block: the rest goes on from the next block. -/
theorem emitFragments_of_lt {dest : File} {rest : List UInt8} {offset : ℕ} {isBegin : Bool}
    (htrailer : kHeaderSize ≤ kBlockSize - offset % kBlockSize)
    (hspill : fragmentRoom offset < rest.length) :
    emitFragments dest rest offset isBegin =
      emitFragments
        (emitPhysicalRecordAt dest (fragmentType isBegin false) (rest.take (fragmentRoom offset))
          offset)
        (rest.drop (fragmentRoom offset)) (offset + kHeaderSize + fragmentRoom offset) false := by
  have hmore : 0 < rest.length - fragmentRoom offset := by omega
  have hend : (rest.length == fragmentRoom offset) = false := by
    simpa using Nat.ne_of_gt hspill
  rw [emitFragments, if_neg (not_lt.mpr htrailer), fragmentStart_of_le htrailer,
    min_eq_right hspill.le, if_pos hmore, hend]

theorem size_emitPhysicalRecordAt (dest : File) (t : RecordType) (payload : List UInt8)
    (offset : ℕ) :
    (emitPhysicalRecordAt dest t payload offset).size =
      max dest.size (offset + kHeaderSize + payload.length) := by
  simp only [emitPhysicalRecordAt, File.size_writeAt, length_header]
  omega

/-- **Read back.** The bytes of a physical record, right after it is emitted. -/
theorem bytes_emitPhysicalRecordAt (dest : File) (t : RecordType) (payload : List UInt8)
    (offset : ℕ) :
    (emitPhysicalRecordAt dest t payload offset).bytes offset (kHeaderSize + payload.length) =
      header t payload ++ payload := by
  rw [File.bytes_add, emitPhysicalRecordAt,
    File.bytes_writeAt_of_disjoint (Or.inr le_rfl), File.bytes_writeAt_self]
  rw [← length_header t payload, File.bytes_writeAt_self]

/-- **Frame rule.** Emitting a physical record leaves every window outside it alone. -/
theorem bytes_emitPhysicalRecordAt_of_disjoint {dest : File} {t : RecordType}
    {payload : List UInt8} {offset o n : ℕ}
    (h : offset + kHeaderSize + payload.length ≤ o ∨ o + n ≤ offset) :
    (emitPhysicalRecordAt dest t payload offset).bytes o n = dest.bytes o n := by
  rw [emitPhysicalRecordAt, File.bytes_writeAt_of_disjoint (by omega),
    File.bytes_writeAt_of_disjoint (by simp only [length_header]; omega)]

/-- A log writer: `offset_`, the end of the bytes reserved so far. -/
structure Writer where
  /-- `offset_`. -/
  offset : ℕ

/-- `Writer::AddRecord` for a writer that is the log's only caller, so that its
compare-and-swap succeeds at once: reserve, then emit the fragments from the old offset. -/
def Writer.addRecord (w : Writer) (dest : File) (slice : List UInt8) : Writer × File :=
  (⟨reservedEnd w.offset slice.length⟩, emitFragments dest slice w.offset true)

/-- A log built by one writer appending `records`, in order, to an empty file. -/
def writeLog (records : List (List UInt8)) : Writer × File :=
  records.foldl (fun wf r ↦ wf.1.addRecord wf.2 r) (⟨0⟩, File.empty)

end PebblesDB.Log
