import Mathlib.Data.UInt

/-!
# CRC-32C

`util/crc32c.h` and `util/crc32c.cc`. The source computes the Castagnoli CRC with eight-way
sliced lookup tables (and, where available, the SSE4.2 instruction); the tables are generated
from the reflected polynomial `0x82f63b78`, so one table step equals eight steps of the bitwise
division below. The model keeps the bitwise division, since the log format only relies on two
facts about the checksum: `Extend` continues a checksum over appended data
(`extend_append`), and `Unmask` undoes `Mask` (`unmask_mask`).
-/

namespace PebblesDB.Crc32c

/-- One bit of the reflected division by the Castagnoli polynomial. -/
def shiftStep (c : UInt32) : UInt32 :=
  if c &&& 1 = 1 then (c >>> 1) ^^^ 0x82f63b78 else c >>> 1

/-- One byte of the division: the step the source's lookup tables tabulate. -/
def crcByte (l : UInt32) (b : UInt8) : UInt32 :=
  shiftStep^[8] (l ^^^ b.toUInt32)

/-- `crc32c::Extend`: the checksum of `A ++ data` when `initCrc` is the checksum of `A`. -/
def extend (initCrc : UInt32) (data : List UInt8) : UInt32 :=
  data.foldl crcByte (initCrc ^^^ 0xFFFFFFFF) ^^^ 0xFFFFFFFF

/-- `crc32c::Value`. -/
def value (data : List UInt8) : UInt32 :=
  extend 0 data

/-- `crc32c::kMaskDelta`. -/
def kMaskDelta : UInt32 := 0xa282ead8

/-- `crc32c::Mask`: rotate right by 15 bits and add a constant, so that a checksum stored
inside checksummed data does not checksum to itself. -/
def mask (crc : UInt32) : UInt32 :=
  ((crc >>> 15) ||| (crc <<< 17)) + kMaskDelta

/-- `crc32c::Unmask`. -/
def unmask (maskedCrc : UInt32) : UInt32 :=
  let rot := maskedCrc - kMaskDelta
  (rot >>> 17) ||| (rot <<< 15)

/-- Checksums continue over appended data: the property `Extend`'s contract states. -/
theorem extend_append (c : UInt32) (a b : List UInt8) :
    extend c (a ++ b) = extend (extend c a) b := by
  simp only [extend, List.foldl_append, UInt32.xor_assoc, UInt32.xor_self, UInt32.xor_zero]

theorem value_append (a b : List UInt8) : value (a ++ b) = extend (value a) b :=
  extend_append 0 a b

/-- Rotating right by 15 and then by 17 bits is the identity on 32-bit words. -/
private theorem rotate_rotate (x : UInt32) :
    (((x >>> 15) ||| (x <<< 17)) >>> 17) ||| (((x >>> 15) ||| (x <<< 17)) <<< 15) = x := by
  apply UInt32.toBitVec_inj.mp
  simp only [UInt32.toBitVec_or, UInt32.toBitVec_shiftRight, UInt32.toBitVec_shiftLeft]
  apply BitVec.eq_of_getLsbD_eq
  intro i hi
  have hhigh : x.toBitVec.getLsbD (15 + (17 + i)) = false := BitVec.getLsbD_of_ge _ _ (by omega)
  by_cases h : i < 15
  · simp [BitVec.getLsbD_or, BitVec.getLsbD_ushiftRight, BitVec.getLsbD_shiftLeft, hhigh, h]
    omega
  · simp [BitVec.getLsbD_or, BitVec.getLsbD_ushiftRight, BitVec.getLsbD_shiftLeft, hhigh, h, hi,
      show 15 + (i - 15) = i by omega, show i - 15 < 17 by omega]

@[simp] theorem unmask_mask (crc : UInt32) : unmask (mask crc) = crc := by
  simp only [unmask, mask, UInt32.add_sub_cancel]
  exact rotate_rotate crc

end PebblesDB.Crc32c
