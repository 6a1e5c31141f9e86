import PebblesDB.Util.Coding
import PebblesDB.Util.Crc32c

/-!
# The log format

`db/log_format.h`, shared by the write-ahead log and the MANIFEST. A file is a sequence of
32 KiB blocks; a block holds physical records, each a seven-byte header (masked CRC-32C of type
and payload, payload length, type) followed by the payload. A logical record that does not fit
the rest of its block is cut into a first, middle and last fragment; a block tail shorter than
a header is a zero-filled trailer.

The header is the one piece of the format that both sides compute, so it is defined here:
`header` is what `Writer::EmitPhysicalRecordAt` writes, and `parseLength` and `charToUnsigned`
are how `Reader::ReadPhysicalRecord` reads its fields back.
-/

namespace PebblesDB.Log

/-- `log::RecordType`. -/
inductive RecordType
  | zeroType
  | fullType
  | firstType
  | middleType
  | lastType
  deriving DecidableEq, Repr

/-- The numeric value of a record type, as stored in the header's last byte. -/
def RecordType.toNat : RecordType → ℕ
  | .zeroType => 0
  | .fullType => 1
  | .firstType => 2
  | .middleType => 3
  | .lastType => 4

/-- `kMaxRecordType`. -/
def kMaxRecordType : ℕ := 4

/-- `kBlockSize`. -/
def kBlockSize : ℕ := 32768

/-- `kHeaderSize`: checksum (4 bytes), length (2 bytes), type (1 byte). -/
def kHeaderSize : ℕ := 7

/-- The checksum of the type byte alone, which the writer's constructor precomputes in
`type_crc_`. -/
def typeCrc (t : RecordType) : UInt32 :=
  Crc32c.value [UInt8.ofNat t.toNat]

/-- The seven header bytes `EmitPhysicalRecordAt` writes before `payload`. -/
def header (t : RecordType) (payload : List UInt8) : List UInt8 :=
  encodeFixed32 (Crc32c.mask (Crc32c.extend (typeCrc t) payload)) ++
    [UInt8.ofNat (payload.length % 256), UInt8.ofNat (payload.length / 256),
      UInt8.ofNat t.toNat]

/-- The payload length the reader assembles from header bytes 4 and 5: `a | (b << 8)`. -/
def parseLength (a b : UInt8) : ℕ :=
  a.toNat ||| (b.toNat <<< 8)

/-- The reader takes the type byte as a (signed) `char` and widens it to `unsigned int`: bytes
from 128 up sign-extend. -/
def charToUnsigned (c : UInt8) : ℕ :=
  if c.toNat < 128 then c.toNat else c.toNat + (2 ^ 32 - 256)

@[simp] theorem length_header (t : RecordType) (payload : List UInt8) :
    (header t payload).length = kHeaderSize := rfl

/-- The length field reads back as written, for any payload a fragment can hold. -/
theorem parseLength_header {n : ℕ} (h : n < 65536) :
    parseLength (UInt8.ofNat (n % 256)) (UInt8.ofNat (n / 256)) = n := by
  have h1 : (UInt8.ofNat (n % 256)).toNat = n % 256 := by
    rw [UInt8.toNat_ofNat']
    omega
  have h2 : (UInt8.ofNat (n / 256)).toNat = n / 256 := by
    rw [UInt8.toNat_ofNat']
    omega
  rw [parseLength, h1, h2, Nat.or_comm,
    ← Nat.shiftLeft_add_eq_or_of_lt (by omega : n % 256 < 2 ^ 8), Nat.shiftLeft_eq]
  omega

theorem charToUnsigned_toNat (t : RecordType) : charToUnsigned (UInt8.ofNat t.toNat) = t.toNat := by
  cases t <;> rfl

end PebblesDB.Log
