import PebblesDB.Util.Coding

/-!
# The hash of `util/hash.cc`

`Hash(data, n, seed)`, the murmur-like hash that `BloomHash` calls with seed `0xbc9f1d34`. It
takes the input four bytes at a time as little-endian words, then folds in the last one to three
bytes. The tail bytes are read through `const char*`, so on the hosts the store is built for
(where `char` is signed) a byte of `0x80` or more is sign-extended before the shift: the model
keeps that, since it changes the hash of every key whose length is not a multiple of four and
whose tail holds such a byte.
-/

namespace PebblesDB

namespace Hash

/-- The multiplier `m`. -/
def m : UInt32 := 0xc6a4a793

/-- The final shift `r`. -/
def r : UInt32 := 24

/-- A byte read through a signed `char` and converted to `uint32_t`. -/
def signExtend (b : UInt8) : UInt32 :=
  if b < 128 then b.toUInt32 else b.toUInt32 ||| 0xffffff00

/-- The loop over whole four-byte words. -/
def body (h : UInt32) : List UInt8 → UInt32 × List UInt8
  | b₀ :: b₁ :: b₂ :: b₃ :: rest =>
    let h := (h + decodeFixed32 [b₀, b₁, b₂, b₃]) * m
    body (h ^^^ (h >>> 16)) rest
  | tail => (h, tail)

/-- The `switch` on the one to three bytes left, falling through from case 3 to case 1. -/
def tailMix (h : UInt32) : List UInt8 → UInt32
  | [b₀, b₁, b₂] =>
    let h := (h + (signExtend b₂ <<< 16) + (signExtend b₁ <<< 8) + signExtend b₀) * m
    h ^^^ (h >>> r)
  | [b₀, b₁] =>
    let h := (h + (signExtend b₁ <<< 8) + signExtend b₀) * m
    h ^^^ (h >>> r)
  | [b₀] =>
    let h := (h + signExtend b₀) * m
    h ^^^ (h >>> r)
  | _ => h

end Hash

open Hash in
/-- `Hash(data, n, seed)`. -/
def hash (data : List UInt8) (seed : UInt32) : UInt32 :=
  let (h, tail) := body (seed ^^^ (data.length.toUInt32 * m)) data
  tailMix h tail

end PebblesDB
