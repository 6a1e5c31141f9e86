import Mathlib.Data.List.GetD
import PebblesDB.Lib.Leb128

/-!
# Fixed-width coding

The little-endian fixed-width integers of `util/coding.h`. The source copies the bytes with
`memcpy` on little-endian hosts and falls back to shifts elsewhere; both produce the layout
written out below, which is the one every on-disk format of the store relies on.

Byte strings (`std::string`, `Slice`, `char*` buffers) are `List UInt8` throughout the model.

The varints of `util/coding.cc` are LEB128 (`PebblesDB.Lib.Leb128`): `EncodeVarint32` writes
its one to five bytes branch by branch, which is the LEB128 encoding (`encodeVarint32_eq`), and
`GetVarint32` is the LEB128 loop of a 32-bit decoder over five bytes, with a fast path for one
byte that agrees with it (`getVarint32_eq`). A length-prefixed slice reads back
(`getLengthPrefixedSlice_putLengthPrefixedSlice`) when its length fits the `uint32_t` that
`PutLengthPrefixedSlice` writes.
-/

namespace PebblesDB

/-- `EncodeFixed32`: the four bytes of `value`, least significant first. -/
def encodeFixed32 (value : UInt32) : List UInt8 :=
  [value.toUInt8, (value >>> 8).toUInt8, (value >>> 16).toUInt8, (value >>> 24).toUInt8]

/-- `DecodeFixed32`: read four bytes, least significant first. Bytes past the end of the
buffer read as zero, which the source never does: every caller has four bytes in hand. -/
def decodeFixed32 (ptr : List UInt8) : UInt32 :=
  (ptr.getD 0 0).toUInt32 ||| ((ptr.getD 1 0).toUInt32 <<< 8) |||
    ((ptr.getD 2 0).toUInt32 <<< 16) ||| ((ptr.getD 3 0).toUInt32 <<< 24)

/-- `EncodeFixed64`: the eight bytes of `value`, least significant first. -/
def encodeFixed64 (value : UInt64) : List UInt8 :=
  (List.range 8).map fun i ↦ (value >>> (8 * i).toUInt64).toUInt8

@[simp] theorem length_encodeFixed64 (value : UInt64) : (encodeFixed64 value).length = 8 := by
  simp [encodeFixed64]

@[simp] theorem length_encodeFixed32 (value : UInt32) : (encodeFixed32 value).length = 4 := rfl

/-- Decoding undoes encoding. Proved bit by bit: the four bytes cover the four disjoint
eight-bit ranges of the word. -/
@[simp] theorem decodeFixed32_encodeFixed32 (value : UInt32) :
    decodeFixed32 (encodeFixed32 value) = value := by
  apply UInt32.toBitVec_inj.mp
  simp only [decodeFixed32, encodeFixed32, List.getD_cons_zero, List.getD_cons_succ,
    UInt32.toBitVec_or, UInt32.toBitVec_shiftLeft, UInt32.toBitVec_shiftRight,
    UInt32.toBitVec_toUInt8, UInt8.toBitVec_toUInt32]
  apply BitVec.eq_of_getLsbD_eq
  intro i hi
  simp only [BitVec.getLsbD_or, BitVec.getLsbD_setWidth]
  -- one case per byte of the word
  rcases (by omega : i < 8 ∨ (8 ≤ i ∧ i < 16) ∨ (16 ≤ i ∧ i < 24) ∨ (24 ≤ i ∧ i < 32))
    with h | ⟨h1, h2⟩ | ⟨h1, h2⟩ | ⟨h1, h2⟩
  · simp [h, hi, show i < 16 by omega, show i < 24 by omega]
  · simp [h2, hi, show ¬ i < 8 by omega, show i - 8 < 8 by omega, show 8 + (i - 8) = i by omega,
      show i < 24 by omega]
  · simp [h2, hi, show ¬ i < 8 by omega, show ¬ i < 16 by omega, show ¬ i - 8 < 8 by omega,
      show i - 16 < 8 by omega, show 16 + (i - 16) = i by omega]
  · simp [h2, show ¬ i < 8 by omega, show ¬ i < 16 by omega, show ¬ i < 24 by omega,
      show ¬ i - 8 < 8 by omega, show ¬ i - 16 < 8 by omega, show i - 24 < 8 by omega,
      show 24 + (i - 24) = i by omega]

/-- Only the first four bytes are read. -/
theorem decodeFixed32_append {ptr : List UInt8} (h : 4 ≤ ptr.length) (rest : List UInt8) :
    decodeFixed32 (ptr ++ rest) = decodeFixed32 ptr := by
  simp only [decodeFixed32, List.getD_append _ _ _ _ (by omega : 0 < ptr.length),
    List.getD_append _ _ _ _ (by omega : 1 < ptr.length),
    List.getD_append _ _ _ _ (by omega : 2 < ptr.length),
    List.getD_append _ _ _ _ (by omega : 3 < ptr.length)]

@[simp] theorem length_flatMap_encodeFixed32 (values : List UInt32) :
    (values.flatMap encodeFixed32).length = 4 * values.length := by
  induction values with
  | nil => rfl
  | cons value values ih =>
    simp only [List.flatMap_cons, List.length_append, length_encodeFixed32, ih, List.length_cons]
    omega

/-- In an array of words, the `j`-th starts at byte `4 * j`. -/
theorem drop_flatMap_encodeFixed32 {values : List UInt32} {j : ℕ} (hj : j < values.length) :
    (values.flatMap encodeFixed32).drop (4 * j) =
      encodeFixed32 values[j] ++ (values.drop (j + 1)).flatMap encodeFixed32 := by
  induction values generalizing j with
  | nil => simp at hj
  | cons value values ih =>
    cases j with
    | zero => simp
    | succ j =>
      rw [List.flatMap_cons, show 4 * (j + 1) = 4 + 4 * j by omega, ← List.drop_drop,
        List.drop_left' (length_encodeFixed32 value), ih (by simpa using hj)]
      simp

/-- Reading the `j`-th word of an array of words, whatever follows it. -/
theorem decodeFixed32_drop_flatMap {values : List UInt32} {j : ℕ} (hj : j < values.length)
    (rest : List UInt8) :
    decodeFixed32 ((values.flatMap encodeFixed32 ++ rest).drop (4 * j)) = values[j] := by
  rw [List.drop_append_of_le_length (by rw [length_flatMap_encodeFixed32]; omega),
    drop_flatMap_encodeFixed32 hj, List.append_assoc, decodeFixed32_append (by simp),
    decodeFixed32_encodeFixed32]

/-- `DecodeFixed64`: two words, the low one first. -/
def decodeFixed64 (ptr : List UInt8) : UInt64 :=
  ((decodeFixed32 (ptr.drop 4)).toUInt64 <<< 32) ||| (decodeFixed32 ptr).toUInt64

/-- Decoding undoes encoding, bit by bit as for `decodeFixed32`: the eight bytes cover the eight
disjoint eight-bit ranges of the word. -/
@[simp] theorem decodeFixed64_encodeFixed64 (value : UInt64) :
    decodeFixed64 (encodeFixed64 value) = value := by
  apply UInt64.toBitVec_inj.mp
  simp only [decodeFixed64, encodeFixed64, decodeFixed32, List.range_succ, List.range_zero,
    List.nil_append, List.map_cons, List.map_nil, List.cons_append, List.drop_succ_cons,
    List.drop_zero, List.getD_cons_zero, List.getD_cons_succ, UInt64.toBitVec_or,
    UInt64.toBitVec_shiftLeft, UInt64.toBitVec_shiftRight, UInt32.toBitVec_or,
    UInt32.toBitVec_shiftLeft, UInt32.toBitVec_toUInt64, UInt8.toBitVec_toUInt32,
    UInt64.toBitVec_toUInt8]
  apply BitVec.eq_of_getLsbD_eq
  intro i hi
  simp only [Nat.reduceMul]
  -- one case per byte of the word; in each, every range test is decided by `omega`
  rcases (by omega : i < 8 ∨ (8 ≤ i ∧ i < 16) ∨ (16 ≤ i ∧ i < 24) ∨ (24 ≤ i ∧ i < 32) ∨
    (32 ≤ i ∧ i < 40) ∨ (40 ≤ i ∧ i < 48) ∨ (48 ≤ i ∧ i < 56) ∨ (56 ≤ i ∧ i < 64))
    with h | ⟨h1, h2⟩ | ⟨h1, h2⟩ | ⟨h1, h2⟩ | ⟨h1, h2⟩ | ⟨h1, h2⟩ | ⟨h1, h2⟩ | ⟨h1, h2⟩
  all_goals simp [BitVec.getLsbD_setWidth, BitVec.getLsbD_shiftLeft,
    BitVec.getLsbD_ushiftRight, hi]
  all_goals simp (disch := omega) only [decide_eq_true, decide_eq_false, Nat.sub_sub,
    Nat.reduceAdd, Nat.add_sub_cancel', Bool.true_and, Bool.false_and, Bool.and_false,
    Bool.and_true, Bool.or_false, Bool.false_or, Bool.not_true, Bool.not_false,
    BitVec.getLsbD_eq_getElem]

/-! ## Varints -/

/-- `EncodeVarint32`: one to five bytes, by the size of `v`. -/
def encodeVarint32 (v : UInt32) : List UInt8 :=
  let b : UInt32 := 128
  if v < (1 : UInt32) <<< 7 then [v.toUInt8]
  else if v < (1 : UInt32) <<< 14 then [(v ||| b).toUInt8, (v >>> 7).toUInt8]
  else if v < (1 : UInt32) <<< 21 then
    [(v ||| b).toUInt8, (v >>> 7 ||| b).toUInt8, (v >>> 14).toUInt8]
  else if v < (1 : UInt32) <<< 28 then
    [(v ||| b).toUInt8, (v >>> 7 ||| b).toUInt8, (v >>> 14 ||| b).toUInt8, (v >>> 21).toUInt8]
  else
    [(v ||| b).toUInt8, (v >>> 7 ||| b).toUInt8, (v >>> 14 ||| b).toUInt8,
      (v >>> 21 ||| b).toUInt8, (v >>> 28).toUInt8]

/-- `PutVarint32`. -/
def putVarint32 (dst : List UInt8) (v : UInt32) : List UInt8 :=
  dst ++ encodeVarint32 v

/-- `GetVarint32PtrFallback`: shifts `0` to `28`, so five bytes at most, into a `uint32_t`. -/
def getVarint32PtrFallback (p : List UInt8) : Option (UInt32 × List UInt8) :=
  (Leb128.decodeLoop 32 5 0 0 p).map fun r ↦ (r.1.toUInt32, r.2)

/-- `GetVarint32(Slice*, uint32_t*)` through `GetVarint32Ptr`: a first byte without the high bit
is the value, else the loop. The value and the rest of the input. -/
def getVarint32 (input : List UInt8) : Option (UInt32 × List UInt8) :=
  match input with
  | byte :: rest =>
    if byte.toUInt32 &&& 128 = 0 then some (byte.toUInt32, rest) else getVarint32PtrFallback input
  | [] => getVarint32PtrFallback input

/-- `PutLengthPrefixedSlice`: the size, as the `uint32_t` `PutVarint32` takes, then the bytes. -/
def putLengthPrefixedSlice (dst value : List UInt8) : List UInt8 :=
  putVarint32 dst value.length.toUInt32 ++ value

/-- `GetLengthPrefixedSlice(Slice*, Slice*)`: the slice and the rest of the input. -/
def getLengthPrefixedSlice (input : List UInt8) : Option (List UInt8 × List UInt8) :=
  match getVarint32 input with
  | some (len, input) =>
    if input.length ≥ len.toNat then some (input.take len.toNat, input.drop len.toNat) else none
  | none => none

theorem or_128_of_lt {m : ℕ} (hm : m < 256) : m ||| 128 = m % 128 + 128 := by
  have hall : ∀ i : Fin 256, i.val ||| 128 = i.val % 128 + 128 := by decide +kernel
  exact hall ⟨m, hm⟩

theorem toUInt8_eq (x : UInt32) : x.toUInt8 = x.toNat.toUInt8 := by
  apply UInt8.toNat_inj.1
  simp

/-- A byte with the high bit set: the low seven bits of `x`, and `128`. -/
theorem toUInt8_or_128 (x : UInt32) : (x ||| 128).toUInt8 = (x.toNat % 128 + 128).toUInt8 := by
  apply UInt8.toNat_inj.1
  simp only [UInt32.toNat_toUInt8, UInt32.toNat_or, Nat.toUInt8, UInt8.toNat_ofNat']
  have h128 : UInt32.toNat 128 = 128 := rfl
  rw [h128, Nat.or_mod_two_pow, or_128_of_lt (Nat.mod_lt _ (by norm_num))]
  norm_num
  omega

/-- **`EncodeVarint32` writes LEB128.** Each branch is the LEB128 encoding of the numbers it
takes. -/
theorem encodeVarint32_eq (v : UInt32) : encodeVarint32 v = Leb128.encode v.toNat := by
  have hv := v.toNat_lt
  simp only [encodeVarint32, UInt32.lt_iff_toNat_lt, UInt32.toNat_shiftLeft]
  simp only [toUInt8_or_128]
  simp only [toUInt8_eq, UInt32.toNat_shiftRight, Nat.shiftRight_eq_div_pow,
    UInt32.reduceToNat, Nat.reduceMod, Nat.reducePow, Nat.reduceShiftLeft]
  generalize v.toNat = n at *
  split_ifs with h1 h2 h3 h4
  · rw [Leb128.encode_of_lt h1]
  · rw [Leb128.encode_of_ge (by omega), Leb128.encode_of_lt (by omega)]
  · rw [Leb128.encode_of_ge (by omega), Leb128.encode_of_ge (by omega),
      Leb128.encode_of_lt (by omega)]
    simp only [Nat.div_div_eq_div_mul, Nat.reduceMul]
  · rw [Leb128.encode_of_ge (by omega), Leb128.encode_of_ge (by omega),
      Leb128.encode_of_ge (by omega), Leb128.encode_of_lt (by omega)]
    simp only [Nat.div_div_eq_div_mul, Nat.reduceMul]
  · rw [Leb128.encode_of_ge (by omega), Leb128.encode_of_ge (by omega),
      Leb128.encode_of_ge (by omega), Leb128.encode_of_ge (by omega),
      Leb128.encode_of_lt (by omega)]
    simp only [Nat.div_div_eq_div_mul, Nat.reduceMul]

/-- The fast path of `GetVarint32Ptr` reads what the loop reads. -/
theorem getVarint32_eq (input : List UInt8) : getVarint32 input = getVarint32PtrFallback input := by
  cases input with
  | nil => rfl
  | cons byte rest =>
    simp only [getVarint32]
    split
    · -- one byte without the high bit: the loop's last byte
      rename_i hfast
      have hlow : byte.toNat &&& 128 = 0 := by
        simpa [← UInt32.toNat_inj] using hfast
      simp [getVarint32PtrFallback, Leb128.decodeLoop, hlow]
    · rfl

theorem getVarint32_encodeVarint32 (v : UInt32) (rest : List UInt8) :
    getVarint32 (encodeVarint32 v ++ rest) = some (v, rest) := by
  have hv := v.toNat_lt
  have hdec : Leb128.decodeLoop 32 5 0 0 (Leb128.encode v.toNat ++ rest) =
      some (0 + v.toNat * 2 ^ 0, rest) :=
    Leb128.decodeLoop_encode rest (by norm_num) (by simpa using hv)
      (Leb128.length_encode_le (by norm_num)
        (lt_of_lt_of_le hv (Nat.pow_le_pow_right (by norm_num) (by omega))))
  rw [getVarint32_eq, getVarint32PtrFallback, encodeVarint32_eq, hdec]
  simp

/-- `GetVarint32` reads nothing past the bytes it consumes. -/
theorem getVarint32_append {input rest : List UInt8} {v : UInt32}
    (h : getVarint32 input = some (v, rest)) :
    ∃ chunk, input = chunk ++ rest ∧ ∀ rest', getVarint32 (chunk ++ rest') = some (v, rest') := by
  rw [getVarint32_eq, getVarint32PtrFallback, Option.map_eq_some_iff] at h
  obtain ⟨⟨r, rest₀⟩, hloop, hv⟩ := h
  obtain ⟨rfl, rfl⟩ := Prod.mk.inj hv
  obtain ⟨chunk, rfl, hchunk⟩ := Leb128.decodeLoop_append hloop
  refine ⟨chunk, rfl, fun rest' ↦ ?_⟩
  rw [getVarint32_eq, getVarint32PtrFallback, hchunk]
  rfl

/-- **A length-prefixed slice reads back**, when its length fits a `uint32_t`. -/
theorem getLengthPrefixedSlice_putLengthPrefixedSlice {value : List UInt8}
    (h : value.length < 2 ^ 32) (rest : List UInt8) :
    getLengthPrefixedSlice (putLengthPrefixedSlice [] value ++ rest) = some (value, rest) := by
  have hlen : value.length.toUInt32.toNat = value.length := by
    simpa using Nat.mod_eq_of_lt h
  simp only [getLengthPrefixedSlice, putLengthPrefixedSlice, putVarint32, List.nil_append,
    List.append_assoc, getVarint32_encodeVarint32, hlen]
  simp

/-- The same, with the bytes of the slice written out. -/
theorem getLengthPrefixedSlice_encode {value : List UInt8} (h : value.length < 2 ^ 32)
    (rest : List UInt8) :
    getLengthPrefixedSlice (encodeVarint32 value.length.toUInt32 ++ (value ++ rest)) =
      some (value, rest) := by
  simpa [putLengthPrefixedSlice, putVarint32] using
    getLengthPrefixedSlice_putLengthPrefixedSlice h rest

/-- A length prefix of `0` is an empty slice, whatever follows it. -/
theorem getLengthPrefixedSlice_zero (rest : List UInt8) :
    getLengthPrefixedSlice (0 :: rest) = some ([], rest) := by
  have h : getVarint32 (0 :: rest) = some (0, rest) := rfl
  simp [getLengthPrefixedSlice, h]

/-- `GetLengthPrefixedSlice` reads nothing past the bytes it consumes. -/
theorem getLengthPrefixedSlice_append {input value rest : List UInt8}
    (h : getLengthPrefixedSlice input = some (value, rest)) :
    ∃ chunk, input = chunk ++ rest ∧
      ∀ rest', getLengthPrefixedSlice (chunk ++ rest') = some (value, rest') := by
  unfold getLengthPrefixedSlice at h
  split at h
  · rename_i len input' hvar
    split at h
    · rename_i hle
      obtain ⟨rfl, rfl⟩ := Prod.mk.inj (Option.some.inj h)
      obtain ⟨chunk, rfl, hchunk⟩ := getVarint32_append hvar
      refine ⟨chunk ++ input'.take len.toNat, by simp, fun rest' ↦ ?_⟩
      have htake : (input'.take len.toNat).length = len.toNat := by simp; omega
      simp only [getLengthPrefixedSlice, List.append_assoc, hchunk]
      rw [if_pos (by simp; omega), List.take_left' htake, List.drop_left' htake]
    · cases h
  · cases h

/-- `EncodeVarint64`: seven bits at a time, with the high bit, while `v ≥ 128`, then `v`. -/
def encodeVarint64 (v : UInt64) : List UInt8 :=
  if v ≥ 128 then ((v &&& 127) ||| 128).toUInt8 :: encodeVarint64 (v >>> 7) else [v.toUInt8]
termination_by v.toNat
decreasing_by
  rename_i h
  have hv : 128 ≤ v.toNat := by simpa [UInt64.le_iff_toNat_le] using h
  rw [UInt64.toNat_shiftRight, Nat.shiftRight_eq_div_pow]
  simp only [UInt64.reduceToNat, Nat.reduceMod, Nat.reducePow]
  omega

/-- `PutVarint64`. -/
def putVarint64 (dst : List UInt8) (v : UInt64) : List UInt8 :=
  dst ++ encodeVarint64 v

/-- `GetVarint64(Slice*, uint64_t*)` through `GetVarint64Ptr`: shifts `0` to `63`, so ten bytes
at most, into a `uint64_t`. -/
def getVarint64 (input : List UInt8) : Option (UInt64 × List UInt8) :=
  (Leb128.decodeLoop 64 10 0 0 input).map fun r ↦ (r.1.toUInt64, r.2)

/-- **`EncodeVarint64` writes LEB128.** -/
theorem encodeVarint64_eq (v : UInt64) : encodeVarint64 v = Leb128.encode v.toNat := by
  induction h : v.toNat using Nat.strong_induction_on generalizing v with
  | _ n ih =>
    rw [encodeVarint64]
    split
    · -- a byte with the high bit, then the rest of the number
      rename_i hge
      have hv : 128 ≤ v.toNat := by simpa [UInt64.le_iff_toNat_le] using hge
      have hshift : (v >>> 7).toNat = v.toNat / 128 := by
        rw [UInt64.toNat_shiftRight, Nat.shiftRight_eq_div_pow]
        simp
      have hbyte : ((v &&& 127) ||| 128).toUInt8 = (v.toNat % 128 + 128).toUInt8 := by
        apply UInt8.toNat_inj.1
        simp only [UInt64.toNat_toUInt8, UInt64.toNat_or, UInt64.toNat_and, Nat.toUInt8,
          UInt8.toNat_ofNat', UInt64.reduceToNat]
        rw [show (127 : ℕ) = 2 ^ 7 - 1 by norm_num, Nat.and_two_pow_sub_one_eq_mod,
          or_128_of_lt (by omega)]
        omega
      rw [hbyte, ih _ (by omega) _ hshift, ← h, Leb128.encode_of_ge hv]
    · rename_i hlt
      have hv : v.toNat < 128 := by simpa [UInt64.le_iff_toNat_le] using hlt
      rw [← h, Leb128.encode_of_lt hv]
      simp

theorem getVarint64_encodeVarint64 (v : UInt64) (rest : List UInt8) :
    getVarint64 (encodeVarint64 v ++ rest) = some (v, rest) := by
  have hv := v.toNat_lt
  have hdec : Leb128.decodeLoop 64 10 0 0 (Leb128.encode v.toNat ++ rest) =
      some (0 + v.toNat * 2 ^ 0, rest) :=
    Leb128.decodeLoop_encode rest (by norm_num) (by simpa using hv)
      (Leb128.length_encode_le (by norm_num)
        (lt_of_lt_of_le hv (Nat.pow_le_pow_right (by norm_num) (by omega))))
  rw [getVarint64, encodeVarint64_eq, hdec]
  simp

/-- `GetVarint64` reads nothing past the bytes it consumes. -/
theorem getVarint64_append {input rest : List UInt8} {v : UInt64}
    (h : getVarint64 input = some (v, rest)) :
    ∃ chunk, input = chunk ++ rest ∧ ∀ rest', getVarint64 (chunk ++ rest') = some (v, rest') := by
  rw [getVarint64, Option.map_eq_some_iff] at h
  obtain ⟨⟨r, rest₀⟩, hloop, hv⟩ := h
  obtain ⟨rfl, rfl⟩ := Prod.mk.inj hv
  obtain ⟨chunk, rfl, hchunk⟩ := Leb128.decodeLoop_append hloop
  refine ⟨chunk, rfl, fun rest' ↦ ?_⟩
  rw [getVarint64, hchunk]
  rfl

/-! ## Lengths, and input cut short -/

/-- `VarintLength`: one byte, and one more for each shift by seven bits while `v ≥ 128`. -/
def varintLength (v : UInt64) : ℕ :=
  if v ≥ 128 then varintLength (v >>> 7) + 1 else 1
termination_by v.toNat
decreasing_by
  rename_i h
  have hv : 128 ≤ v.toNat := by simpa [UInt64.le_iff_toNat_le] using h
  rw [UInt64.toNat_shiftRight, Nat.shiftRight_eq_div_pow]
  simp only [UInt64.reduceToNat, Nat.reduceMod, Nat.reducePow]
  omega

/-- `EncodeVarint64` writes `VarintLength` bytes: both take one step per seven bits. -/
theorem length_encodeVarint64 (v : UInt64) : (encodeVarint64 v).length = varintLength v := by
  fun_induction varintLength v with
  | case1 v hge ih => rw [encodeVarint64, if_pos hge, List.length_cons, ih]
  | case2 v hlt => rw [encodeVarint64, if_neg hlt, List.length_singleton]

/-- The five branches of `EncodeVarint32` write `VarintLength` bytes too. -/
theorem length_encodeVarint32 (v : UInt32) :
    (encodeVarint32 v).length = varintLength v.toUInt64 := by
  rw [← length_encodeVarint64, encodeVarint64_eq, encodeVarint32_eq, UInt32.toNat_toUInt64]

/-- `*input` after a reader that moves it only when it succeeds, as `GetVarint32` and
`GetVarint64` do. -/
def inputAfter {α : Type} (read : List UInt8 → Option (α × List UInt8)) (input : List UInt8) :
    List UInt8 :=
  ((read input).map Prod.snd).getD input

/-- `*input` after `GetLengthPrefixedSlice(Slice*, Slice*)`, also when it fails: `GetVarint32`
moves it past the length before the size is checked, and a failed check leaves it there. -/
def getLengthPrefixedSliceInput (input : List UInt8) : List UInt8 :=
  match getVarint32 input with
  | some (len, input) => if input.length ≥ len.toNat then input.drop len.toNat else input
  | none => input

/-- On success, `*input` is what `getLengthPrefixedSlice` leaves. -/
theorem getLengthPrefixedSliceInput_of_eq_some {input value rest : List UInt8}
    (h : getLengthPrefixedSlice input = some (value, rest)) :
    getLengthPrefixedSliceInput input = rest := by
  unfold getLengthPrefixedSlice at h
  unfold getLengthPrefixedSliceInput
  split at h
  · split at h
    · rename_i hle
      rw [if_pos hle]
      exact (Prod.mk.inj (Option.some.inj h)).2
    · cases h
  · cases h

theorem getVarint32_of_prefix {v : UInt32} {p : List UInt8} (hp : p <+: encodeVarint32 v)
    (hlen : p.length < (encodeVarint32 v).length) : getVarint32 p = none := by
  rw [encodeVarint32_eq] at hp hlen
  rw [getVarint32_eq, getVarint32PtrFallback, Leb128.decodeLoop_of_prefix hp hlen,
    Option.map_none]

theorem getVarint64_of_prefix {w : UInt64} {p : List UInt8} (hp : p <+: encodeVarint64 w)
    (hlen : p.length < (encodeVarint64 w).length) : getVarint64 p = none := by
  rw [encodeVarint64_eq] at hp hlen
  rw [getVarint64, Leb128.decodeLoop_of_prefix hp hlen, Option.map_none]

/-- **A length-prefixed slice cut short is refused.** A prefix that ends inside the length is
left as it is; one that ends inside the bytes has lost its length. -/
theorem getLengthPrefixedSlice_of_prefix {value p : List UInt8} (h : value.length < 2 ^ 32)
    (hp : p <+: putLengthPrefixedSlice [] value)
    (hlen : p.length < (putLengthPrefixedSlice [] value).length) :
    getLengthPrefixedSlice p = none ∧
      (p.length < (encodeVarint32 value.length.toUInt32).length →
        getLengthPrefixedSliceInput p = p) ∧
      ((encodeVarint32 value.length.toUInt32).length ≤ p.length →
        getLengthPrefixedSliceInput p = p.drop (encodeVarint32 value.length.toUInt32).length) := by
  have hsize : value.length.toUInt32.toNat = value.length := by
    simpa using Nat.mod_eq_of_lt h
  rw [putLengthPrefixedSlice, putVarint32, List.nil_append] at hp hlen
  by_cases hshort : p.length < (encodeVarint32 value.length.toUInt32).length
  · -- the prefix ends inside the length, which does not read
    have hvar : getVarint32 p = none :=
      getVarint32_of_prefix (List.prefix_of_prefix_length_le hp (List.prefix_append _ _)
        (by rw [List.length_append] at hlen; omega)) hshort
    refine ⟨by simp [getLengthPrefixedSlice, hvar],
      fun _ ↦ by simp [getLengthPrefixedSliceInput, hvar], fun hge ↦ absurd hge (by omega)⟩
  · -- the whole length, then only part of the bytes
    obtain ⟨q, rfl⟩ : encodeVarint32 value.length.toUInt32 <+: p :=
      List.prefix_of_prefix_length_le (List.prefix_append _ _) hp (by omega)
    have hq : q.length < value.length := by
      simp only [List.length_append] at hlen
      omega
    have hvar := getVarint32_encodeVarint32 value.length.toUInt32 q
    refine ⟨?_, fun hlt ↦ absurd hlt hshort, fun _ ↦ ?_⟩
    · simp only [getLengthPrefixedSlice, hvar, hsize]
      rw [if_neg (by omega)]
    · simp only [getLengthPrefixedSliceInput, hvar, hsize, List.drop_left]
      rw [if_neg (by omega)]

/-- **The coding of `util/coding.cc`.** Varints read back whatever follows them and take
`VarintLength` bytes; a length-prefixed slice shorter than `2 ^ 32` bytes reads back; and input
that ends inside an encoding is refused. The varint readers then leave `*input` as it was, while
`GetLengthPrefixedSlice` has moved it past the length when the length was whole. -/
theorem coding_roundTrip :
    (∀ (v : UInt32) (rest : List UInt8), getVarint32 (encodeVarint32 v ++ rest) = some (v, rest)) ∧
    (∀ (w : UInt64) (rest : List UInt8), getVarint64 (encodeVarint64 w ++ rest) = some (w, rest)) ∧
    (∀ v : UInt32, (encodeVarint32 v).length = varintLength v.toUInt64) ∧
    (∀ w : UInt64, (encodeVarint64 w).length = varintLength w) ∧
    (∀ value rest : List UInt8, value.length < 2 ^ 32 →
      getLengthPrefixedSlice (putLengthPrefixedSlice [] value ++ rest) = some (value, rest)) ∧
    (∀ (v : UInt32) (p : List UInt8), p <+: encodeVarint32 v →
      p.length < (encodeVarint32 v).length → getVarint32 p = none ∧ inputAfter getVarint32 p = p) ∧
    (∀ (w : UInt64) (p : List UInt8), p <+: encodeVarint64 w →
      p.length < (encodeVarint64 w).length → getVarint64 p = none ∧ inputAfter getVarint64 p = p) ∧
    (∀ value p : List UInt8, value.length < 2 ^ 32 → p <+: putLengthPrefixedSlice [] value →
      p.length < (putLengthPrefixedSlice [] value).length →
      getLengthPrefixedSlice p = none ∧
        (p.length < (encodeVarint32 value.length.toUInt32).length →
          getLengthPrefixedSliceInput p = p) ∧
        ((encodeVarint32 value.length.toUInt32).length ≤ p.length →
          getLengthPrefixedSliceInput p =
            p.drop (encodeVarint32 value.length.toUInt32).length)) := by
  refine ⟨getVarint32_encodeVarint32, getVarint64_encodeVarint64, length_encodeVarint32,
    length_encodeVarint64, fun value rest h ↦ getLengthPrefixedSlice_putLengthPrefixedSlice h rest,
    fun v p hp hlen ↦ ?_, fun w p hp hlen ↦ ?_,
    fun value p h hp hlen ↦ getLengthPrefixedSlice_of_prefix h hp hlen⟩
  · have hnone := getVarint32_of_prefix hp hlen
    exact ⟨hnone, by rw [inputAfter, hnone]; rfl⟩
  · have hnone := getVarint64_of_prefix hp hlen
    exact ⟨hnone, by rw [inputAfter, hnone]; rfl⟩

theorem coding_roundTrip_slice :
    getLengthPrefixedSlice (putLengthPrefixedSlice [] [5] ++ [7]) = some ([5], [7]) :=
  coding_roundTrip.2.2.2.2.1 [5] [7] (by decide)

/-- The byte `1` is the whole length of the slice `[5]`, without its byte: refused, and gone
from the input. -/
theorem getLengthPrefixedSlice_consumes_length :
    [1] <+: putLengthPrefixedSlice [] [5] ∧ getLengthPrefixedSlice [1] = none ∧
      getLengthPrefixedSliceInput [1] = [] := by
  decide

/-! ## What the readers consume -/

section Suffix

variable {input rest : List UInt8}

theorem length_lt_of_getVarint32 {v : UInt32} (h : getVarint32 input = some (v, rest)) :
    rest.length < input.length := by
  rw [getVarint32_eq, getVarint32PtrFallback, Option.map_eq_some_iff] at h
  obtain ⟨⟨r, rest₀⟩, hloop, hv⟩ := h
  obtain ⟨rfl, rfl⟩ := Prod.mk.inj hv
  exact Leb128.length_lt_of_decodeLoop hloop

theorem getVarint32_suffix {v : UInt32} (h : getVarint32 input = some (v, rest)) :
    rest <:+ input := by
  obtain ⟨chunk, rfl, -⟩ := getVarint32_append h
  exact List.suffix_append chunk rest

theorem getVarint64_suffix {v : UInt64} (h : getVarint64 input = some (v, rest)) :
    rest <:+ input := by
  obtain ⟨chunk, rfl, -⟩ := getVarint64_append h
  exact List.suffix_append chunk rest

theorem getLengthPrefixedSlice_suffix {value : List UInt8}
    (h : getLengthPrefixedSlice input = some (value, rest)) : rest <:+ input := by
  obtain ⟨chunk, rfl, -⟩ := getLengthPrefixedSlice_append h
  exact List.suffix_append chunk rest

end Suffix

end PebblesDB
