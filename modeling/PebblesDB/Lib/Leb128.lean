import Mathlib.Tactic.Ring

/-!
# LEB128

Unsigned LEB128, the base-128 format of varints: the seven-bit digits of a number, least
significant first, in one byte each, with the high bit set on every byte but the last.

`encode` writes a number. `decodeLoop` is the reading loop of a `width`-bit decoder that reads
at most `groups` bytes: a byte with its high bit set adds its low seven bits at the current shift
and the loop goes on, the first byte without it adds all of its bits and ends the number. The
accumulator keeps `width` bits, as an unsigned machine word would.

A number below `2 ^ width` whose encoding fits in `groups` bytes reads back, whatever follows it
(`decodeLoop_encode`). A decoder reads nothing past the bytes it consumes (`decodeLoop_append`),
and input that ends inside a number is refused (`decodeLoop_of_prefix`): every byte of an
encoding but the last has its high bit set.
-/

namespace Leb128

/-- The digits of `v`, in at most `fuel + 1` bytes; `encode` gives enough fuel. -/
def encodeDigits : ℕ → ℕ → List UInt8
  | 0, v => [v.toUInt8]
  | fuel + 1, v =>
    if v < 128 then [v.toUInt8] else (v % 128 + 128).toUInt8 :: encodeDigits fuel (v / 128)

/-- The LEB128 encoding of `v`. -/
def encode (v : ℕ) : List UInt8 :=
  encodeDigits v v

/-- The reading loop, with at most `groups` bytes left to read, at bit `shift`, having read
`result` so far. -/
def decodeLoop (width : ℕ) : ℕ → ℕ → ℕ → List UInt8 → Option (ℕ × List UInt8)
  | 0, _, _, _ => none
  | _ + 1, _, _, [] => none
  | groups + 1, shift, result, byte :: rest =>
    if byte.toNat &&& 128 ≠ 0 then
      decodeLoop width groups (shift + 7)
        (result ||| ((byte.toNat &&& 127) <<< shift) % 2 ^ width) rest
    else some (result ||| (byte.toNat <<< shift) % 2 ^ width, rest)

/-! ## Encoding -/

/-- Any fuel from `v` on gives the same digits. -/
theorem encodeDigits_congr : ∀ (fuel fuel' v : ℕ), v ≤ fuel → v ≤ fuel' →
    encodeDigits fuel v = encodeDigits fuel' v
  | 0, 0, _, _, _ => rfl
  | 0, _ + 1, v, hv, _ => by
    obtain rfl : v = 0 := Nat.le_zero.1 hv
    rfl
  | _ + 1, 0, v, _, hv => by
    obtain rfl : v = 0 := Nat.le_zero.1 hv
    rfl
  | fuel + 1, fuel' + 1, v, hv, hv' => by
    simp only [encodeDigits]
    split
    · rfl
    · rw [encodeDigits_congr fuel fuel' (v / 128) (by omega) (by omega)]

theorem encode_of_lt {v : ℕ} (hv : v < 128) : encode v = [v.toUInt8] := by
  cases v with
  | zero => rfl
  | succ n => simp [encode, encodeDigits, hv]

/-- A number of more than one digit: its low digit with the high bit set, then the others. -/
theorem encode_of_ge {v : ℕ} (hv : 128 ≤ v) :
    encode v = (v % 128 + 128).toUInt8 :: encode (v / 128) := by
  obtain ⟨n, rfl⟩ : ∃ n, v = n + 1 := ⟨v - 1, by omega⟩
  rw [encode, encodeDigits, if_neg (by omega), encode,
    encodeDigits_congr n ((n + 1) / 128) _ (by omega) le_rfl]

theorem encode_ne_nil (v : ℕ) : encode v ≠ [] := by
  by_cases hv : v < 128
  · simp [encode_of_lt hv]
  · simp [encode_of_ge (Nat.le_of_not_lt hv)]

/-- A number below `2 ^ (7 * g)` takes at most `g` bytes. -/
theorem length_encode_le : ∀ {g v : ℕ}, 0 < g → v < 2 ^ (7 * g) → (encode v).length ≤ g
  | 0, _, hg, _ => absurd hg (Nat.lt_irrefl 0)
  | g + 1, v, _, hv => by
    by_cases hlt : v < 128
    · simp [encode_of_lt hlt]
    · -- one byte for the low digit, the rest for `v / 128`
      have hpow : 2 ^ (7 * (g + 1)) = 2 ^ (7 * g) * 128 := by
        rw [show 7 * (g + 1) = 7 * g + 7 by ring, pow_add]
        norm_num
      have hg : 0 < g := by
        rcases Nat.eq_zero_or_pos g with rfl | hg
        · rw [hpow] at hv
          omega
        · exact hg
      have hdiv : v / 128 < 2 ^ (7 * g) := by
        rw [Nat.div_lt_iff_lt_mul (by norm_num), ← hpow]
        exact hv
      rw [encode_of_ge (Nat.le_of_not_lt hlt), List.length_cons]
      exact Nat.succ_le_succ (length_encode_le hg hdiv)

/-! ## Decoding -/

/-- The high bit of a byte. -/
theorem land_128_eq_zero_iff {x : ℕ} (hx : x < 256) : x &&& 128 = 0 ↔ x < 128 := by
  have hall : ∀ i : Fin 256, (i.val &&& 128 = 0 ↔ i.val < 128) := by decide +kernel
  exact hall ⟨x, hx⟩

theorem toNat_toUInt8_of_lt {x : ℕ} (hx : x < 256) : x.toUInt8.toNat = x := by
  simpa using Nat.mod_eq_of_lt hx

/-- Reading the encoding of `w` after `acc`, the bits below `shift`: `w` lands at `shift`, as
long as the whole fits the accumulator and the encoding fits the bytes left. -/
theorem decodeLoop_encode {width : ℕ} (rest : List UInt8) :
    ∀ {groups shift acc w : ℕ}, acc < 2 ^ shift → acc + w * 2 ^ shift < 2 ^ width →
      (encode w).length ≤ groups →
      decodeLoop width groups shift acc (encode w ++ rest) = some (acc + w * 2 ^ shift, rest)
  | 0, _, _, w, _, _, hlen => absurd hlen (by simpa using encode_ne_nil w)
  | groups + 1, shift, acc, w, hacc, hfit, hlen => by
    by_cases hw : w < 128
    · -- the last digit: no high bit, and the accumulator takes it whole
      have hbyte : w.toUInt8.toNat = w := toNat_toUInt8_of_lt (by omega)
      have hlast : w <<< shift < 2 ^ width := by
        rw [Nat.shiftLeft_eq]
        omega
      rw [encode_of_lt hw, List.singleton_append, decodeLoop, hbyte,
        if_neg (by simpa using (land_128_eq_zero_iff (by omega)).2 hw), Nat.mod_eq_of_lt hlast,
        Nat.or_comm, ← Nat.shiftLeft_add_eq_or_of_lt hacc, Nat.shiftLeft_eq, Nat.add_comm]
    · -- a digit with the high bit: its low seven bits go in at `shift`, the rest follows
      have hge : 128 ≤ w := Nat.le_of_not_lt hw
      have hbyte : (w % 128 + 128).toUInt8.toNat = w % 128 + 128 :=
        toNat_toUInt8_of_lt (by omega)
      have hlow : (w % 128 + 128) &&& 127 = w % 128 := by
        rw [show (127 : ℕ) = 2 ^ 7 - 1 by norm_num, Nat.and_two_pow_sub_one_eq_mod]
        omega
      have hsplit : w = w % 128 + 128 * (w / 128) := (Nat.mod_add_div w 128).symm
      have hdigit : w % 128 * 2 ^ shift ≤ w * 2 ^ shift :=
        Nat.mul_le_mul_right _ (Nat.mod_le w 128)
      have hmod : (w % 128) <<< shift % 2 ^ width = w % 128 * 2 ^ shift := by
        rw [Nat.shiftLeft_eq, Nat.mod_eq_of_lt (by omega)]
      have hacc' : acc ||| (w % 128) <<< shift % 2 ^ width = acc + w % 128 * 2 ^ shift := by
        rw [hmod, Nat.or_comm, ← Nat.shiftLeft_eq, ← Nat.shiftLeft_add_eq_or_of_lt hacc,
          Nat.shiftLeft_eq, Nat.add_comm]
      have hbound : acc + w % 128 * 2 ^ shift < 2 ^ (shift + 7) := by
        have : w % 128 * 2 ^ shift ≤ 127 * 2 ^ shift :=
          Nat.mul_le_mul_right _ (by omega)
        rw [pow_add]
        omega
      have hsum : acc + w % 128 * 2 ^ shift + w / 128 * 2 ^ (shift + 7) =
          acc + w * 2 ^ shift := by
        conv_rhs => rw [hsplit]
        ring
      rw [encode_of_ge hge, List.cons_append, decodeLoop, hbyte,
        if_pos (by simpa using (land_128_eq_zero_iff (by omega)).not.2 (by omega)), hlow, hacc',
        decodeLoop_encode rest hbound (by omega) (by simpa [encode_of_ge hge] using hlen), hsum]

/-- **A decoder reads only what it consumes**: the bytes it took, followed by anything else,
read the same. -/
theorem decodeLoop_append {width : ℕ} :
    ∀ {groups shift acc r : ℕ} {bytes rest : List UInt8},
      decodeLoop width groups shift acc bytes = some (r, rest) →
      ∃ chunk, bytes = chunk ++ rest ∧
        ∀ rest', decodeLoop width groups shift acc (chunk ++ rest') = some (r, rest')
  | 0, _, _, _, _, _, h => by simp [decodeLoop] at h
  | _ + 1, _, _, _, [], _, h => by simp [decodeLoop] at h
  | groups + 1, shift, acc, r, byte :: bytes, rest, h => by
    rw [decodeLoop] at h
    split at h
    · -- a continuation byte: the chunk is this byte and the chunk of the rest
      obtain ⟨chunk, rfl, hchunk⟩ := decodeLoop_append h
      refine ⟨byte :: chunk, rfl, fun rest' ↦ ?_⟩
      rw [List.cons_append, decodeLoop, if_pos ‹_›, hchunk]
    · -- the last byte
      obtain ⟨rfl, rfl⟩ := Prod.mk.inj (Option.some.inj h)
      refine ⟨[byte], rfl, fun rest' ↦ ?_⟩
      rw [List.singleton_append, decodeLoop, if_neg ‹_›]

/-- A number takes at least one byte. -/
theorem length_lt_of_decodeLoop {width : ℕ} :
    ∀ {groups shift acc r : ℕ} {bytes rest : List UInt8},
      decodeLoop width groups shift acc bytes = some (r, rest) → rest.length < bytes.length
  | 0, _, _, _, _, _, h => by simp [decodeLoop] at h
  | _ + 1, _, _, _, [], _, h => by simp [decodeLoop] at h
  | groups + 1, shift, acc, r, byte :: bytes, rest, h => by
    rw [decodeLoop] at h
    split at h
    · exact Nat.lt_succ_of_lt (length_lt_of_decodeLoop h)
    · obtain ⟨rfl, rfl⟩ := Prod.mk.inj (Option.some.inj h)
      exact Nat.lt_succ_self _

/-- Bytes that all have the high bit continue a number to their end: they are refused. -/
theorem decodeLoop_of_high {width : ℕ} :
    ∀ {groups shift acc : ℕ} {bytes : List UInt8}, (∀ b ∈ bytes, 128 ≤ b.toNat) →
      decodeLoop width groups shift acc bytes = none
  | 0, _, _, _, _ => rfl
  | _ + 1, _, _, [], _ => rfl
  | groups + 1, shift, acc, b :: bytes, h => by
    have hb : 128 ≤ b.toNat := h b List.mem_cons_self
    rw [decodeLoop, if_pos ((land_128_eq_zero_iff b.toNat_lt).not.2 (by omega))]
    exact decodeLoop_of_high fun c hc ↦ h c (List.mem_cons_of_mem _ hc)

/-- Every byte of a proper prefix of an encoding has the high bit. -/
theorem high_of_isPrefix_mem : ∀ {p : List UInt8} {w : ℕ}, p <+: encode w →
    p.length < (encode w).length → ∀ b ∈ p, 128 ≤ b.toNat
  | [], _, _, _, _, hb => absurd hb List.not_mem_nil
  | b :: p, w, hp, hlen, c, hc => by
    by_cases hw : w < 128
    · rw [encode_of_lt hw] at hlen
      simp at hlen
    · -- the first byte is the low digit with the high bit, the rest a prefix of `w / 128`
      rw [encode_of_ge (by omega)] at hp hlen
      obtain ⟨rfl, htail⟩ := List.cons_prefix_cons.1 hp
      rcases List.mem_cons.1 hc with rfl | hc
      · rw [toNat_toUInt8_of_lt (by omega)]
        omega
      · exact high_of_isPrefix_mem htail (by simpa using hlen) c hc

/-- **Input that ends inside a number is refused.** -/
theorem decodeLoop_of_prefix {width groups shift acc w : ℕ} {p : List UInt8} (hp : p <+: encode w)
    (hlen : p.length < (encode w).length) : decodeLoop width groups shift acc p = none :=
  decodeLoop_of_high (high_of_isPrefix_mem hp hlen)

end Leb128
