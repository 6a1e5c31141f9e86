import Mathlib.Data.List.GetD

/-!
# Bit arrays stored in bytes

A bit array packed eight bits to a byte, bit `pos` being bit `pos % 8` of byte `pos / 8`, with
the two operations a Bloom filter needs: setting a bit and testing one. On top of them, the
probe sequences of double hashing: `k` positions `h, h + δ, h + 2δ, …` taken modulo the number
of bits, with the additions wrapping at `2 ^ 32`.

Two facts carry every Bloom-filter argument: setting bits never clears a bit
(`testBit_setBit_of_testBit`), and the probes just set all test positive
(`testProbes_setProbes`). Probes modulo the size of an array stay in it, so an array written in
place inside a larger buffer leaves the rest of the buffer alone (`setProbes_append`). Nothing
here depends on how the probe start and step are computed.
-/

namespace BitArray

/-- The mask of bit `pos % 8` within its byte. -/
def bitMask (pos : ℕ) : UInt8 :=
  1 <<< (pos % 8).toUInt8

/-- Set bit `pos`. -/
def setBit (a : List UInt8) (pos : ℕ) : List UInt8 :=
  a.modify (pos / 8) (· ||| bitMask pos)

/-- Whether bit `pos` is set; bits past the end read as clear. -/
def testBit (a : List UInt8) (pos : ℕ) : Bool :=
  ((a[pos / 8]?).getD 0 &&& bitMask pos) != 0

theorem bitMask_ne_zero (pos : ℕ) : bitMask pos ≠ 0 := by
  have hlt : pos % 8 < 8 := Nat.mod_lt _ (by decide)
  unfold bitMask
  generalize pos % 8 = r at hlt
  revert r
  decide

/-- Or-ing more bits into a byte keeps the bits of a mask it already had. -/
theorem or_and_ne_zero {b c m : UInt8} (h : b &&& c ≠ 0) : (b ||| m) &&& c ≠ 0 := by
  intro heq
  apply h
  have hbits := congrArg UInt8.toBitVec heq
  simp only [UInt8.toBitVec_and, UInt8.toBitVec_or, BitVec.and_or_distrib_right,
    UInt8.toBitVec_zero] at hbits
  apply UInt8.toBitVec_inj.mp
  simp only [UInt8.toBitVec_and, UInt8.toBitVec_zero]
  apply BitVec.eq_of_getLsbD_eq
  intro i hi
  have hi' := congrArg (fun x ↦ x.getLsbD i) hbits
  simp only [BitVec.getLsbD_or, BitVec.getLsbD_and, BitVec.getLsbD_zero] at hi' ⊢
  simp only [Bool.or_eq_false_iff] at hi'
  exact hi'.1

@[simp] theorem length_setBit (a : List UInt8) (pos : ℕ) : (setBit a pos).length = a.length :=
  List.length_modify _ _ _

/-- A bit just set tests positive. -/
theorem testBit_setBit_self {a : List UInt8} {pos : ℕ} (h : pos / 8 < a.length) :
    testBit (setBit a pos) pos = true := by
  unfold testBit setBit
  rw [List.getElem?_modify_eq, List.getElem?_eq_getElem h]
  have hne : (a[pos / 8] ||| bitMask pos) &&& bitMask pos ≠ 0 := by
    rw [UInt8.or_comm]
    exact or_and_ne_zero (by rw [UInt8.and_self]; exact bitMask_ne_zero pos)
  simpa using hne

/-- Setting a bit keeps every bit that was set. -/
theorem testBit_setBit_of_testBit {a : List UInt8} {p q : ℕ} (h : testBit a q = true) :
    testBit (setBit a p) q = true := by
  unfold testBit setBit at *
  by_cases hpq : p / 8 = q / 8
  · rw [← hpq] at h ⊢
    rw [List.getElem?_modify_eq]
    cases hget : a[p / 8]? with
    | none => simp [hget] at h
    | some b =>
      simp only [hget, Option.getD_some, bne_iff_ne, ne_eq] at h
      simpa using or_and_ne_zero h
  · rw [List.getElem?_modify_ne _ _ hpq]
    exact h

/-- A set bit lies in the array. -/
theorem div_lt_length_of_testBit {a : List UInt8} {pos : ℕ} (h : testBit a pos = true) :
    pos / 8 < a.length := by
  refine Nat.lt_of_not_le fun hge ↦ ?_
  simp [testBit, List.getElem?_eq_none hge] at h

theorem modify_append_of_lt {α : Type} (f : α → α) :
    ∀ {a b : List α} {i : ℕ}, i < a.length → (a ++ b).modify i f = a.modify i f ++ b
  | _ :: _, _, 0, _ => by simp
  | x :: a, b, i + 1, h => by
    rw [List.cons_append, List.modify_succ_cons, List.modify_succ_cons,
      modify_append_of_lt f (by simpa using h), List.cons_append]

/-- Setting a bit of the first part of an append leaves the second part alone. -/
theorem setBit_append_of_lt {a b : List UInt8} {pos : ℕ} (h : pos / 8 < a.length) :
    setBit (a ++ b) pos = setBit a pos ++ b :=
  modify_append_of_lt _ h

/-- Bits of the first part of an append read the same. -/
theorem testBit_append_of_lt {a b : List UInt8} {pos : ℕ} (h : pos / 8 < a.length) :
    testBit (a ++ b) pos = testBit a pos := by
  unfold testBit
  rw [List.getElem?_append_left h]

/-! ## Probe sequences -/

/-- Set the `k` probe bits `h, h + δ, h + 2δ, …` (wrapping at `2 ^ 32`), each modulo `bits`. -/
def setProbes (bits : ℕ) : ℕ → UInt32 → UInt32 → List UInt8 → List UInt8
  | 0, _, _, a => a
  | j + 1, h, δ, a => setProbes bits j (h + δ) δ (setBit a (h.toNat % bits))

/-- Whether all `k` probe bits `h, h + δ, h + 2δ, …` are set, stopping at the first clear one. -/
def testProbes (bits : ℕ) : ℕ → UInt32 → UInt32 → List UInt8 → Bool
  | 0, _, _, _ => true
  | j + 1, h, δ, a => testBit a (h.toNat % bits) && testProbes bits j (h + δ) δ a

variable {bits : ℕ}

@[simp] theorem length_setProbes (k : ℕ) (h δ : UInt32) (a : List UInt8) :
    (setProbes bits k h δ a).length = a.length := by
  induction k generalizing h a with
  | zero => rfl
  | succ j ih => rw [setProbes, ih, length_setBit]

/-- Setting probes keeps every bit that was set. -/
theorem testBit_setProbes_of_testBit {a : List UInt8} {q : ℕ} (hq : testBit a q = true)
    (k : ℕ) (h δ : UInt32) : testBit (setProbes bits k h δ a) q = true := by
  induction k generalizing h a with
  | zero => exact hq
  | succ j ih => exact ih (testBit_setBit_of_testBit hq) _

/-- The probes test positive on any array whose set bits include those of `a`. -/
theorem testProbes_mono {a a' : List UInt8} (hsub : ∀ q, testBit a q = true → testBit a' q = true)
    {k : ℕ} {h δ : UInt32} (ha : testProbes bits k h δ a = true) :
    testProbes bits k h δ a' = true := by
  induction k generalizing h with
  | zero => rfl
  | succ j ih =>
    rw [testProbes, Bool.and_eq_true] at ha ⊢
    exact ⟨hsub _ ha.1, ih ha.2⟩

/-- A position modulo `bits` falls in an array of at least `bits` bits. -/
theorem probe_lt_length {a : List UInt8} (hbits : 0 < bits) (hlen : bits ≤ 8 * a.length)
    (h : UInt32) : (h.toNat % bits) / 8 < a.length := by
  have := Nat.mod_lt h.toNat hbits
  omega

/-- **The probes just set test positive**, as long as every position modulo `bits` falls in
the array. -/
theorem testProbes_setProbes {a : List UInt8} (hbits : 0 < bits) (hlen : bits ≤ 8 * a.length)
    (k : ℕ) (h δ : UInt32) : testProbes bits k h δ (setProbes bits k h δ a) = true := by
  induction k generalizing h a with
  | zero => rfl
  | succ j ih =>
    rw [setProbes, testProbes, Bool.and_eq_true]
    -- the first probe is set now, and stays set under the remaining ones
    refine ⟨testBit_setProbes_of_testBit
      (testBit_setBit_self (probe_lt_length hbits hlen h)) j _ _, ?_⟩
    exact ih (by rw [length_setBit]; exact hlen) _

/-- Probes modulo `bits`, set in an array of at least `bits` bits, leave what follows it. -/
theorem setProbes_append {a b : List UInt8} (hbits : 0 < bits) (hlen : bits ≤ 8 * a.length)
    (k : ℕ) (h δ : UInt32) : setProbes bits k h δ (a ++ b) = setProbes bits k h δ a ++ b := by
  induction k generalizing h a with
  | zero => rfl
  | succ j ih =>
    rw [setProbes, setProbes, setBit_append_of_lt (probe_lt_length hbits hlen h),
      ih (by rw [length_setBit]; exact hlen)]

end BitArray
