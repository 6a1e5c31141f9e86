import Mathlib.Tactic.Set
import PebblesDB.Lib.BitArray
import PebblesDB.Util.Hash

/-!
# The Bloom filter policy

`util/bloom.cc`: the filter policy `NewBloomFilterPolicy` returns. `CreateFilter` sizes a bit
array at `bits_per_key_` bits per key (at least 64 bits, rounded up to whole bytes), sets `k_`
probe bits per key by double hashing from `BloomHash`, and appends `k_` as one byte;
`KeyMayMatch` reads the number of probes back from that byte and tests the same probes.

The main result is the contract of `FilterPolicy` for this policy: a key given to
`CreateFilter` always matches the filter (`keyMayMatch_createFilter`). Every key's probes are
set when it is added, and adding further keys only sets more bits (`BitArray`). `CreateFilter`
writes its bit array in place after what `dst` already holds, and the probes, taken modulo the
array's bits, never reach those bytes or the byte of `k_` (`createFilterTo_eq`).
-/

namespace PebblesDB

open BitArray

/-- `BloomHash`: `Hash` with seed `0xbc9f1d34`. -/
def bloomHash (key : List UInt8) : UInt32 :=
  hash key 0xbc9f1d34

/-- `(h >> 17) | (h << 15)`: the probe step, `h` rotated right by 17 bits. -/
def probeDelta (h : UInt32) : UInt32 :=
  (h >>> 17) ||| (h <<< 15)

/-- `BloomFilterPolicy`. The constructor computes `k_` as the truncated double product
`bits_per_key * 0.69` and clamps it to `1, …, 30`; the model takes the clamped value. -/
structure BloomFilterPolicy where
  /-- `bits_per_key_`. -/
  bitsPerKey : ℕ
  /-- `k_`, the number of probes. -/
  k : ℕ
  k_pos : 1 ≤ k
  k_le : k ≤ 30

namespace BloomFilterPolicy

/-- The size in bytes of the bit array for `n` keys. -/
def filterBytes (p : BloomFilterPolicy) (n : ℕ) : ℕ :=
  let bits := n * p.bitsPerKey
  -- "For small n, we can see a very high false positive rate."
  let bits := if bits < 64 then 64 else bits
  (bits + 7) / 8

/-- Set the probes of one key in a bit array of `bits` bits. -/
def setKey (p : BloomFilterPolicy) (bits : ℕ) (array key : List UInt8) : List UInt8 :=
  let h := bloomHash key
  setProbes bits p.k h (probeDelta h) array

/-- `CreateFilter` into an empty `dst`: the bit array, then `k_` as one byte. -/
def createFilter (p : BloomFilterPolicy) (keys : List (List UInt8)) : List UInt8 :=
  let bytes := p.filterBytes keys.length
  keys.foldl (p.setKey (bytes * 8)) (List.replicate bytes 0) ++ [p.k.toUInt8]

/-- `CreateFilter(keys, n, dst)`: `dst` grows by the bit array, zeroed, and by `k_` as one byte,
and the probes are set through `array = &(*dst)[init_size]`, the bytes from `init_size` on. -/
def createFilterTo (p : BloomFilterPolicy) (keys : List (List UInt8)) (dst : List UInt8) :
    List UInt8 :=
  let bytes := p.filterBytes keys.length
  let initSize := dst.length
  let dst := dst ++ List.replicate bytes 0 ++ [p.k.toUInt8]
  dst.take initSize ++ keys.foldl (p.setKey (bytes * 8)) (dst.drop initSize)

end BloomFilterPolicy

/-- `NewBloomFilterPolicy(bits_per_key)`: `k_` is the `double` product `bits_per_key * 0.69`
truncated, then clamped to `1, …, 30`. The product truncates to `bits_per_key * 69 / 100`: up to
`44` the exact product is at least `0.01` from a whole number, far beyond the rounding error,
and from `45` on both clamp to `30`. -/
def newBloomFilterPolicy (bitsPerKey : ℕ) : BloomFilterPolicy :=
  ⟨bitsPerKey, min 30 (max 1 (bitsPerKey * 69 / 100)), by omega, by omega⟩

/-- `KeyMayMatch`, which reads everything it needs from the filter. -/
def bloomKeyMayMatch (key bloomFilter : List UInt8) : Bool :=
  let len := bloomFilter.length
  if len < 2 then false
  else
    let bits := (len - 1) * 8
    -- `array[len-1]` is a `char`: a byte above 30, sign-extended or not, is a reserved
    -- encoding and matches
    let k := (bloomFilter.getD (len - 1) 0).toNat
    if k > 30 then true
    else
      let h := bloomHash key
      testProbes bits k h (probeDelta h) bloomFilter

namespace BloomFilterPolicy

variable (p : BloomFilterPolicy)

theorem eight_le_filterBytes (n : ℕ) : 8 ≤ p.filterBytes n := by
  show 8 ≤ ((if n * p.bitsPerKey < 64 then 64 else n * p.bitsPerKey) + 7) / 8
  split <;> omega

@[simp] theorem length_setKey (bits : ℕ) (array key : List UInt8) :
    (p.setKey bits array key).length = array.length :=
  length_setProbes _ _ _ _

theorem length_foldl_setKey (bits : ℕ) (keys : List (List UInt8)) (array : List UInt8) :
    (keys.foldl (p.setKey bits) array).length = array.length := by
  induction keys generalizing array with
  | nil => rfl
  | cons key keys ih => rw [List.foldl_cons, ih, length_setKey]

/-- Adding keys keeps every bit that was set. -/
theorem testBit_foldl_setKey {bits : ℕ} {array : List UInt8} {q : ℕ}
    (hq : testBit array q = true) (keys : List (List UInt8)) :
    testBit (keys.foldl (p.setKey bits) array) q = true := by
  induction keys generalizing array with
  | nil => exact hq
  | cons key keys ih => exact ih (testBit_setProbes_of_testBit hq _ _ _)

/-- Every key added to a bit array of `bits ≤ 8 · length` bits has its probes set. -/
theorem testProbes_foldl_setKey {bits : ℕ} (hbits : 0 < bits) {keys : List (List UInt8)}
    {key : List UInt8} (hkey : key ∈ keys) {array : List UInt8} (hlen : bits ≤ 8 * array.length) :
    testProbes bits p.k (bloomHash key) (probeDelta (bloomHash key))
      (keys.foldl (p.setKey bits) array) = true := by
  obtain ⟨before, after, rfl⟩ := List.append_of_mem hkey
  rw [List.foldl_append, List.foldl_cons]
  -- the key's probes are set when it is added, and the keys after it keep them
  have hset := testProbes_setProbes hbits
    (by rw [length_foldl_setKey]; exact hlen) p.k (bloomHash key) (probeDelta (bloomHash key))
    (a := before.foldl (p.setKey bits) array)
  exact testProbes_mono (fun q hq ↦ testBit_foldl_setKey p hq after) hset

/-- **No false negatives**: a key given to `CreateFilter` matches the filter. -/
theorem keyMayMatch_createFilter {keys : List (List UInt8)} {key : List UInt8}
    (hkey : key ∈ keys) : bloomKeyMayMatch key (p.createFilter keys) = true := by
  -- the bit array, and its length
  set bytes := p.filterBytes keys.length with hbytes
  set array := keys.foldl (p.setKey (bytes * 8)) (List.replicate bytes 0) with harray
  have hlen : array.length = bytes := by
    rw [harray, length_foldl_setKey, List.length_replicate]
  have h8 := p.eight_le_filterBytes keys.length
  have hk : (p.k.toUInt8).toNat = p.k := by
    show (UInt8.ofNat p.k).toNat = p.k
    rw [UInt8.toNat_ofNat']
    have := p.k_le
    omega
  have hlast : (array ++ [p.k.toUInt8]).getD (array.length + 1 - 1) 0 = p.k.toUInt8 := by
    simp
  unfold bloomKeyMayMatch createFilter
  simp only [← hbytes, ← harray, List.length_append, List.length_singleton]
  rw [if_neg (by omega), hlast, hk, if_neg (by have := p.k_le; omega),
    show (array.length + 1 - 1) * 8 = bytes * 8 by rw [hlen]; rfl]
  -- the probes read only the bit array, never the byte after it
  refine testProbes_mono (a := array) (fun q hq ↦ ?_) ?_
  · rw [testBit_append_of_lt (div_lt_length_of_testBit hq)]
    exact hq
  · exact p.testProbes_foldl_setKey (by omega) hkey (by rw [List.length_replicate]; omega)

/-- Probes modulo `bits` leave the bytes after a bit array of at least `bits` bits alone. -/
theorem foldl_setKey_append {bits : ℕ} (hbits : 0 < bits) (keys : List (List UInt8))
    {a : List UInt8} (hlen : bits ≤ 8 * a.length) (b : List UInt8) :
    keys.foldl (p.setKey bits) (a ++ b) = keys.foldl (p.setKey bits) a ++ b := by
  induction keys generalizing a with
  | nil => rfl
  | cons key keys ih =>
    have hkey : p.setKey bits (a ++ b) key = p.setKey bits a key ++ b :=
      setProbes_append hbits hlen _ _ _
    rw [List.foldl_cons, List.foldl_cons, hkey, ih (by rw [length_setKey]; exact hlen)]

/-- **`CreateFilter` appends the filter to `dst`**, and leaves what `dst` held: the probes of
the `bytes * 8` bits stay in front of the byte of `k_`. -/
theorem createFilterTo_eq (keys : List (List UInt8)) (dst : List UInt8) :
    p.createFilterTo keys dst = dst ++ p.createFilter keys := by
  have h8 := p.eight_le_filterBytes keys.length
  simp only [createFilterTo, createFilter]
  rw [List.append_assoc, List.take_left, List.drop_left,
    foldl_setKey_append p (by omega) keys (by rw [List.length_replicate]; omega)]

/-- **No false negatives, whatever `bits_per_key` and whatever `dst` held before**: a key given
to `CreateFilter` matches the filter it appends. -/
theorem newBloomFilterPolicy_noFalseNegatives (bitsPerKey : ℕ) {keys : List (List UInt8)}
    {key : List UInt8} (hkey : key ∈ keys) (dst : List UInt8) :
    bloomKeyMayMatch key
      (((newBloomFilterPolicy bitsPerKey).createFilterTo keys dst).drop dst.length) = true := by
  rw [createFilterTo_eq, List.drop_left]
  exact (newBloomFilterPolicy bitsPerKey).keyMayMatch_createFilter hkey

theorem newBloomFilterPolicy_noFalseNegatives_ten :
    bloomKeyMayMatch [1, 2, 3]
      (((newBloomFilterPolicy 10).createFilterTo [[4, 5], [1, 2, 3]] [9, 9]).drop 2) = true :=
  newBloomFilterPolicy_noFalseNegatives 10 (by simp) [9, 9]

-- and a key that was not added is rejected here: ten bits per key, six probes
example : bloomKeyMayMatch [4, 5, 6]
    (BloomFilterPolicy.createFilter ⟨10, 6, by decide, by decide⟩ [[1, 2, 3]]) = false := by
  decide

end BloomFilterPolicy

end PebblesDB
