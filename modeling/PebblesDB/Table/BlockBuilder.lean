import Mathlib
import PebblesDB.Util.Coding

/-!
# Building a block

`BlockBuilder` writes the sorted entries of a table block with their keys prefix-compressed: each
entry stores the number of key bytes it shares with the key before it, the rest of its key and its
value,

```text
shared: varint32 | non_shared: varint32 | value_length: varint32 | key delta | value
```

except that every `block_restart_interval` entries the sharing restarts from nothing, and the
offset of that entry is recorded as a restart point. `Finish` appends the restart points and their
number as fixed 32-bit words.

The layout is stated once, by index: `entryBytes` is the `i`-th entry as `Add` writes it,
`entriesBytes m` the first `m` of them, `restartArray` the offsets of every
`block_restart_interval`-th entry. `finish_foldl_add` says that the builder writes exactly that
layout, for every list of entries: the restart counter and the last key it keeps are the entry
count modulo the interval and the previous key (`Layout`). What the layout reads back as is
`PebblesDB.Table.BlockRoundTrip`.
-/

namespace PebblesDB.Table

/-- The loop of `Add` that counts the bytes two keys share at their start. -/
def sharedPrefixLength : List UInt8 → List UInt8 → ℕ
  | a :: as, b :: bs => if a = b then sharedPrefixLength as bs + 1 else 0
  | _, _ => 0

theorem sharedPrefixLength_le_left :
    ∀ a b : List UInt8, sharedPrefixLength a b ≤ a.length
  | [], _ => Nat.zero_le _
  | _ :: _, [] => Nat.zero_le _
  | x :: a, y :: b => by
    rw [sharedPrefixLength]
    split
    · simpa using sharedPrefixLength_le_left a b
    · exact Nat.zero_le _

theorem sharedPrefixLength_le_right :
    ∀ a b : List UInt8, sharedPrefixLength a b ≤ b.length
  | [], _ => Nat.zero_le _
  | _ :: _, [] => Nat.zero_le _
  | x :: a, y :: b => by
    rw [sharedPrefixLength]
    split
    · simpa using sharedPrefixLength_le_right a b
    · exact Nat.zero_le _

/-- The shared bytes are the same in both keys. -/
theorem take_sharedPrefixLength :
    ∀ a b : List UInt8, a.take (sharedPrefixLength a b) = b.take (sharedPrefixLength a b)
  | [], _ => rfl
  | _ :: _, [] => rfl
  | x :: a, y :: b => by
    rw [sharedPrefixLength]
    split
    · rename_i hxy
      rw [List.take_succ_cons, List.take_succ_cons, hxy, take_sharedPrefixLength a b]
    · rfl

/-- `BlockBuilder`: `buffer_`, `restarts_`, `counter_`, `finished_` and `last_key_`. -/
structure BlockBuilder where
  /-- `buffer_`, the entries written so far. -/
  buffer : List UInt8
  /-- `restarts_`, a `std::vector<uint32_t>` of offsets into the buffer. -/
  restarts : List UInt32
  /-- `counter_`, the entries written since the last restart point. -/
  counter : ℕ
  /-- `finished_`. -/
  finished : Bool
  /-- `last_key_`. -/
  lastKey : List UInt8
  deriving DecidableEq, Repr

namespace BlockBuilder

/-- The constructor: the first restart point is at offset `0`. -/
def new : BlockBuilder :=
  ⟨[], [0], 0, false, []⟩

/-- `Reset()`: as if just constructed. -/
def reset (_ : BlockBuilder) : BlockBuilder :=
  new

/-- `CurrentSizeEstimate()`: the buffer, the restart array and its length. -/
def currentSizeEstimate (b : BlockBuilder) : ℕ :=
  b.buffer.length + b.restarts.length * 4 + 4

/-- `empty()`. -/
def empty (b : BlockBuilder) : Bool :=
  b.buffer.isEmpty

/-- `Finish()`: the restart array and its length, as the `uint32_t` `PutFixed32` takes, appended
to the buffer; the builder and the block contents it returns. -/
def finish (b : BlockBuilder) : BlockBuilder × List UInt8 :=
  let buffer := b.buffer ++ b.restarts.flatMap encodeFixed32 ++
    encodeFixed32 b.restarts.length.toUInt32
  ({ b with buffer, finished := true }, buffer)

/-- `Add(key, value)` with `block_restart_interval` `interval`: below the interval the key shares
its first bytes with the last key; at it, a restart point at the end of the buffer and nothing
shared. The three lengths go out as `uint32_t` varints. -/
def add (interval : ℕ) (b : BlockBuilder) (key value : List UInt8) : BlockBuilder :=
  let (shared, restarts, counter) :=
    if b.counter < interval then (sharedPrefixLength b.lastKey key, b.restarts, b.counter)
    else (0, b.restarts ++ [b.buffer.length.toUInt32], 0)
  let nonShared := key.length - shared
  let buffer := putVarint32 (putVarint32 (putVarint32 b.buffer shared.toUInt32)
    nonShared.toUInt32) value.length.toUInt32
  { buffer := buffer ++ key.drop shared ++ value
    restarts
    counter := counter + 1
    finished := b.finished
    lastKey := b.lastKey.take shared ++ key.drop shared }

@[simp] theorem counter_add (interval : ℕ) (b : BlockBuilder) (key value : List UInt8) :
    (b.add interval key value).counter = if b.counter < interval then b.counter + 1 else 1 := by
  by_cases h : b.counter < interval <;> simp [add, h]

/-- `CurrentSizeEstimate()` is exact: it is the size of the block `Finish()` returns. -/
theorem length_finish (b : BlockBuilder) : b.finish.2.length = b.currentSizeEstimate := by
  simp only [finish, List.length_append, length_flatMap_encodeFixed32, length_encodeFixed32,
    currentSizeEstimate]
  omega

end BlockBuilder

/-! ## The layout of a block

Entry `i` of a list of entries, as `Add` writes it with restart interval `r`. -/

section Layout

variable (r : ℕ) (kvs : List (List UInt8 × List UInt8))

/-- The key of entry `i`. -/
def keyAt (i : ℕ) : List UInt8 :=
  (kvs.getD i ([], [])).1

/-- The value of entry `i`. -/
def valueAt (i : ℕ) : List UInt8 :=
  (kvs.getD i ([], [])).2

/-- The key bytes entry `i` shares with the key before it: none at a restart point. -/
def sharedAt (i : ℕ) : ℕ :=
  if i % r = 0 then 0 else sharedPrefixLength (keyAt kvs (i - 1)) (keyAt kvs i)

/-- Entry `i`: the three lengths, the key past the shared bytes and the value. -/
def entryBytes (i : ℕ) : List UInt8 :=
  encodeVarint32 (sharedAt r kvs i).toUInt32 ++
    encodeVarint32 ((keyAt kvs i).length - sharedAt r kvs i).toUInt32 ++
    encodeVarint32 (valueAt kvs i).length.toUInt32 ++
    (keyAt kvs i).drop (sharedAt r kvs i) ++ valueAt kvs i

/-- Entries `i` to `m - 1`, one after the other. -/
def entriesBetween (i m : ℕ) : List UInt8 :=
  ((List.range' i (m - i)).map (entryBytes r kvs)).flatten

/-- The first `m` entries. -/
def entriesBytes (m : ℕ) : List UInt8 :=
  entriesBetween r kvs 0 m

/-- The number of restart points of `n` entries: one every `r`, and one where there are none. -/
def restartCount (n : ℕ) : ℕ :=
  (n - 1) / r + 1

/-- The restart points: the offset of every `r`-th entry, as a `uint32_t`. -/
def restartArray : List UInt32 :=
  (List.range (restartCount r kvs.length)).map fun j ↦ (entriesBytes r kvs (j * r)).length.toUInt32

/-- The block: the entries, the restart points and their number. -/
def blockContents : List UInt8 :=
  entriesBytes r kvs kvs.length ++ (restartArray r kvs).flatMap encodeFixed32 ++
    encodeFixed32 (restartCount r kvs.length).toUInt32

theorem entriesBetween_self (i : ℕ) : entriesBetween r kvs i i = [] := by
  simp [entriesBetween]

/-- Peeling the first entry off a run of entries. -/
theorem entriesBetween_eq_cons {i m : ℕ} (h : i < m) :
    entriesBetween r kvs i m = entryBytes r kvs i ++ entriesBetween r kvs (i + 1) m := by
  rw [entriesBetween, entriesBetween, show m - i = (m - (i + 1)) + 1 by omega,
    List.range'_succ]
  simp

/-- Splitting a run of entries at any entry between its ends. -/
theorem entriesBetween_append {i j m : ℕ} (hij : i ≤ j) (hjm : j ≤ m) :
    entriesBetween r kvs i m = entriesBetween r kvs i j ++ entriesBetween r kvs j m := by
  rw [entriesBetween, entriesBetween, entriesBetween,
    show m - i = (j - i) + (m - j) by omega, ← List.range'_append, List.map_append,
    List.flatten_append, Nat.one_mul, show i + (j - i) = j by omega]

theorem entriesBytes_succ (m : ℕ) :
    entriesBytes r kvs (m + 1) = entriesBytes r kvs m ++ entryBytes r kvs m := by
  rw [entriesBytes, entriesBetween_append r kvs (Nat.zero_le m) (Nat.le_succ m),
    entriesBetween_eq_cons r kvs (Nat.lt_succ_self m), entriesBetween_self, List.append_nil]
  rfl

end Layout

/-! ## The builder writes the layout -/

section Build

variable {r : ℕ}

/-- Entries before the last one see the same keys when one more is added. -/
theorem keyAt_append_of_lt {kvs : List (List UInt8 × List UInt8)} {i : ℕ} (hi : i < kvs.length)
    (kv : List UInt8 × List UInt8) : keyAt (kvs ++ [kv]) i = keyAt kvs i := by
  simp [keyAt, List.getD_eq_getElem?_getD, List.getElem?_append_left hi]

theorem keyAt_append_length (kvs : List (List UInt8 × List UInt8))
    (kv : List UInt8 × List UInt8) : keyAt (kvs ++ [kv]) kvs.length = kv.1 := by
  simp [keyAt, List.getD_eq_getElem?_getD]

theorem valueAt_append_of_lt {kvs : List (List UInt8 × List UInt8)} {i : ℕ}
    (hi : i < kvs.length) (kv : List UInt8 × List UInt8) :
    valueAt (kvs ++ [kv]) i = valueAt kvs i := by
  simp [valueAt, List.getD_eq_getElem?_getD, List.getElem?_append_left hi]

theorem valueAt_append_length (kvs : List (List UInt8 × List UInt8))
    (kv : List UInt8 × List UInt8) : valueAt (kvs ++ [kv]) kvs.length = kv.2 := by
  simp [valueAt, List.getD_eq_getElem?_getD]

theorem entryBytes_append_of_lt {kvs : List (List UInt8 × List UInt8)} {i : ℕ}
    (hi : i < kvs.length) (kv : List UInt8 × List UInt8) :
    entryBytes r (kvs ++ [kv]) i = entryBytes r kvs i := by
  simp only [entryBytes, sharedAt, keyAt_append_of_lt hi, valueAt_append_of_lt hi,
    keyAt_append_of_lt (show i - 1 < kvs.length by omega)]

/-- An entry added at the end leaves the entries before it as they were. -/
theorem entriesBytes_append_of_le {kvs : List (List UInt8 × List UInt8)} {m : ℕ}
    (hm : m ≤ kvs.length) (kv : List UInt8 × List UInt8) :
    entriesBytes r (kvs ++ [kv]) m = entriesBytes r kvs m := by
  induction m with
  | zero => rfl
  | succ m ih =>
    rw [entriesBytes_succ, entriesBytes_succ, ih (by omega), entryBytes_append_of_lt (by omega)]

/-- Past the first entry, one more restart point for each multiple of `r`. -/
theorem restartCount_succ {n : ℕ} (hn : 0 < n) :
    restartCount r (n + 1) = restartCount r n + if n % r = 0 then 1 else 0 := by
  obtain ⟨a, rfl⟩ : ∃ a, n = a + 1 := ⟨n - 1, by omega⟩
  simp only [restartCount, Nat.add_sub_cancel, Nat.succ_div, Nat.dvd_iff_mod_eq_zero]
  split <;> omega

/-- `counter_` after `n` entries: the entries since the last restart point. -/
def counterAt (r n : ℕ) : ℕ :=
  if n = 0 then 0 else if n % r = 0 then r else n % r

theorem counterAt_lt_iff (hr : 0 < r) (n : ℕ) : counterAt r n < r ↔ n = 0 ∨ n % r ≠ 0 := by
  have := Nat.mod_lt n hr
  unfold counterAt
  split_ifs with h0 hm <;> simp_all

/-- `counter_` goes up by one, and back to one at a restart point. -/
theorem counterAt_succ (hr : 0 < r) (n : ℕ) :
    counterAt r (n + 1) = if counterAt r n < r then counterAt r n + 1 else 1 := by
  have hlt := Nat.mod_lt n hr
  have hdiv := Nat.mod_add_div n r
  simp only [counterAt_lt_iff hr]
  -- `(n + 1) % r` is `n % r + 1`, or `0` where that reaches `r`
  rcases Nat.lt_or_ge (n % r + 1) r with h | h
  · have hsucc : (n + 1) % r = n % r + 1 := by
      rw [Nat.add_mod, Nat.mod_eq_of_lt (show 1 < r by omega), Nat.mod_eq_of_lt h]
    by_cases h0 : n = 0
    · subst h0
      simp [counterAt, hsucc]
    · by_cases hm : n % r = 0 <;> simp [counterAt, h0, hm, hsucc]
  · have hsucc : (n + 1) % r = 0 := by
      rw [show n + 1 = r * (n / r + 1) by nlinarith]
      exact Nat.mul_mod_right r _
    have hleft : counterAt r (n + 1) = r := by simp [counterAt, hsucc]
    -- where `n` is a multiple of `r` (or `0`), `r` is `1`
    rw [hleft]
    by_cases h0 : n = 0 <;> by_cases hm : n % r = 0 <;> simp [counterAt, h0, hm] <;> omega

/-- What the builder holds after `Add` of the entries `kvs`: the entries laid out, a restart
point every `r` entries, the entries since the last one counted and the last key kept. -/
structure Layout (r : ℕ) (kvs : List (List UInt8 × List UInt8)) (b : BlockBuilder) : Prop where
  buffer : b.buffer = entriesBytes r kvs kvs.length
  restarts : b.restarts = restartArray r kvs
  counter : b.counter = counterAt r kvs.length
  finished : b.finished = false
  lastKey : b.lastKey = keyAt kvs (kvs.length - 1)

theorem layout_new : Layout r [] BlockBuilder.new :=
  ⟨rfl, by simp [BlockBuilder.new, restartArray, restartCount, entriesBytes, entriesBetween], rfl,
    rfl, rfl⟩

/-- Every restart point but the first stands at an entry before the `n`-th. -/
theorem mul_le_of_lt_restartCount {n j : ℕ} (hj : j < restartCount r n) : j * r ≤ n - 1 :=
  calc j * r ≤ (n - 1) / r * r := Nat.mul_le_mul_right r (Nat.le_of_lt_succ hj)
    _ ≤ n - 1 := Nat.div_mul_le_self (n - 1) r

/-- At a multiple of `r`, the next restart point is the entry itself. -/
theorem restartCount_mul_of_mod_eq {n : ℕ} (hn : 0 < n) (hm : n % r = 0) :
    restartCount r n * r = n := by
  obtain ⟨a, rfl⟩ : ∃ a, n = a + 1 := ⟨n - 1, by omega⟩
  have hdvd : r ∣ a + 1 := Nat.dvd_of_mod_eq_zero hm
  have hdiv : (a + 1) / r = a / r + 1 := by rw [Nat.succ_div, if_pos hdvd]
  rw [restartCount, Nat.add_sub_cancel, ← hdiv, Nat.div_mul_cancel hdvd]

theorem restartArray_append_of_count {kvs : List (List UInt8 × List UInt8)}
    (kv : List UInt8 × List UInt8)
    (hcount : restartCount r (kvs.length + 1) = restartCount r kvs.length) :
    restartArray r (kvs ++ [kv]) = restartArray r kvs := by
  rw [restartArray, restartArray, List.length_append, List.length_singleton, hcount]
  refine List.map_congr_left fun j hj ↦ ?_
  have := mul_le_of_lt_restartCount (List.mem_range.1 hj)
  rw [entriesBytes_append_of_le (by omega)]

/-- **`Add` extends the layout by one entry.** -/
theorem Layout.add (hr : 0 < r) {kvs : List (List UInt8 × List UInt8)} {b : BlockBuilder}
    (h : Layout r kvs b) (key value : List UInt8) :
    Layout r (kvs ++ [(key, value)]) (b.add r key value) := by
  -- the entry `Add` writes is entry `kvs.length` of the longer list
  have hlen : (kvs ++ [(key, value)]).length = kvs.length + 1 := by simp
  have hkey : keyAt (kvs ++ [(key, value)]) kvs.length = key := keyAt_append_length kvs _
  have hvalue : valueAt (kvs ++ [(key, value)]) kvs.length = value :=
    valueAt_append_length kvs _
  have hbuf : entriesBytes r (kvs ++ [(key, value)]) (kvs.length + 1) =
      b.buffer ++ entryBytes r (kvs ++ [(key, value)]) kvs.length := by
    rw [entriesBytes_succ, entriesBytes_append_of_le (Nat.le_refl _), h.buffer]
  have hcounter : (b.add r key value).counter = counterAt r (kvs ++ [(key, value)]).length := by
    rw [hlen, counterAt_succ hr, ← h.counter, BlockBuilder.counter_add]
  by_cases hc : b.counter < r
  · -- no restart point: the key shares its first bytes with the last key
    have hcase : kvs.length = 0 ∨ kvs.length % r ≠ 0 :=
      (counterAt_lt_iff hr _).1 (h.counter ▸ hc)
    have hshared : sharedAt r (kvs ++ [(key, value)]) kvs.length =
        sharedPrefixLength b.lastKey key := by
      rcases hcase with h0 | hm
      · rw [List.length_eq_zero_iff.1 h0] at h ⊢
        simp [sharedAt, h.lastKey, keyAt, sharedPrefixLength]
      · have hpos : 0 < kvs.length :=
          Nat.pos_of_ne_zero fun h0 ↦ hm (by rw [h0]; exact Nat.zero_mod r)
        rw [sharedAt, if_neg hm, hkey, keyAt_append_of_lt (by omega), h.lastKey]
    have hcount : restartCount r (kvs.length + 1) = restartCount r kvs.length := by
      rcases hcase with h0 | hm
      · rw [h0]
        rfl
      · rw [restartCount_succ (Nat.pos_of_ne_zero fun h0 ↦ hm (by rw [h0]; exact Nat.zero_mod r)),
          if_neg hm, Nat.add_zero]
    refine ⟨?_, ?_, hcounter, h.finished, ?_⟩
    · simp only [BlockBuilder.add, if_pos hc, putVarint32, hlen, hbuf, entryBytes, hshared, hkey,
        hvalue, List.append_assoc]
    · simp only [BlockBuilder.add, if_pos hc]
      rw [restartArray_append_of_count _ hcount, h.restarts]
    · simp only [BlockBuilder.add, if_pos hc, hlen, Nat.add_sub_cancel, hkey,
        take_sharedPrefixLength, List.take_append_drop]
  · -- a restart point at the end of the buffer, with nothing shared
    have hcase : kvs.length ≠ 0 ∧ kvs.length % r = 0 := by
      have := mt (counterAt_lt_iff hr kvs.length).2 (h.counter ▸ hc)
      tauto
    have hshared : sharedAt r (kvs ++ [(key, value)]) kvs.length = 0 := by
      rw [sharedAt, if_pos hcase.2]
    have hpos : 0 < kvs.length := Nat.pos_of_ne_zero hcase.1
    refine ⟨?_, ?_, hcounter, h.finished, ?_⟩
    · simp only [BlockBuilder.add, if_neg hc, putVarint32, hlen, hbuf, entryBytes, hshared, hkey,
        hvalue, List.append_assoc]
    · simp only [BlockBuilder.add, if_neg hc]
      rw [restartArray, List.length_append, List.length_singleton, restartCount_succ hpos,
        if_pos hcase.2, List.range_succ, List.map_append, List.map_singleton,
        restartCount_mul_of_mod_eq hpos hcase.2, entriesBytes_append_of_le (Nat.le_refl _),
        ← h.buffer, h.restarts, restartArray]
      -- the earlier restart points are at entries before the new one
      congr 1
      refine List.map_congr_left fun j hj ↦ ?_
      have := mul_le_of_lt_restartCount (List.mem_range.1 hj)
      rw [entriesBytes_append_of_le (by omega)]
    · simp [BlockBuilder.add, if_neg hc, hlen, hkey]

/-- The builder after `Add` of each entry in turn. -/
theorem layout_foldl_add (hr : 0 < r) (kvs : List (List UInt8 × List UInt8)) :
    Layout r kvs (kvs.foldl (fun b kv ↦ b.add r kv.1 kv.2) BlockBuilder.new) := by
  induction kvs using List.reverseRecOn with
  | nil => exact layout_new
  | append_singleton kvs kv ih =>
    rw [List.foldl_append, List.foldl_cons, List.foldl_nil]
    exact ih.add hr kv.1 kv.2

/-- **`Finish()` returns the layout.** After `Add` of any entries with a restart interval of at
least one, the block is the entries as `entryBytes` writes them, then `restartArray`, then the
number of restart points. -/
theorem finish_foldl_add (hr : 0 < r) (kvs : List (List UInt8 × List UInt8)) :
    (kvs.foldl (fun b kv ↦ b.add r kv.1 kv.2) BlockBuilder.new).finish.2 = blockContents r kvs := by
  have h := layout_foldl_add hr kvs
  rw [BlockBuilder.finish, h.buffer, h.restarts, blockContents, restartArray, List.length_map,
    List.length_range]

end Build

theorem finish_foldl_add_three :
    0 < 2 ∧ ([([1], [10]), ([1, 2], [20]), ([3], [])].foldl (fun b kv ↦ b.add 2 kv.1 kv.2)
      BlockBuilder.new).finish.2 = blockContents 2 [([1], [10]), ([1, 2], [20]), ([3], [])] :=
  ⟨by decide, finish_foldl_add (by decide) _⟩

end PebblesDB.Table
