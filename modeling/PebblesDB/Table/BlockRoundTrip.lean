import Mathlib
import PebblesDB.Table.BlockBuilder
import PebblesDB.Table.Block
import PebblesDB.Lib.Run

/-!
# A block reads back its entries

The iterator of a block that `BlockBuilder` wrote from entries with strictly increasing keys walks
those entries: every run of calls answers as a cursor over the entry list does
(`blockBuilder_iterator_walks_entries`). The block must stay below `2 ^ 32` bytes, since its
offsets are `uint32_t`, and the comparator must order keys transitively.

The iterator's state is read against the layout of `PebblesDB.Table.BlockBuilder`: `At it i` says
the iterator stands at entry `i`, with its key rebuilt and its value where the entry stores it;
`Before it i` says that `ParseNextKey` reads entry `i` next, which holds after
`SeekToRestartPoint` of the restart point at `i` and after entry `i - 1`. `Before.parseNextKey`
is the one step every call is made of: from `Before i` it reaches `At i`, or the end. The scans of
`Seek`, `SeekToLast` and `Prev` then follow from the loop rule of `Loop.doWhile`, with the
offset of the next entry as the variant, and `Seek`'s binary search from `Loop.searchLast_spec`.
`Simulates` relates the iterator to a cursor over the entries; each call keeps it
(`Simulates.step`), and `Machine.run_lockstep` carries it over a whole run.
-/

namespace PebblesDB.Table

/-! ## Offsets of the entries -/

section Offsets

variable (r : ℕ) (kvs : List (List UInt8 × List UInt8))

/-- Where entry `i` starts. -/
def entryOffset (i : ℕ) : ℕ :=
  (entriesBytes r kvs i).length

theorem one_le_length_encodeVarint32 (v : UInt32) : 1 ≤ (encodeVarint32 v).length := by
  rw [encodeVarint32_eq]
  exact List.length_pos_iff.2 (Leb128.encode_ne_nil _)

theorem three_le_length_entryBytes (i : ℕ) : 3 ≤ (entryBytes r kvs i).length := by
  have h₁ := one_le_length_encodeVarint32 (sharedAt r kvs i).toUInt32
  have h₂ := one_le_length_encodeVarint32 ((keyAt kvs i).length - sharedAt r kvs i).toUInt32
  have h₃ := one_le_length_encodeVarint32 (valueAt kvs i).length.toUInt32
  simp only [entryBytes, List.length_append]
  omega

@[simp] theorem entryOffset_zero : entryOffset r kvs 0 = 0 := by
  simp [entryOffset, entriesBytes, entriesBetween]

theorem entryOffset_succ (i : ℕ) :
    entryOffset r kvs (i + 1) = entryOffset r kvs i + (entryBytes r kvs i).length := by
  rw [entryOffset, entryOffset, entriesBytes_succ, List.length_append]

/-- Every entry takes three bytes at least, so the offsets go strictly up. -/
theorem entryOffset_strictMono : StrictMono (entryOffset r kvs) :=
  strictMono_nat_of_lt_succ fun i ↦ by
    rw [entryOffset_succ]
    have := three_le_length_entryBytes r kvs i
    omega

/-- The bytes from entry `i` on, before the end of the first `m` entries. -/
theorem drop_entryOffset {i m : ℕ} (h : i < m) (t : List UInt8) :
    (entriesBytes r kvs m ++ t).drop (entryOffset r kvs i) =
      entryBytes r kvs i ++ (entriesBytes r kvs m ++ t).drop (entryOffset r kvs (i + 1)) := by
  have hsplit : entriesBytes r kvs m ++ t =
      entriesBytes r kvs i ++ (entryBytes r kvs i ++ (entriesBetween r kvs (i + 1) m ++ t)) := by
    rw [entriesBytes, entriesBetween_append r kvs (Nat.zero_le i) h.le,
      entriesBetween_eq_cons r kvs h]
    simp [entriesBytes]
  rw [hsplit, entryOffset_succ, entryOffset, List.drop_left, ← List.drop_drop, List.drop_left,
    List.drop_left]

/-- A restart point shares nothing. -/
@[simp] theorem sharedAt_mul (j : ℕ) : sharedAt r kvs (j * r) = 0 := by
  simp [sharedAt, Nat.mul_mod_left]

theorem sharedAt_le_length (i : ℕ) : sharedAt r kvs i ≤ (keyAt kvs i).length := by
  unfold sharedAt
  split
  · exact Nat.zero_le _
  · exact sharedPrefixLength_le_right _ _

/-- A key is no longer than the entries up to it: its shared bytes are stored before it. -/
theorem length_keyAt_le (i : ℕ) : (keyAt kvs i).length ≤ entryOffset r kvs (i + 1) := by
  induction i with
  | zero =>
    have hdrop : ((keyAt kvs 0).drop (sharedAt r kvs 0)).length ≤ (entryBytes r kvs 0).length := by
      simp only [entryBytes, List.length_append]
      omega
    simpa [sharedAt, entryOffset_succ] using hdrop
  | succ i ih =>
    -- the shared bytes come from the key before, the rest from the entry
    have hshared : sharedAt r kvs (i + 1) ≤ entryOffset r kvs (i + 1) := by
      unfold sharedAt
      split
      · exact Nat.zero_le _
      · exact (sharedPrefixLength_le_left _ _).trans (by simpa using ih)
    have hdrop : ((keyAt kvs (i + 1)).drop (sharedAt r kvs (i + 1))).length ≤
        (entryBytes r kvs (i + 1)).length := by
      simp only [entryBytes, List.length_append]
      omega
    rw [List.length_drop] at hdrop
    rw [entryOffset_succ r kvs (i + 1)]
    omega

end Offsets

/-! ## Decoding an entry of the layout -/

theorem checkEntry_of_le (shared : UInt32) {nonShared valueLength : ℕ} {rest : List UInt8}
    (h : nonShared + valueLength ≤ rest.length) (hfit : rest.length < 2 ^ 32) :
    checkEntry shared nonShared.toUInt32 valueLength.toUInt32 rest =
      some (shared, nonShared.toUInt32, valueLength.toUInt32, rest) := by
  rw [checkEntry, if_neg]
  rw [UInt32.lt_iff_toNat_lt, UInt32.toNat_add]
  simp only [UInt32.toNat_ofNat', Nat.toUInt32_eq]
  rw [Nat.mod_eq_of_lt hfit, Nat.mod_eq_of_lt (by omega), Nat.mod_eq_of_lt (by omega),
    Nat.mod_eq_of_lt (by omega)]
  omega

/-- **Entry `i` decodes to its three lengths**, whatever follows it, while the bytes after its
lengths fit a `uint32_t`. -/
theorem decodeEntry_entryBytes (r : ℕ) (kvs : List (List UInt8 × List UInt8)) (i : ℕ)
    (more : List UInt8)
    (hfit : ((keyAt kvs i).drop (sharedAt r kvs i) ++ (valueAt kvs i ++ more)).length < 2 ^ 32) :
    decodeEntry (entryBytes r kvs i ++ more) =
      some ((sharedAt r kvs i).toUInt32, ((keyAt kvs i).length - sharedAt r kvs i).toUInt32,
        (valueAt kvs i).length.toUInt32,
        (keyAt kvs i).drop (sharedAt r kvs i) ++ (valueAt kvs i ++ more)) := by
  rw [decodeEntry_eq_varints, decodeEntryVarints]
  simp only [entryBytes, List.append_assoc, getVarint32_encodeVarint32, Option.bind_eq_bind,
    Option.bind_some]
  rw [checkEntry_of_le _ _ hfit]
  simp only [List.length_append, List.length_drop]
  omega

/-! ## An iterator over the block -/

/-- The fixed fields of an iterator over the block of `kvs`, and a status still OK. -/
structure OnBlock (r : ℕ) (kvs : List (List UInt8 × List UInt8)) (it : Iter) : Prop where
  data : it.data = blockContents r kvs
  restarts : it.restarts = entryOffset r kvs kvs.length
  numRestarts : it.numRestarts = restartCount r kvs.length
  status : it.status = .ok

section Block

variable {r : ℕ} {kvs : List (List UInt8 × List UInt8)} {it : Iter}

/-- The three varints of entry `i`. -/
def entryHeader (r : ℕ) (kvs : List (List UInt8 × List UInt8)) (i : ℕ) : List UInt8 :=
  encodeVarint32 (sharedAt r kvs i).toUInt32 ++
    encodeVarint32 ((keyAt kvs i).length - sharedAt r kvs i).toUInt32 ++
    encodeVarint32 (valueAt kvs i).length.toUInt32

theorem entryBytes_eq (r : ℕ) (kvs : List (List UInt8 × List UInt8)) (i : ℕ) :
    entryBytes r kvs i =
      entryHeader r kvs i ++ ((keyAt kvs i).drop (sharedAt r kvs i) ++ valueAt kvs i) := by
  simp [entryBytes, entryHeader]

theorem entryOffset_le_length (i : ℕ) (hi : i ≤ kvs.length) :
    entryOffset r kvs i ≤ (blockContents r kvs).length := by
  have := (entryOffset_strictMono r kvs).monotone hi
  simp only [blockContents, List.length_append, entryOffset] at this ⊢
  omega

theorem OnBlock.take_restarts (h : OnBlock r kvs it) :
    it.data.take it.restarts = entriesBytes r kvs kvs.length := by
  rw [h.data, h.restarts, blockContents, List.append_assoc, entryOffset, List.take_left]

/-- Where the entries before `restarts_` go on from entry `i`. -/
theorem OnBlock.input (h : OnBlock r kvs it) {i : ℕ} (hi : i < kvs.length) :
    (it.data.take it.restarts).drop (entryOffset r kvs i) =
      entryBytes r kvs i ++ (entriesBytes r kvs kvs.length).drop (entryOffset r kvs (i + 1)) := by
  simpa [h.take_restarts] using drop_entryOffset r kvs hi []

/-- **The restart array holds the offset of every `r`-th entry.** -/
theorem OnBlock.getRestartPoint (h : OnBlock r kvs it)
    (hfit : (blockContents r kvs).length < 2 ^ 32) {j : ℕ} (hj : j < restartCount r kvs.length) :
    it.getRestartPoint j = entryOffset r kvs (j * r) := by
  have hlen : j < (restartArray r kvs).length := by simpa [restartArray] using hj
  have hle : entryOffset r kvs (j * r) ≤ (blockContents r kvs).length :=
    entryOffset_le_length (j * r) ((mul_le_of_lt_restartCount hj).trans (Nat.sub_le _ _))
  rw [Iter.getRestartPoint, h.data, h.restarts, ← List.drop_drop, blockContents,
    List.append_assoc, entryOffset, List.drop_left, Nat.mul_comm, decodeFixed32_drop_flatMap hlen]
  simp only [restartArray, List.getElem_map, List.getElem_range, UInt32.toNat_ofNat',
    Nat.toUInt32_eq]
  exact Nat.mod_eq_of_lt (lt_of_le_of_lt hle hfit)

/-- **`ParseNextKey` moves the restart index to a restart point at or before the entry.** -/
theorem OnBlock.advanceRestartIndex (h : OnBlock r kvs it)
    (hfit : (blockContents r kvs).length < 2 ^ 32) {i index : ℕ} (hidx : index * r ≤ i)
    (hlt : index < restartCount r kvs.length) :
    it.advanceRestartIndex (entryOffset r kvs i) index * r ≤ i ∧
      it.advanceRestartIndex (entryOffset r kvs i) index < restartCount r kvs.length := by
  fun_induction it.advanceRestartIndex (entryOffset r kvs i) index with
  | case1 index hnext ih =>
    -- the next restart point is before the entry, so its index times `r` is too
    obtain ⟨hnum, hpoint⟩ := hnext
    rw [h.numRestarts] at hnum
    rw [h.getRestartPoint hfit hnum, (entryOffset_strictMono r kvs).lt_iff_lt] at hpoint
    exact ih hpoint.le hnum
  | case2 index _ => exact ⟨hidx, hlt⟩

end Block

/-! ## Where the iterator stands -/

/-- `ParseNextKey` reads entry `i` next: the value ends where the entry starts, the key holds the
bytes the entry shares, and the restart index is at a restart point at or before it. -/
structure Before (r : ℕ) (kvs : List (List UInt8 × List UInt8)) (it : Iter) (i : ℕ) :
    Prop where
  onBlock : OnBlock r kvs it
  le : i ≤ kvs.length
  next : it.nextEntryOffset = entryOffset r kvs i
  shared : sharedAt r kvs i ≤ it.key.length
  key : it.key.take (sharedAt r kvs i) = (keyAt kvs i).take (sharedAt r kvs i)
  restartIndex : it.restartIndex * r ≤ i
  restartLt : it.restartIndex < restartCount r kvs.length

/-- The iterator stands at entry `i`, with its key and value. -/
structure At (r : ℕ) (kvs : List (List UInt8 × List UInt8)) (it : Iter) (i : ℕ) : Prop where
  onBlock : OnBlock r kvs it
  lt : i < kvs.length
  current : it.current = entryOffset r kvs i
  key : it.key = keyAt kvs i
  value : it.value = valueAt kvs i
  next : it.nextEntryOffset = entryOffset r kvs (i + 1)
  restartIndex : it.restartIndex * r ≤ i
  restartLt : it.restartIndex < restartCount r kvs.length

/-- The iterator stands past the entries. -/
structure Invalid (r : ℕ) (kvs : List (List UInt8 × List UInt8)) (it : Iter) : Prop where
  onBlock : OnBlock r kvs it
  current : it.current = entryOffset r kvs kvs.length

section Step

variable {r : ℕ} {kvs : List (List UInt8 × List UInt8)} {it : Iter}

theorem At.valid {i : ℕ} (h : At r kvs it i) : it.valid = true := by
  rw [Iter.valid, decide_eq_true_iff, h.current, h.onBlock.restarts]
  exact entryOffset_strictMono r kvs h.lt

theorem Invalid.valid (h : Invalid r kvs it) : it.valid = false := by
  rw [Iter.valid, decide_eq_false_iff_not, h.current, h.onBlock.restarts]
  exact lt_irrefl _

/-- After entry `i`, `ParseNextKey` reads entry `i + 1`. -/
theorem At.before {i : ℕ} (h : At r kvs it i) : Before r kvs it (i + 1) := by
  have hshared : sharedAt r kvs (i + 1) ≤ (keyAt kvs i).length ∧
      (keyAt kvs i).take (sharedAt r kvs (i + 1)) =
        (keyAt kvs (i + 1)).take (sharedAt r kvs (i + 1)) := by
    unfold sharedAt
    split
    · simp
    · exact ⟨sharedPrefixLength_le_left _ _, take_sharedPrefixLength _ _⟩
  refine ⟨h.onBlock, h.lt, h.next, h.key ▸ hshared.1, h.key ▸ hshared.2, ?_, h.restartLt⟩
  exact h.restartIndex.trans (Nat.le_succ i)

/-- `SeekToRestartPoint(j)` sets up the read of the entry at restart point `j`. -/
theorem OnBlock.before_seekToRestartPoint (h : OnBlock r kvs it)
    (hfit : (blockContents r kvs).length < 2 ^ 32) {j : ℕ} (hj : j < restartCount r kvs.length) :
    Before r kvs (it.seekToRestartPoint j) (j * r) := by
  have hle : j * r ≤ kvs.length := (mul_le_of_lt_restartCount hj).trans (Nat.sub_le _ _)
  have hpoint := h.getRestartPoint hfit hj
  have hbound : entryOffset r kvs (j * r) < 2 ^ 32 :=
    lt_of_le_of_lt (entryOffset_le_length _ hle) hfit
  refine ⟨⟨h.data, h.restarts, h.numRestarts, h.status⟩, hle, ?_, by simp, by simp, le_rfl, hj⟩
  simp only [Iter.nextEntryOffset, Iter.seekToRestartPoint, hpoint, Nat.add_zero]
  exact Nat.mod_eq_of_lt hbound

/-- The value of entry `i`, read where the entry stores it. -/
theorem value_at_entry {i : ℕ} (hi : i < kvs.length) :
    ((blockContents r kvs).drop (entryOffset r kvs i + (entryHeader r kvs i).length +
      ((keyAt kvs i).length - sharedAt r kvs i))).take (valueAt kvs i).length = valueAt kvs i := by
  have hdrop := drop_entryOffset r kvs hi
    ((restartArray r kvs).flatMap encodeFixed32 ++
      encodeFixed32 (restartCount r kvs.length).toUInt32)
  have hdelta : ((keyAt kvs i).drop (sharedAt r kvs i)).length =
      (keyAt kvs i).length - sharedAt r kvs i := List.length_drop
  rw [blockContents, List.append_assoc, Nat.add_assoc, ← List.drop_drop, hdrop, entryBytes_eq]
  simp only [List.append_assoc]
  rw [← hdelta, ← List.drop_drop, List.drop_left, List.drop_left, List.take_left]

/-- The bytes of entry `i` after its lengths, and the entries after it, fit a `uint32_t`. -/
theorem OnBlock.length_rest_lt (h : OnBlock r kvs it) (hfit : (blockContents r kvs).length < 2 ^ 32)
    {i : ℕ} (hi : i < kvs.length) :
    ((keyAt kvs i).drop (sharedAt r kvs i) ++ (valueAt kvs i ++
      (entriesBytes r kvs kvs.length).drop (entryOffset r kvs (i + 1)))).length < 2 ^ 32 := by
  have hle : ((it.data.take it.restarts).drop (entryOffset r kvs i)).length ≤
      (blockContents r kvs).length := by
    simp only [List.length_drop, List.length_take, h.data]
    omega
  rw [h.input hi, entryBytes_eq, List.length_append, List.length_append] at hle
  simp only [List.length_append] at hle ⊢
  omega

/-- **Entry `i` of the block decodes** to its lengths. -/
theorem OnBlock.decodeEntry (h : OnBlock r kvs it) (hfit : (blockContents r kvs).length < 2 ^ 32)
    {i : ℕ} (hi : i < kvs.length) :
    decodeEntry ((it.data.take it.restarts).drop (entryOffset r kvs i)) =
      some ((sharedAt r kvs i).toUInt32, ((keyAt kvs i).length - sharedAt r kvs i).toUInt32,
        (valueAt kvs i).length.toUInt32,
        (keyAt kvs i).drop (sharedAt r kvs i) ++ (valueAt kvs i ++
          (entriesBytes r kvs kvs.length).drop (entryOffset r kvs (i + 1)))) := by
  rw [h.input hi]
  exact decodeEntry_entryBytes r kvs i _ (h.length_rest_lt hfit hi)

theorem length_keyAt_lt (hfit : (blockContents r kvs).length < 2 ^ 32) {i : ℕ}
    (hi : i < kvs.length) : (keyAt kvs i).length < 2 ^ 32 :=
  lt_of_le_of_lt ((length_keyAt_le r kvs i).trans (entryOffset_le_length _ hi)) hfit

/-- **The probe of `Seek` at restart point `j`** compares the key stored whole there. -/
theorem OnBlock.probe (h : OnBlock r kvs it) (hfit : (blockContents r kvs).length < 2 ^ 32)
    {j : ℕ} (hj : j < restartCount r kvs.length) (hjn : j * r < kvs.length)
    (target : List UInt8) :
    it.probe target j =
      some (decide (it.comparator.compare (keyAt kvs (j * r)) target < 0)) := by
  have hkey : (keyAt kvs (j * r)).length.toUInt32.toNat = (keyAt kvs (j * r)).length := by
    simpa using Nat.mod_eq_of_lt (length_keyAt_lt hfit hjn)
  rw [Iter.probe, h.getRestartPoint hfit hj, h.decodeEntry hfit hjn]
  simp only [sharedAt_mul, Nat.sub_zero, List.drop_zero, hkey, List.take_left]
  rfl

/-- **The step every call is made of.** From the read of entry `i`, `ParseNextKey` decodes the
entry, rebuilds its key from the shared bytes and the delta, and stands at entry `i`. -/
theorem Before.parseNextKey (hfit : (blockContents r kvs).length < 2 ^ 32) {i : ℕ}
    (h : Before r kvs it i) (hi : i < kvs.length) :
    it.parseNextKey.2 = true ∧ At r kvs it.parseNextKey.1 i := by
  have hob := h.onBlock
  have hlt : it.nextEntryOffset < it.restarts := by
    rw [h.next, hob.restarts]
    exact entryOffset_strictMono r kvs hi
  have hinput := hob.input hi
  have hrest := hob.length_rest_lt hfit hi
  have hdec := hob.decodeEntry hfit hi
  rw [← h.next] at hdec
  have hkey := length_keyAt_lt hfit hi
  have hvalue : (valueAt kvs i).length < 2 ^ 32 := by
    simp only [List.length_append] at hrest
    omega
  have hs : (sharedAt r kvs i).toUInt32.toNat = sharedAt r kvs i := by
    simpa using Nat.mod_eq_of_lt (lt_of_le_of_lt (sharedAt_le_length r kvs i) hkey)
  have hns : ((keyAt kvs i).length - sharedAt r kvs i).toUInt32.toNat =
      (keyAt kvs i).length - sharedAt r kvs i := by
    simpa using Nat.mod_eq_of_lt (lt_of_le_of_lt (Nat.sub_le _ _) hkey)
  have hvl : (valueAt kvs i).length.toUInt32.toNat = (valueAt kvs i).length := by
    simpa using Nat.mod_eq_of_lt hvalue
  -- the lengths read before the delta, and where the entry ends
  have hlen : ((it.data.take it.restarts).drop it.nextEntryOffset).length -
      ((keyAt kvs i).drop (sharedAt r kvs i) ++ (valueAt kvs i ++
        (entriesBytes r kvs kvs.length).drop (entryOffset r kvs (i + 1)))).length =
      (entryHeader r kvs i).length := by
    rw [h.next, hinput, entryBytes_eq]
    simp only [List.length_append]
    omega
  have hend : entryOffset r kvs i + (entryHeader r kvs i).length +
      ((keyAt kvs i).length - sharedAt r kvs i) + (valueAt kvs i).length =
      entryOffset r kvs (i + 1) := by
    rw [entryOffset_succ, entryBytes_eq]
    simp only [List.length_append, List.length_drop]
    omega
  rw [Iter.parseNextKey_of_decode it hlt hdec (by rw [hs]; exact h.shared)]
  obtain ⟨hidx, hidxlt⟩ := hob.advanceRestartIndex hfit h.restartIndex h.restartLt
  refine ⟨rfl, ⟨hob.data, hob.restarts, hob.numRestarts, hob.status⟩, hi, h.next, ?_, ?_, ?_,
    by simpa [h.next] using hidx, by simpa [h.next] using hidxlt⟩
  · -- the key: the shared bytes of the key before, then the delta
    simp only [hs, hns]
    rw [List.take_left' List.length_drop, h.key, List.take_append_drop]
  · -- the value: past the lengths and the delta
    simp only [Iter.value]
    rw [hlen, hns, hvl, h.next, hob.data]
    exact value_at_entry hi
  · -- the next entry starts where the value ends
    rw [hlen, hns, hvl, h.next]
    simp only [Iter.nextEntryOffset]
    rw [hend]
    exact Nat.mod_eq_of_lt (lt_of_le_of_lt (entryOffset_le_length _ hi) hfit)

/-- Past the last entry, `ParseNextKey` leaves the iterator past the entries. -/
theorem Before.parseNextKey_end (h : Before r kvs it kvs.length) :
    it.parseNextKey.2 = false ∧ Invalid r kvs it.parseNextKey.1 := by
  have hob := h.onBlock
  rw [Iter.parseNextKey_of_le it (by rw [h.next, hob.restarts])]
  exact ⟨rfl, ⟨hob.data, hob.restarts, hob.numRestarts, hob.status⟩, hob.restarts⟩

/-- **The scans.** A scan that reads entries from entry `k₀` on while a condition of the entry
read holds stops at the first entry from `k₀` where it fails, or past the entries, given more
fuel than the entries take bytes. The comparator stays the iterator's. -/
theorem Before.scan (hfit : (blockContents r kvs).length < 2 ^ 32) (c : ℕ → Bool)
    (cond : Iter → Bool)
    (hcond : ∀ s k, s.comparator = it.comparator → At r kvs s k → cond s = c k) {k₀ : ℕ}
    (h : Before r kvs it k₀) (fuel : ℕ) (hfuel : entryOffset r kvs kvs.length < fuel) :
    ∃ s' k, Loop.doWhile Iter.parseNextKey cond fuel it = some s' ∧
      s'.comparator = it.comparator ∧ k₀ ≤ k ∧ k ≤ kvs.length ∧
      (∀ m, k₀ ≤ m → m < k → c m = true) ∧
      (k < kvs.length → c k = false ∧ At r kvs s' k) ∧ (k = kvs.length → Invalid r kvs s') := by
  -- the invariant: the scan is about to read entry `k`, every entry before it went on
  let P : Iter → Prop := fun s ↦ s.comparator = it.comparator ∧
    ∃ k, Before r kvs s k ∧ k₀ ≤ k ∧ ∀ m, k₀ ≤ m → m < k → c m = true
  let Q : Iter → Prop := fun s' ↦ s'.comparator = it.comparator ∧
    ∃ k, k₀ ≤ k ∧ k ≤ kvs.length ∧ (∀ m, k₀ ≤ m → m < k → c m = true) ∧
      (k < kvs.length → c k = false ∧ At r kvs s' k) ∧ (k = kvs.length → Invalid r kvs s')
  have hgo : ∀ s, P s → s.parseNextKey.2 = true → cond s.parseNextKey.1 = true →
      P s.parseNextKey.1 ∧
        entryOffset r kvs kvs.length - s.parseNextKey.1.nextEntryOffset <
          entryOffset r kvs kvs.length - s.nextEntryOffset := by
    rintro s ⟨hcmp, k, hk, hk₀, hgone⟩ hok hc
    -- an entry was read, so the scan was not past the last one
    have hlt : k < kvs.length := by
      by_contra hge
      have hkn : k = kvs.length := Nat.le_antisymm hk.le (Nat.not_lt.1 hge)
      rw [hkn] at hk
      rw [hk.parseNextKey_end.1] at hok
      cases hok
    obtain ⟨-, hat⟩ := hk.parseNextKey hfit hlt
    have hcmp' : s.parseNextKey.1.comparator = it.comparator := by
      rw [Iter.comparator_parseNextKey, hcmp]
    have hck : c k = true := (hcond _ k hcmp' hat).symm.trans hc
    refine ⟨⟨hcmp', k + 1, hat.before, by omega, fun m hm hmk ↦ ?_⟩, ?_⟩
    · rcases Nat.lt_succ_iff_lt_or_eq.1 hmk with hmk | rfl
      · exact hgone m hm hmk
      · exact hck
    · have h₁ : entryOffset r kvs k < entryOffset r kvs (k + 1) :=
        entryOffset_strictMono r kvs (by omega)
      have h₂ : entryOffset r kvs (k + 1) ≤ entryOffset r kvs kvs.length :=
        (entryOffset_strictMono r kvs).monotone (by omega)
      rw [hat.next, hk.next]
      omega
  have hstop : ∀ s, P s → (s.parseNextKey.2 && cond s.parseNextKey.1) = false →
      Q s.parseNextKey.1 := by
    rintro s ⟨hcmp, k, hk, hk₀, hgone⟩ hstop
    have hcmp' : s.parseNextKey.1.comparator = it.comparator := by
      rw [Iter.comparator_parseNextKey, hcmp]
    rcases Nat.lt_or_ge k kvs.length with hlt | hge
    · obtain ⟨hok, hat⟩ := hk.parseNextKey hfit hlt
      have hck : c k = false := by
        rw [hok, Bool.true_and] at hstop
        rw [← hcond _ k hcmp' hat]
        exact hstop
      exact ⟨hcmp', k, hk₀, hlt.le, hgone, fun _ ↦ ⟨hck, hat⟩, fun h ↦ absurd h hlt.ne⟩
    · have hkn : k = kvs.length := Nat.le_antisymm hk.le hge
      rw [hkn] at hk hk₀ hgone
      exact ⟨hcmp', kvs.length, hk₀, le_rfl, hgone, fun h ↦ absurd h (lt_irrefl _),
        fun _ ↦ hk.parseNextKey_end.2⟩
  obtain ⟨s', hs', hcmp, k, hk₀, hkn, hgone, hlt, hend⟩ :=
    Loop.doWhile_rule Iter.parseNextKey cond P Q
      (fun s ↦ entryOffset r kvs kvs.length - s.nextEntryOffset) hgo hstop fuel it
      ⟨rfl, k₀, h, le_rfl, fun m hm hmk ↦ absurd hmk (Nat.not_lt.2 hm)⟩ (by omega)
  exact ⟨s', k, hs', hcmp, hk₀, hkn, hgone, hlt, hend⟩

/-- **The first loop of `Prev`** finds a restart point before entry `i`, or none before the
first entry. -/
theorem OnBlock.scanBack (h : OnBlock r kvs it) (hfit : (blockContents r kvs).length < 2 ^ 32)
    {i : ℕ} :
    ∀ index, index * r ≤ i → index < restartCount r kvs.length →
      (i = 0 → it.scanBack (entryOffset r kvs i) index = none) ∧
      (0 < i → ∃ j, it.scanBack (entryOffset r kvs i) index = some j ∧ j * r < i ∧
        j < restartCount r kvs.length)
  | 0, _, h0 => by
    have hpoint : it.getRestartPoint 0 = 0 := by
      rw [h.getRestartPoint hfit h0, Nat.zero_mul, entryOffset_zero]
    simp only [Iter.scanBack, hpoint]
    refine ⟨fun hi ↦ by simp [hi], fun hi ↦ ⟨0, ?_, by simpa using hi, h0⟩⟩
    have := entryOffset_strictMono r kvs hi
    rw [entryOffset_zero] at this
    rw [if_neg (by omega)]
  | index + 1, hidx, hlt => by
    rw [Iter.scanBack, h.getRestartPoint hfit hlt]
    simp only [(entryOffset_strictMono r kvs).le_iff_le]
    split
    · -- the restart point is at the entry: one restart point back
      have hle : index * r ≤ i := (Nat.mul_le_mul_right r (Nat.le_succ index)).trans hidx
      exact OnBlock.scanBack h hfit index hle (by omega)
    · rename_i hnot
      exact ⟨fun hi ↦ absurd (hi ▸ Nat.zero_le _) hnot,
        fun _ ↦ ⟨index + 1, rfl, Nat.lt_of_not_le hnot, hlt⟩⟩

end Step

/-! ## The iterator walks the entries -/

/-- The iterator stands where a cursor over the entries does: at its entry while the cursor is
valid, past the entries otherwise, with the comparator `cmp`. -/
def Simulates (r : ℕ) (kvs : List (List UInt8 × List UInt8)) (cmp : Comparator) (it : Iter)
    (c : Cursor (List UInt8 × List UInt8)) : Prop :=
  it.comparator = cmp ∧ c.entries = kvs ∧
    ((∃ p : ℕ, c.pos = p ∧ At r kvs it p) ∨ ((c.pos < 0 ∨ kvs.length ≤ c.pos) ∧ Invalid r kvs it))

section Walk

variable {r : ℕ} {kvs : List (List UInt8 × List UInt8)} {cmp : Comparator} {it : Iter}
  {c : Cursor (List UInt8 × List UInt8)}

theorem keyAt_eq {i : ℕ} (hi : i < kvs.length) : keyAt kvs i = kvs[i].1 := by
  simp [keyAt, List.getD_eq_getElem?_getD, hi]

theorem valueAt_eq {i : ℕ} (hi : i < kvs.length) : valueAt kvs i = kvs[i].2 := by
  simp [valueAt, List.getD_eq_getElem?_getD, hi]

theorem Simulates.onBlock (h : Simulates r kvs cmp it c) : OnBlock r kvs it := by
  rcases h.2.2 with ⟨p, -, hat⟩ | ⟨-, hinv⟩
  · exact hat.onBlock
  · exact hinv.onBlock

theorem Simulates.valid (h : Simulates r kvs cmp it c) : it.valid = c.valid := by
  rcases h.2.2 with ⟨p, hp, hat⟩ | ⟨hpos, hinv⟩
  · rw [hat.valid, eq_comm, Cursor.valid_iff, hp, h.2.1]
    exact ⟨by omega, by exact_mod_cast hat.lt⟩
  · rw [hinv.valid, eq_comm, Cursor.valid_eq_false_iff, h.2.1]
    exact hpos

/-- A valid iterator reads the key and the value of the cursor's entry. -/
theorem Simulates.current (h : Simulates r kvs cmp it c) {e : List UInt8 × List UInt8}
    (he : c.current = some e) : it.key = e.1 ∧ it.value = e.2 := by
  rcases h.2.2 with ⟨p, hp, hat⟩ | ⟨hpos, hinv⟩
  · obtain ⟨entries, pos⟩ := c
    obtain ⟨-, rfl, -⟩ := h
    simp only at hp
    subst hp
    rw [Cursor.current_of_lt hat.lt, Option.some_inj] at he
    rw [hat.key, hat.value, ← he, keyAt_eq hat.lt, valueAt_eq hat.lt]
    exact ⟨rfl, rfl⟩
  · have := (c.current_eq_none_iff).2 (h.valid ▸ hinv.valid)
    rw [this] at he
    cases he

theorem simulates_at (hcmp : it.comparator = cmp) {k : ℕ} (h : At r kvs it k) :
    Simulates r kvs cmp it ⟨kvs, k⟩ :=
  ⟨hcmp, rfl, .inl ⟨k, rfl, h⟩⟩

theorem simulates_invalid (hcmp : it.comparator = cmp) (h : Invalid r kvs it) {pos : ℤ}
    (hpos : pos < 0 ∨ kvs.length ≤ pos) : Simulates r kvs cmp it ⟨kvs, pos⟩ :=
  ⟨hcmp, rfl, .inr ⟨hpos, h⟩⟩

/-- A read lands at the entry, or past the entries. -/
theorem Before.simulates (hfit : (blockContents r kvs).length < 2 ^ 32)
    (hcmp : it.comparator = cmp) {k : ℕ} (h : Before r kvs it k) :
    Simulates r kvs cmp it.parseNextKey.1 ⟨kvs, k⟩ := by
  have hcmp' : it.parseNextKey.1.comparator = cmp := by rw [Iter.comparator_parseNextKey, hcmp]
  rcases Nat.lt_or_ge k kvs.length with hk | hk
  · exact simulates_at hcmp' (h.parseNextKey hfit hk).2
  · have hkn : k = kvs.length := Nat.le_antisymm h.le hk
    rw [hkn] at h ⊢
    exact simulates_invalid hcmp' h.parseNextKey_end.2 (.inr le_rfl)

theorem restartCount_pos (r n : ℕ) : 0 < restartCount r n :=
  Nat.succ_pos _

/-- **`SeekToFirst()`** reads the first entry. -/
theorem Simulates.seekToFirst (hfit : (blockContents r kvs).length < 2 ^ 32)
    (h : Simulates r kvs cmp it c) : Simulates r kvs cmp it.seekToFirst c.seekToFirst := by
  have hb := h.onBlock.before_seekToRestartPoint hfit (restartCount_pos r kvs.length)
  rw [Nat.zero_mul] at hb
  obtain ⟨entries, pos⟩ := c
  obtain ⟨hcmp, hent, -⟩ := h
  simp only at hent
  subst hent
  simpa [Cursor.seekToFirst, Iter.seekToFirst] using
    hb.simulates hfit (show (it.seekToRestartPoint 0).comparator = cmp from hcmp)

/-- **`Next()`** reads the entry after, and asserts a valid iterator. -/
theorem Simulates.next (hfit : (blockContents r kvs).length < 2 ^ 32)
    (h : Simulates r kvs cmp it c) :
    (c.valid = true → ∃ it', it.next = some it' ∧ Simulates r kvs cmp it' c.next) ∧
      (c.valid = false → it.next = none) := by
  refine ⟨fun hc ↦ ?_, fun hc ↦ by rw [Iter.next, h.valid, hc]; rfl⟩
  rcases h.2.2 with ⟨p, hp, hat⟩ | ⟨hpos, hinv⟩
  · obtain ⟨entries, pos⟩ := c
    obtain ⟨hcmp, rfl, -⟩ := h
    simp only at hp
    subst hp
    refine ⟨_, by rw [Iter.next, if_pos hat.valid], ?_⟩
    exact_mod_cast hat.before.simulates hfit hcmp
  · rw [← h.valid, hinv.valid] at hc
    cases hc

/-- **`SeekToLast()`** reads the last entry: the scan from the last restart point goes on while
an entry follows the one read. -/
theorem Simulates.seekToLast (hfit : (blockContents r kvs).length < 2 ^ 32)
    (h : Simulates r kvs cmp it c) :
    ∃ it', it.seekToLast = some it' ∧ Simulates r kvs cmp it' c.seekToLast := by
  have hob := h.onBlock
  have hlast : restartCount r kvs.length - 1 < restartCount r kvs.length :=
    Nat.sub_lt (restartCount_pos r _) Nat.one_pos
  have hb := hob.before_seekToRestartPoint hfit hlast
  have hstart := mul_le_of_lt_restartCount hlast
  obtain ⟨s', k, hs', hcmp', hk₀, hkn, hgone, hlt, hend⟩ :=
    hb.scan hfit (fun k ↦ decide (k + 1 < kvs.length))
      (fun it' ↦ decide (it'.nextEntryOffset < it'.restarts))
      (fun s k _ hat ↦ by
        rw [hat.next, hat.onBlock.restarts]
        exact decide_eq_decide.2 (entryOffset_strictMono r kvs).lt_iff_lt)
      it.scanFuel (by rw [Iter.scanFuel, hob.restarts]; omega)
  refine ⟨s', by rw [Iter.seekToLast, hob.numRestarts]; exact hs', ?_⟩
  obtain ⟨entries, pos⟩ := c
  obtain ⟨hcmp, hent, -⟩ := h
  simp only at hent
  subst hent
  replace hcmp' : s'.comparator = cmp := hcmp'.trans hcmp
  rcases Nat.lt_or_ge k entries.length with hk | hk
  · -- the scan stops at the last entry
    obtain ⟨hck, hat⟩ := hlt hk
    have hklast : k = entries.length - 1 := by simp at hck; omega
    subst hklast
    simpa [Cursor.seekToLast, Nat.cast_sub (Nat.one_le_of_lt hk)] using simulates_at hcmp' hat
  · -- past the entries only where there are none
    have hk' : k = entries.length := Nat.le_antisymm hkn hk
    have hempty : entries.length = 0 := by
      by_contra hne
      have := hgone (entries.length - 1) (by omega) (by omega)
      simp at this
      omega
    refine simulates_invalid hcmp' (hend hk') (.inl ?_)
    simp [hempty]

/-- **`Prev()`** reads the entry before, scanning from a restart point before the current
entry, and asserts a valid iterator. -/
theorem Simulates.prev (hfit : (blockContents r kvs).length < 2 ^ 32)
    (h : Simulates r kvs cmp it c) :
    (c.valid = true → ∃ it', it.prev = some it' ∧ Simulates r kvs cmp it' c.prev) ∧
      (c.valid = false → it.prev = none) := by
  refine ⟨fun hc ↦ ?_, fun hc ↦ by rw [Iter.prev, h.valid, hc]; rfl⟩
  rcases h.2.2 with ⟨p, hp, hat⟩ | ⟨hpos, hinv⟩
  · obtain ⟨entries, pos⟩ := c
    obtain ⟨hcmp, hent, -⟩ := h
    simp only at hent hp
    subst hent hp
    have hob := hat.onBlock
    obtain ⟨hzero, hback⟩ :=
      hob.scanBack hfit it.restartIndex hat.restartIndex hat.restartLt
    rw [Iter.prev, if_pos hat.valid, hat.current]
    rcases Nat.eq_zero_or_pos p with rfl | hp
    · -- before the first entry: invalid
      rw [hzero rfl]
      refine ⟨_, rfl, simulates_invalid ?_ ?_ (.inl ?_)⟩
      · exact hcmp
      · exact ⟨⟨hob.data, hob.restarts, hob.numRestarts, hob.status⟩, hob.restarts⟩
      · simp
    · obtain ⟨j, hj, hjr, hjR⟩ := hback hp
      rw [hj]
      have hb := hob.before_seekToRestartPoint hfit hjR
      -- scan while the next entry starts before entry `p`
      obtain ⟨s', k, hs', hcmp', hk₀, hkn, hgone, hlt, hend⟩ :=
        hb.scan hfit (fun k ↦ decide (k + 1 < p))
          (fun it' ↦ decide (it'.nextEntryOffset < entryOffset r entries p))
          (fun s k _ hat' ↦ by
            rw [hat'.next]
            exact decide_eq_decide.2 (entryOffset_strictMono r entries).lt_iff_lt)
          it.scanFuel (by rw [Iter.scanFuel, hob.restarts]; omega)
      refine ⟨s', hs', ?_⟩
      replace hcmp' : s'.comparator = cmp := hcmp'.trans hcmp
      -- the scan goes on before entry `p` and stops at the entry before it
      have hkp : k < p := by
        rcases Nat.eq_or_lt_of_le hk₀ with heq | hgt
        · omega
        · have := hgone (k - 1) (by omega) (by omega)
          simp at this
          omega
      obtain ⟨hck, hat'⟩ := hlt (by have := hat.lt; omega)
      have hkp : k = p - 1 := by
        simp at hck
        omega
      subst hkp
      simpa [Cursor.prev, Nat.cast_sub (Nat.one_le_of_lt hp)] using simulates_at hcmp' hat'
  · rw [← h.valid, hinv.valid] at hc
    cases hc

/-- The keys of the entries go up under the comparator. -/
theorem keyAt_lt_keyAt (hsorted : kvs.Pairwise fun a b ↦ cmp.compare a.1 b.1 < 0) {a b : ℕ}
    (hab : a < b) (hb : b < kvs.length) : cmp.compare (keyAt kvs a) (keyAt kvs b) < 0 := by
  rw [keyAt_eq (hab.trans hb), keyAt_eq hb]
  exact List.pairwise_iff_getElem.1 hsorted a b (hab.trans hb) hb hab

/-- A restart point past the first stands at an entry. -/
theorem mul_lt_length_of_pos {j : ℕ} (hj : 0 < j) (hjR : j < restartCount r kvs.length) :
    j * r < kvs.length := by
  have hle := mul_le_of_lt_restartCount hjR
  have hn : 0 < kvs.length := by
    by_contra h0
    rw [Nat.eq_zero_of_not_pos h0] at hjR
    simp [restartCount] at hjR
    omega
  omega

/-- **`Seek(target)`** reads the first entry whose key is not below the target: the binary
search finds a restart point with every entry before it below the target, and the scan goes on
from there while the key read is below it. -/
theorem Simulates.seek (hr : 0 < r) (hfit : (blockContents r kvs).length < 2 ^ 32)
    (hsorted : kvs.Pairwise fun a b ↦ cmp.compare a.1 b.1 < 0)
    (htrans : ∀ a b c, cmp.compare a b < 0 → cmp.compare b c < 0 → cmp.compare a c < 0)
    (h : Simulates r kvs cmp it c) (target : List UInt8) :
    ∃ it', it.seek target = some it' ∧
      Simulates r kvs cmp it' (c.seek fun e ↦ decide (cmp.compare e.1 target < 0)) := by
  have hob := h.onBlock
  have hcmp := h.1
  -- the binary search: the keys at the restart points go up
  let p : ℕ → Bool := fun j ↦ decide (cmp.compare (keyAt kvs (j * r)) target < 0)
  have hprobe : ∀ j, 0 < j → j ≤ restartCount r kvs.length - 1 →
      it.probe target j = some (p j) := by
    intro j hj hjR
    have hjlt : j < restartCount r kvs.length := by omega
    rw [hob.probe hfit hjlt (mul_lt_length_of_pos hj hjlt), hcmp]
  have hanti : ∀ i j, 0 < i → i ≤ j → j ≤ restartCount r kvs.length - 1 →
      p j = true → p i = true := by
    intro i j hi hij hj hpj
    rcases Nat.eq_or_lt_of_le hij with rfl | hij
    · exact hpj
    · have hjn := mul_lt_length_of_pos (hi.trans hij) (show j < restartCount r kvs.length by omega)
      have hlt := keyAt_lt_keyAt hsorted (Nat.mul_lt_mul_of_pos_right hij hr) hjn
      simp only [p, decide_eq_true_eq] at hpj ⊢
      exact htrans _ _ _ hlt hpj
  obtain ⟨left, hsearch, -, hleft, hleftp, -⟩ :=
    Loop.searchLast_spec (it.probe target) p 0 _ hprobe hanti
  have hleftR : left < restartCount r kvs.length := by
    have := restartCount_pos r kvs.length
    simp at hleft
    omega
  have hb := hob.before_seekToRestartPoint hfit hleftR
  -- the scan from that restart point while the key read is below the target
  obtain ⟨s', k, hs', hcmp', hk₀, hkn, hgone, hlt, hend⟩ :=
    hb.scan hfit (fun k ↦ decide (cmp.compare (keyAt kvs k) target < 0))
      (fun it' ↦ decide (it'.comparator.compare it'.key target < 0))
      (fun s k hsc hat ↦ by
        rw [hsc, hat.key]
        exact congrArg (fun f : Comparator ↦ decide (f.compare (keyAt kvs k) target < 0)) hcmp)
      it.scanFuel (by rw [Iter.scanFuel, hob.restarts]; omega)
  refine ⟨s', by rw [Iter.seek, hob.numRestarts, hsearch]; exact hs', ?_⟩
  replace hcmp' : s'.comparator = cmp := hcmp'.trans hcmp
  -- every entry before the one the scan stops at is below the target
  have hbelow : ∀ m, m < k → decide (cmp.compare (keyAt kvs m) target < 0) = true := by
    intro m hm
    by_cases hmk : left * r ≤ m
    · exact hgone m hmk hm
    · -- before the restart point: below its key, which is below the target
      have hpos : 0 < left := Nat.pos_of_ne_zero fun h0 ↦ hmk (by simp [h0])
      have hpl : p left = true := hleftp.resolve_left hpos.ne'
      have hlt' := keyAt_lt_keyAt hsorted (Nat.lt_of_not_le hmk)
        (mul_lt_length_of_pos hpos hleftR)
      simp only [p, decide_eq_true_eq] at hpl ⊢
      exact htrans _ _ _ hlt' hpl
  obtain ⟨entries, pos⟩ := c
  obtain ⟨-, hent, -⟩ := h
  simp only at hent
  subst hent
  have hpos : (entries.takeWhile fun e ↦ decide (cmp.compare e.1 target < 0)).length = k := by
    refine Cursor.length_takeWhile_of_getElem hkn (fun m hm ↦ ?_) (fun hk ↦ ?_)
    · rw [← keyAt_eq (by omega)]
      exact hbelow m hm
    · rw [← keyAt_eq hk]
      exact (hlt hk).1
  rcases Nat.lt_or_ge k entries.length with hk | hk
  · simpa [Cursor.seek, hpos] using simulates_at hcmp' (hlt hk).2
  · have hk' : k = entries.length := Nat.le_antisymm hkn hk
    refine simulates_invalid hcmp' (hend hk') (.inr ?_)
    simp [hpos, hk']

end Walk

/-! ## From the builder to the iterator -/

section RoundTrip

variable {r : ℕ} {kvs : List (List UInt8 × List UInt8)} {cmp : Comparator}

/-- **Every call answers as the cursor's**: it fails in both, or leaves both where the other
stands. -/
theorem Simulates.step (hr : 0 < r) (hfit : (blockContents r kvs).length < 2 ^ 32)
    (hsorted : kvs.Pairwise fun a b ↦ cmp.compare a.1 b.1 < 0)
    (htrans : ∀ a b c, cmp.compare a b < 0 → cmp.compare b c < 0 → cmp.compare a c < 0)
    {it : Iter} {c : Cursor (List UInt8 × List UInt8)} (h : Simulates r kvs cmp it c)
    (op : Cursor.Op (List UInt8)) :
    (Iter.step op it = none ∧
        Cursor.stepBy (fun a b ↦ decide (cmp.compare a b < 0)) op c = none) ∨
      ∃ it' c', Iter.step op it = some it' ∧
        Cursor.stepBy (fun a b ↦ decide (cmp.compare a b < 0)) op c = some c' ∧
        Simulates r kvs cmp it' c' := by
  cases op with
  | seekToFirst => exact .inr ⟨_, _, rfl, rfl, h.seekToFirst hfit⟩
  | seekToLast =>
    obtain ⟨it', hit, hs⟩ := h.seekToLast hfit
    exact .inr ⟨it', _, hit, rfl, hs⟩
  | seek target =>
    obtain ⟨it', hit, hs⟩ := h.seek hr hfit hsorted htrans target
    exact .inr ⟨it', _, hit, rfl, hs⟩
  | next =>
    cases hc : c.valid with
    | false => exact .inl ⟨(h.next hfit).2 hc, by simp [Cursor.stepBy, hc]⟩
    | true =>
      obtain ⟨it', hit, hs⟩ := (h.next hfit).1 hc
      exact .inr ⟨it', _, hit, by simp [Cursor.stepBy, hc], hs⟩
  | prev =>
    cases hc : c.valid with
    | false => exact .inl ⟨(h.prev hfit).2 hc, by simp [Cursor.stepBy, hc]⟩
    | true =>
      obtain ⟨it', hit, hs⟩ := (h.prev hfit).1 hc
      exact .inr ⟨it', _, hit, by simp [Cursor.stepBy, hc], hs⟩

theorem length_blockContents :
    (blockContents r kvs).length =
      entryOffset r kvs kvs.length + 4 * restartCount r kvs.length + 4 := by
  simp only [blockContents, List.length_append, length_flatMap_encodeFixed32,
    length_encodeFixed32, restartArray, List.length_map, List.length_range, entryOffset]

/-- **`Block::NewIterator`** over a block the builder wrote finds the restart array where the
builder put it, and returns an iterator past the entries. -/
theorem newIterator_blockContents (hfit : (blockContents r kvs).length < 2 ^ 32)
    (cmp : Comparator) :
    (Block.ofContents (blockContents r kvs)).newIterator cmp =
      .iter ⟨cmp, blockContents r kvs, entryOffset r kvs kvs.length, restartCount r kvs.length,
        entryOffset r kvs kvs.length, restartCount r kvs.length, [], 0, 0, .ok⟩ := by
  have hlen : (blockContents r kvs).length =
      entryOffset r kvs kvs.length + 4 * restartCount r kvs.length + 4 :=
    length_blockContents
  have hpos := restartCount_pos r kvs.length
  -- the last word of the block is the number of restart points
  have hnum : decodeFixed32 ((blockContents r kvs).drop ((blockContents r kvs).length - 4)) =
      (restartCount r kvs.length).toUInt32 := by
    rw [blockContents, List.length_append, length_encodeFixed32, Nat.add_sub_cancel,
      List.drop_left, decodeFixed32_encodeFixed32]
  have hR : (restartCount r kvs.length).toUInt32.toNat = restartCount r kvs.length := by
    simp only [Nat.toUInt32_eq, UInt32.toNat_ofNat']
    exact Nat.mod_eq_of_lt (by omega)
  have hoff : (blockContents r kvs).length - (1 + restartCount r kvs.length) * 4 =
      entryOffset r kvs kvs.length := by
    omega
  simp only [Block.ofContents, Block.numRestarts, hnum, hR]
  rw [if_neg (by omega), if_neg (by omega)]
  simp only [Block.newIterator, Block.numRestarts, hnum, hR, hoff]
  rw [if_neg (by omega), if_neg hpos.ne']

/-- **A block reads back the entries it was built from.** Whatever the restart interval, for
entries whose keys go strictly up under a comparator that orders keys transitively, and a block
below `2 ^ 32` bytes: `Block::NewIterator` over the block `BlockBuilder` finishes gives an
iterator, not valid, that answers every run of calls as a cursor past the entries does. The run
fails in both (`Next()` or `Prev()` on an invalid iterator), or leaves both valid or both not,
and a valid iterator then reads the key and the value of the cursor's entry. -/
theorem blockBuilder_iterator_walks_entries (hr : 0 < r) (cmp : Comparator)
    (hsorted : kvs.Pairwise fun a b ↦ cmp.compare a.1 b.1 < 0)
    (htrans : ∀ a b c, cmp.compare a b < 0 → cmp.compare b c < 0 → cmp.compare a c < 0)
    (hfit : (kvs.foldl (fun b kv ↦ b.add r kv.1 kv.2) BlockBuilder.new).finish.2.length <
      2 ^ 32) :
    ∃ it, (Block.ofContents (kvs.foldl (fun b kv ↦ b.add r kv.1 kv.2)
        BlockBuilder.new).finish.2).newIterator cmp = .iter it ∧ it.valid = false ∧
      ∀ ops : List (Cursor.Op (List UInt8)),
        (Machine.run (flip Iter.step) it ops = none ∧
            Machine.run (flip (Cursor.stepBy fun a b ↦ decide (cmp.compare a b < 0)))
              ⟨kvs, kvs.length⟩ ops = none) ∨
          ∃ it' c', Machine.run (flip Iter.step) it ops = some it' ∧
            Machine.run (flip (Cursor.stepBy fun a b ↦ decide (cmp.compare a b < 0)))
              ⟨kvs, kvs.length⟩ ops = some c' ∧
            it'.valid = c'.valid ∧ ∀ e, c'.current = some e → it'.key = e.1 ∧ it'.value = e.2 := by
  rw [finish_foldl_add hr] at hfit ⊢
  -- the iterator starts past the entries, where the cursor starts
  have hinv : Invalid r kvs ⟨cmp, blockContents r kvs, entryOffset r kvs kvs.length,
      restartCount r kvs.length, entryOffset r kvs kvs.length, restartCount r kvs.length, [], 0,
      0, .ok⟩ :=
    ⟨⟨rfl, rfl, rfl, rfl⟩, rfl⟩
  refine ⟨_, newIterator_blockContents hfit cmp, hinv.valid, fun ops ↦ ?_⟩
  rcases Machine.run_lockstep (Simulates r kvs cmp)
      (fun _ _ op h ↦ h.step hr hfit hsorted htrans op) ops _ _
      (simulates_invalid rfl hinv (.inr le_rfl)) with hnone | ⟨it', c', hit, hc, hs⟩
  · exact .inl hnone
  · exact .inr ⟨it', c', hit, hc, hs.valid, fun e he ↦ hs.current he⟩

/-- Three entries, the second sharing a byte with the first. -/
def threeEntries : List (List UInt8 × List UInt8) :=
  [([1], [10]), ([1, 2], [20]), ([3], [])]

theorem blockBuilder_iterator_walks_three_entries :
    (threeEntries.Pairwise fun a b ↦ bytewiseComparator.compare a.1 b.1 < 0) ∧
      (threeEntries.foldl (fun b kv ↦ b.add 2 kv.1 kv.2) BlockBuilder.new).finish.2.length <
        2 ^ 32 ∧
      ∃ it, (Block.ofContents (threeEntries.foldl (fun b kv ↦ b.add 2 kv.1 kv.2)
          BlockBuilder.new).finish.2).newIterator bytewiseComparator = .iter it ∧
        it.valid = false ∧
        ∀ ops : List (Cursor.Op (List UInt8)),
          (Machine.run (flip Iter.step) it ops = none ∧
              Machine.run (flip (Cursor.stepBy fun a b ↦
                decide (bytewiseComparator.compare a b < 0))) ⟨threeEntries, 3⟩ ops = none) ∨
            ∃ it' c', Machine.run (flip Iter.step) it ops = some it' ∧
              Machine.run (flip (Cursor.stepBy fun a b ↦
                decide (bytewiseComparator.compare a b < 0))) ⟨threeEntries, 3⟩ ops = some c' ∧
              it'.valid = c'.valid ∧
              ∀ e, c'.current = some e → it'.key = e.1 ∧ it'.value = e.2 :=
  ⟨by decide, by decide,
    blockBuilder_iterator_walks_entries (by decide) bytewiseComparator (by decide)
      (fun a b c hab hbc ↦ by
        rw [bytewiseComparator_compare, sliceCompare_neg_iff] at *
        exact List.lt_trans hab hbc)
      (by decide)⟩

end RoundTrip

end PebblesDB.Table
