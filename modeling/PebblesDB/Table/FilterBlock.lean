import PebblesDB.Util.Coding
import PebblesDB.Db.FileFilter

/-!
# Filter blocks

A table keeps the filters of its data blocks in one filter block. `FilterBlockBuilder` is fed
`(StartBlock(offset) AddKey*)* Finish`: the keys of all data blocks whose offsets fall in one
window of `kFilterBase` bytes go into one filter, and a window without keys gets an empty filter.
The block holds the filters one after the other, the `uint32_t` start of each, the start of that
array, and `kFilterBaseLg`. `FilterBlockReader::KeyMayMatch(offset, key)` finds the filter of the
offset's window through the array and asks the policy.

The builder always holds the filters made so far and the keys of the next one
(`FilterBlockBuilder.ofFilters`), and `Finish` writes them out as `encode` does
(`finish_ofFilters`). After the calls for blocks with nondecreasing offsets, filter `f` is made of
the keys of the blocks in window `f` (`build_eq`), and the reader finds each filter back
(`keyMayMatch_encode`). So under a policy without false negatives, every key added after
`StartBlock(o)` matches at `o` (`build_keyMayMatch`), as long as the block is shorter than
`2 ^ 32` bytes. Past that the `uint32_t` offsets wrap, and the reader reads a wrong filter
(`bigFilter_keyMayMatch`).
-/

namespace PebblesDB.Table.FilterBlock

open Db.FileFilter (FilterPolicy)

/-- `kFilterBaseLg`: a new filter every 2 KiB of data. -/
def kFilterBaseLg : ℕ := 11

/-- `kFilterBase`. -/
def kFilterBase : ℕ := 1 <<< kFilterBaseLg

/-- A `FilterBlockBuilder`. -/
structure FilterBlockBuilder where
  /-- The keys added since the last filter, `keys_` cut at `start_`. -/
  keys : List (List UInt8)
  /-- `result_`, the filters computed so far. -/
  result : List UInt8
  /-- `filter_offsets_`. -/
  filterOffsets : List UInt32
  deriving DecidableEq, Repr

namespace FilterBlockBuilder

variable (policy : FilterPolicy)

/-- The constructor: nothing added yet. -/
def init : FilterBlockBuilder :=
  ⟨[], [], []⟩

/-- `GenerateFilter()`: the filter of the pending keys, or an empty one if there are none. -/
def generateFilter (b : FilterBlockBuilder) : FilterBlockBuilder :=
  if b.keys.isEmpty then
    -- fast path if there are no keys for this filter
    { b with filterOffsets := b.filterOffsets ++ [b.result.length.toUInt32] }
  else
    ⟨[], b.result ++ policy.createFilter b.keys, b.filterOffsets ++ [b.result.length.toUInt32]⟩

/-- `GenerateFilter()`, `n` times. -/
def generateFilters : ℕ → FilterBlockBuilder → FilterBlockBuilder
  | 0, b => b
  | n + 1, b => generateFilters n (generateFilter policy b)

/-- `StartBlock(block_offset)`: filters up to the window of `block_offset`; `none` where the
assert that the window is not behind the filters made fails. -/
def startBlock (blockOffset : UInt64) (b : FilterBlockBuilder) : Option FilterBlockBuilder :=
  let filterIndex := blockOffset.toNat / kFilterBase
  if filterIndex < b.filterOffsets.length then none
  else some (generateFilters policy (filterIndex - b.filterOffsets.length) b)

/-- `AddKey(key)`. -/
def addKey (key : List UInt8) (b : FilterBlockBuilder) : FilterBlockBuilder :=
  { b with keys := b.keys ++ [key] }

/-- `Finish()`: a last filter if keys are pending, then the array of filter offsets, its own
offset and `kFilterBaseLg`. -/
def finish (b : FilterBlockBuilder) : List UInt8 :=
  let b := if b.keys.isEmpty then b else generateFilter policy b
  b.result ++ b.filterOffsets.flatMap encodeFixed32 ++ encodeFixed32 b.result.length.toUInt32 ++
    [kFilterBaseLg.toUInt8]

/-- The calls for one data block: `StartBlock(offset)`, then `AddKey` for each of its keys. -/
def addBlock (b : FilterBlockBuilder) (offset : UInt64) (keys : List (List UInt8)) :
    Option FilterBlockBuilder :=
  (b.startBlock policy offset).map fun b ↦ keys.foldl (fun b key ↦ b.addKey key) b

end FilterBlockBuilder

/-- The calls `(StartBlock(offset) AddKey(key)*)* Finish()` for data blocks given by their offset
and keys: the filter block, or `none` where an assert fails. -/
def build (policy : FilterPolicy) (blocks : List (UInt64 × List (List UInt8))) :
    Option (List UInt8) :=
  (blocks.foldlM (fun (b : FilterBlockBuilder) block ↦ b.addBlock policy block.1 block.2)
    FilterBlockBuilder.init).map (FilterBlockBuilder.finish policy)

/-- A `FilterBlockReader` over `data`, with `offset_` as its distance from `data_`. -/
structure FilterBlockReader where
  /-- `policy_`. -/
  policy : FilterPolicy
  /-- The contents, at `data_`. -/
  data : List UInt8
  /-- `offset_ - data_`: where the array of filter offsets starts. -/
  offset : ℕ
  /-- `num_`: the number of filters. -/
  num : ℕ
  /-- `base_lg_`. -/
  baseLg : ℕ

/-- The constructor `FilterBlockReader(policy, contents)`: a block shorter than five bytes, or one
whose array offset lies past its end, leaves `num_ = 0`. -/
def FilterBlockReader.ofContents (policy : FilterPolicy) (contents : List UInt8) :
    FilterBlockReader :=
  let n := contents.length
  if n < 5 then ⟨policy, contents, 0, 0, 0⟩
  else
    let baseLg := (contents.getD (n - 1) 0).toNat
    let lastWord := (decodeFixed32 (contents.drop (n - 5))).toNat
    if lastWord > n - 5 then ⟨policy, contents, 0, 0, baseLg⟩
    else ⟨policy, contents, lastWord, (n - 5 - lastWord) / 4, baseLg⟩

/-- `KeyMayMatch(block_offset, key)`. The `uint64_t` shift is taken on the number: `base_lg_` is
the `11` the builder writes. -/
def FilterBlockReader.keyMayMatch (r : FilterBlockReader) (blockOffset : UInt64)
    (key : List UInt8) : Bool :=
  let index := blockOffset.toNat >>> r.baseLg
  if index < r.num then
    let start := (decodeFixed32 (r.data.drop (r.offset + index * 4))).toNat
    let limit := (decodeFixed32 (r.data.drop (r.offset + index * 4 + 4))).toNat
    if start ≤ limit ∧ limit ≤ r.offset then
      r.policy.keyMayMatch key ((r.data.drop start).take (limit - start))
    -- empty filters do not match any keys
    else if start = limit then false
    else true
  -- errors are treated as potential matches
  else true

/-! ## The block of a list of filters -/

/-- Where each filter of `filts` starts. -/
def filterOffsetsOf (filts : List (List UInt8)) : List ℕ :=
  (List.range filts.length).map fun i ↦ (filts.take i).flatten.length

/-- The filter block of the filters `filts`: the filters, the start of each and of the array,
and `kFilterBaseLg`. -/
def encode (filts : List (List UInt8)) : List UInt8 :=
  filts.flatten ++
    (filterOffsetsOf filts ++ [filts.flatten.length]).flatMap (fun s ↦ encodeFixed32 s.toUInt32) ++
    [kFilterBaseLg.toUInt8]

/-- The filter `GenerateFilter` makes of some keys: nothing for no keys. -/
def filterOf (policy : FilterPolicy) (keys : List (List UInt8)) : List UInt8 :=
  if keys.isEmpty then [] else policy.createFilter keys

/-- A builder holding the filters `filts` and the keys `pending` of the next one. -/
def FilterBlockBuilder.ofFilters (filts pending : List (List UInt8)) : FilterBlockBuilder :=
  ⟨pending, filts.flatten, (filterOffsetsOf filts).map Nat.toUInt32⟩

@[simp] theorem length_filterOffsetsOf (filts : List (List UInt8)) :
    (filterOffsetsOf filts).length = filts.length := by
  simp [filterOffsetsOf]

theorem filterOffsetsOf_append_singleton (filts : List (List UInt8)) (x : List UInt8) :
    filterOffsetsOf (filts ++ [x]) = filterOffsetsOf filts ++ [filts.flatten.length] := by
  simp only [filterOffsetsOf, List.length_append, List.length_singleton, List.range_succ,
    List.map_append, List.map_singleton, List.take_left']
  congr 1
  refine List.map_congr_left fun i hi ↦ ?_
  rw [List.take_append_of_le_length (by simp at hi; omega)]

namespace FilterBlockBuilder

variable (policy : FilterPolicy)

/-- `GenerateFilter()` closes the pending keys into one filter. -/
theorem generateFilter_ofFilters (filts pending : List (List UInt8)) :
    generateFilter policy (ofFilters filts pending) =
      ofFilters (filts ++ [filterOf policy pending]) [] := by
  cases hp : pending.isEmpty
  · simp [generateFilter, ofFilters, filterOf, hp, filterOffsetsOf_append_singleton]
  · have hnil : pending = [] := List.isEmpty_iff.1 hp
    subst hnil
    simp [generateFilter, ofFilters, filterOf, filterOffsetsOf_append_singleton]

/-- `GenerateFilter()` run `n + 1` times: the pending keys' filter, then `n` empty ones. -/
theorem generateFilters_ofFilters (n : ℕ) (filts pending : List (List UInt8)) :
    generateFilters policy (n + 1) (ofFilters filts pending) =
      ofFilters (filts ++ filterOf policy pending :: List.replicate n []) [] := by
  induction n generalizing filts pending with
  | zero => simp [generateFilters, generateFilter_ofFilters]
  | succ n ih =>
    rw [generateFilters, generateFilter_ofFilters, ih]
    simp [filterOf, List.replicate_succ]

theorem foldl_addKey_ofFilters (filts pending keys : List (List UInt8)) :
    keys.foldl (fun b key ↦ b.addKey key) (ofFilters filts pending) =
      ofFilters filts (pending ++ keys) := by
  induction keys generalizing pending with
  | nil => simp
  | cons key keys ih =>
    rw [List.foldl_cons, show (ofFilters filts pending).addKey key =
      ofFilters filts (pending ++ [key]) from rfl, ih]
    simp

/-- With keys pending, `Finish()` first closes them into a filter. -/
theorem finish_of_isEmpty_eq_false (b : FilterBlockBuilder) (hb : b.keys.isEmpty = false) :
    finish policy b = finish policy (generateFilter policy b) := by
  simp [finish, generateFilter, hb]

/-- **`Finish()` writes the filters out**, with a last one for keys still pending. -/
theorem finish_ofFilters (filts pending : List (List UInt8)) :
    finish policy (ofFilters filts pending) =
      encode (filts ++ if pending.isEmpty then [] else [policy.createFilter pending]) := by
  -- the builder `Finish()` writes out, with no keys pending
  have hclosed : ∀ filts, finish policy (ofFilters filts []) = encode filts := by
    intro filts
    simp [finish, ofFilters, encode, List.flatMap_map, List.flatMap_append]
  cases hp : pending.isEmpty
  · rw [finish_of_isEmpty_eq_false policy _ hp, generateFilter_ofFilters, hclosed]
    simp [filterOf, hp]
  · have hnil : pending = [] := List.isEmpty_iff.1 hp
    subst hnil
    simp [hclosed]

end FilterBlockBuilder

/-! ## The run of calls -/

section Run

variable (policy : FilterPolicy)

/-- The window of a data block's offset: the filter its keys go to. -/
def window (block : UInt64 × List (List UInt8)) : ℕ :=
  block.1.toNat / kFilterBase

/-- The keys of the data blocks in window `f`, in order. -/
def windowKeys (blocks : List (UInt64 × List (List UInt8))) (f : ℕ) : List (List UInt8) :=
  (blocks.filter fun block ↦ window block = f).flatMap (·.2)

/-- The filters of the first `n` windows. -/
def windowFilters (blocks : List (UInt64 × List (List UInt8))) (n : ℕ) : List (List UInt8) :=
  (List.range n).map fun f ↦ filterOf policy (windowKeys blocks f)

variable {policy}

@[simp] theorem length_windowFilters (blocks : List (UInt64 × List (List UInt8))) (n : ℕ) :
    (windowFilters policy blocks n).length = n := by
  simp [windowFilters]

theorem windowKeys_append_of_ne {blocks : List (UInt64 × List (List UInt8))}
    {block : UInt64 × List (List UInt8)} {f : ℕ} (h : window block ≠ f) :
    windowKeys (blocks ++ [block]) f = windowKeys blocks f := by
  simp [windowKeys, List.filter_append, h]

theorem windowKeys_append_self (blocks : List (UInt64 × List (List UInt8)))
    (block : UInt64 × List (List UInt8)) :
    windowKeys (blocks ++ [block]) (window block) =
      windowKeys blocks (window block) ++ block.2 := by
  simp [windowKeys, List.filter_append]

/-- No key lies in a window past the blocks. -/
theorem windowKeys_eq_nil {blocks : List (UInt64 × List (List UInt8))} {f : ℕ}
    (h : ∀ block ∈ blocks, window block < f) : windowKeys blocks f = [] := by
  have hnil : (blocks.filter fun block ↦ window block = f) = [] :=
    List.filter_eq_nil_iff.2 fun block hb hf ↦ by
      have := h block hb
      simp at hf
      omega
  simp [windowKeys, hnil]

/-- A block in a window at or past `n` leaves the first `n` filters as they are. -/
theorem windowFilters_append_of_le {blocks : List (UInt64 × List (List UInt8))}
    {block : UInt64 × List (List UInt8)} {n : ℕ} (h : n ≤ window block) :
    windowFilters policy (blocks ++ [block]) n = windowFilters policy blocks n := by
  refine List.map_congr_left fun f hf ↦ ?_
  rw [windowKeys_append_of_ne (by simp at hf; omega)]

/-- Past the windows of the blocks, the filters are empty. -/
theorem windowFilters_of_lt {blocks : List (UInt64 × List (List UInt8))} {F F' : ℕ}
    (hF : ∀ block ∈ blocks, window block ≤ F) (hlt : F < F') :
    windowFilters policy blocks F' =
      windowFilters policy blocks F ++
        filterOf policy (windowKeys blocks F) :: List.replicate (F' - F - 1) [] := by
  obtain ⟨d, rfl⟩ : ∃ d, F' = F + 1 + d := ⟨F' - F - 1, by omega⟩
  rw [show F + 1 + d - F - 1 = d by omega]
  -- the windows after `F` hold no key
  have hempty : ∀ i, filterOf policy (windowKeys blocks (F + 1 + i)) = [] := fun i ↦ by
    rw [windowKeys_eq_nil fun block hb ↦ by have := hF block hb; omega]
    rfl
  simp only [windowFilters, List.range_add, List.map_append, List.range_succ, List.map_map,
    Function.comp_def, hempty, List.map_const', List.length_range, List.append_assoc]
  simp

namespace FilterBlockBuilder

/-- **One data block.** Started in window `F1` at or past the window `F` of the blocks so far,
the filters of the windows before `F1` are made and its keys are pending. -/
theorem addBlock_ofFilters {done : List (UInt64 × List (List UInt8))} {F : ℕ}
    (hdone : ∀ block ∈ done, window block ≤ F) (block : UInt64 × List (List UInt8))
    (hF : F ≤ window block) :
    (ofFilters (windowFilters policy done F) (windowKeys done F)).addBlock policy block.1 block.2 =
      some (ofFilters (windowFilters policy (done ++ [block]) (window block))
        (windowKeys (done ++ [block]) (window block))) := by
  have hlen : (ofFilters (windowFilters policy done F) (windowKeys done F)).filterOffsets.length
      = F := by
    simp [ofFilters]
  simp only [addBlock, startBlock]
  rw [show block.1.toNat / kFilterBase = window block from rfl, hlen, if_neg (by omega),
    Option.map_some, windowFilters_append_of_le (Nat.le_refl _), windowKeys_append_self]
  rcases Nat.lt_or_eq_of_le hF with hlt | heq
  · -- filters up to the block's window: the pending keys', then empty ones
    obtain ⟨n, hn⟩ : ∃ n, window block - F = n + 1 := ⟨window block - F - 1, by omega⟩
    have hnil : windowKeys done (window block) = [] :=
      windowKeys_eq_nil fun b hb ↦ by have := hdone b hb; omega
    rw [hn, generateFilters_ofFilters, foldl_addKey_ofFilters, windowFilters_of_lt hdone hlt,
      hnil, show window block - F - 1 = n by omega]
  · -- the same window: the keys join the pending ones
    rw [← heq, Nat.sub_self, generateFilters, foldl_addKey_ofFilters]

/-- **The run of data blocks** in order of their windows, after the blocks `done`: the builder
holds the filters of the windows before the last block's, and the keys of that window. -/
theorem foldlM_addBlock (rest : List (UInt64 × List (List UInt8))) :
    ∀ (done : List (UInt64 × List (List UInt8))) (F : ℕ),
      (∀ block ∈ done, window block ≤ F) → (∀ block ∈ rest, F ≤ window block) →
      rest.Pairwise (fun a b ↦ window a ≤ window b) →
      ∃ F', (∀ block ∈ done ++ rest, window block ≤ F') ∧
        rest.foldlM (fun (b : FilterBlockBuilder) block ↦ b.addBlock policy block.1 block.2)
            (ofFilters (windowFilters policy done F) (windowKeys done F)) =
          some (ofFilters (windowFilters policy (done ++ rest) F')
            (windowKeys (done ++ rest) F')) := by
  induction rest with
  | nil =>
    intro done F hdone _ _
    exact ⟨F, by simpa using hdone, by simp⟩
  | cons block rest ih =>
    intro done F hdone hrest hsorted
    obtain ⟨hhead, htail⟩ := List.pairwise_cons.1 hsorted
    have hF := hrest block List.mem_cons_self
    -- the blocks so far and this one lie at or before its window
    have hdone' : ∀ b ∈ done ++ [block], window b ≤ window block := by
      intro b hb
      rcases List.mem_append.1 hb with hb | hb
      · exact Nat.le_trans (hdone b hb) hF
      · exact Nat.le_of_eq (congrArg window (List.mem_singleton.1 hb))
    obtain ⟨F', hF', hrun⟩ := ih (done ++ [block]) (window block) hdone' hhead htail
    refine ⟨F', by simpa using hF', ?_⟩
    rw [List.foldlM_cons, addBlock_ofFilters hdone block hF]
    simpa using hrun

end FilterBlockBuilder

/-- **The filter block of a run** with nondecreasing offsets: the filters of the windows up to the
last block's, then that window's filter if it has keys. -/
theorem build_eq (policy : FilterPolicy) {blocks : List (UInt64 × List (List UInt8))}
    (hsorted : blocks.Pairwise fun a b ↦ a.1 ≤ b.1) :
    ∃ F, (∀ block ∈ blocks, window block ≤ F) ∧
      build policy blocks = some (encode (windowFilters policy blocks F ++
        if (windowKeys blocks F).isEmpty then [] else [policy.createFilter (windowKeys blocks F)]))
    := by
  have hwindows : blocks.Pairwise fun a b ↦ window a ≤ window b :=
    hsorted.imp fun h ↦ Nat.div_le_div_right (UInt64.le_iff_toNat_le.1 h)
  obtain ⟨F, hF, hrun⟩ :=
    @FilterBlockBuilder.foldlM_addBlock policy blocks [] 0 (by simp) (by simp) hwindows
  refine ⟨F, by simpa using hF, ?_⟩
  rw [build, show FilterBlockBuilder.init = .ofFilters (windowFilters policy [] 0)
    (windowKeys [] 0) from rfl, hrun, Option.map_some, List.nil_append,
    FilterBlockBuilder.finish_ofFilters]

end Run

/-! ## Reading the block back -/

section Reader

variable {filts : List (List UInt8)}

theorem filterOffsetsOf_append_length (filts : List (List UInt8)) :
    filterOffsetsOf filts ++ [filts.flatten.length] =
      (List.range (filts.length + 1)).map fun i ↦ (filts.take i).flatten.length := by
  simp only [filterOffsetsOf, List.range_succ, List.map_append, List.map_singleton,
    List.take_length]

/-- The block as the filters, the array of words (the start of each filter, then of the array)
and `kFilterBaseLg`. -/
theorem encode_eq (filts : List (List UInt8)) :
    encode filts = filts.flatten ++
      (((List.range (filts.length + 1)).map fun i ↦ (filts.take i).flatten.length.toUInt32).flatMap
        encodeFixed32 ++ [kFilterBaseLg.toUInt8]) := by
  simp only [encode, filterOffsetsOf_append_length, List.flatMap_map, List.append_assoc]

theorem length_encode (filts : List (List UInt8)) :
    (encode filts).length = filts.flatten.length + 4 * (filts.length + 1) + 1 := by
  rw [encode_eq]
  simp only [List.length_append, length_flatMap_encodeFixed32, List.length_map,
    List.length_range, List.length_singleton]
  omega

theorem length_flatten_take_le (filts : List (List UInt8)) (i : ℕ) :
    (filts.take i).flatten.length ≤ filts.flatten.length := by
  have h := congrArg (fun l ↦ l.flatten.length) (List.take_append_drop i filts)
  simp only [List.flatten_append, List.length_append] at h
  omega

theorem flatten_take_add_one {i : ℕ} (hi : i < filts.length) :
    (filts.take (i + 1)).flatten = (filts.take i).flatten ++ filts[i] := by
  rw [List.take_add_one, List.getElem?_eq_getElem hi, Option.toList_some, List.flatten_append,
    List.flatten_singleton]

/-- The last byte is `kFilterBaseLg`. -/
theorem getD_encode_last (filts : List (List UInt8)) :
    (encode filts).getD ((encode filts).length - 1) 0 = kFilterBaseLg.toUInt8 := by
  rw [encode, List.length_append, List.length_singleton, Nat.add_sub_cancel,
    List.getD_append_right _ _ _ _ (Nat.le_refl _), Nat.sub_self]
  rfl

/-- Word `j` of the array: where filter `j` starts, or the array itself for `j` the number of
filters. -/
theorem decodeFixed32_drop_encode {j : ℕ} (hj : j ≤ filts.length) :
    decodeFixed32 ((encode filts).drop (filts.flatten.length + 4 * j)) =
      (filts.take j).flatten.length.toUInt32 := by
  rw [encode_eq, ← List.drop_drop, List.drop_left' rfl,
    decodeFixed32_drop_flatMap (by simp; omega)]
  simp

/-- The bytes from the start of filter `i`, as long as it is, are filter `i`. -/
theorem take_drop_encode {i : ℕ} (hi : i < filts.length) :
    ((encode filts).drop (filts.take i).flatten.length).take filts[i].length = filts[i] := by
  have hsplit : filts.flatten =
      (filts.take i).flatten ++ (filts[i] ++ (filts.drop (i + 1)).flatten) := by
    rw [← List.append_assoc, ← flatten_take_add_one hi, ← List.flatten_append,
      List.take_append_drop]
  rw [encode_eq, hsplit]
  simp only [List.append_assoc]
  rw [List.drop_left' rfl, List.take_left' rfl]

/-- **The reader finds what the builder wrote**: the array after the filters, one word for each
filter, and `kFilterBaseLg`; as long as the block's offsets fit their `uint32_t`. -/
theorem ofContents_encode (policy : FilterPolicy) (hlen : (encode filts).length < 2 ^ 32) :
    FilterBlockReader.ofContents policy (encode filts) =
      ⟨policy, encode filts, filts.flatten.length, filts.length, kFilterBaseLg⟩ := by
  have hn := length_encode filts
  have hlast : (decodeFixed32 ((encode filts).drop ((encode filts).length - 5))).toNat =
      filts.flatten.length := by
    rw [show (encode filts).length - 5 = filts.flatten.length + 4 * filts.length by omega,
      decodeFixed32_drop_encode (Nat.le_refl _), List.take_length]
    simp only [Nat.toUInt32, UInt32.toNat_ofNat']
    omega
  simp only [FilterBlockReader.ofContents, getD_encode_last, hlast]
  rw [if_neg (by omega), if_neg (by omega)]
  congr 1
  omega

/-- **`KeyMayMatch` asks the policy about the filter of the offset's window.** -/
theorem keyMayMatch_encode (policy : FilterPolicy) (hlen : (encode filts).length < 2 ^ 32)
    {blockOffset : UInt64} (hi : blockOffset.toNat / kFilterBase < filts.length)
    (key : List UInt8) :
    (FilterBlockReader.ofContents policy (encode filts)).keyMayMatch blockOffset key =
      policy.keyMayMatch key filts[blockOffset.toNat / kFilterBase] := by
  have hn := length_encode filts
  have hindex : blockOffset.toNat >>> kFilterBaseLg = blockOffset.toNat / kFilterBase := by
    rw [Nat.shiftRight_eq_div_pow]
    rfl
  -- the words on either side of the filter
  have hword : ∀ j ≤ filts.length,
      (decodeFixed32 ((encode filts).drop (filts.flatten.length + 4 * j))).toNat =
        (filts.take j).flatten.length := fun j hj ↦ by
    have := length_flatten_take_le filts j
    rw [decodeFixed32_drop_encode hj]
    simp only [Nat.toUInt32, UInt32.toNat_ofNat']
    omega
  have hstart := hword _ (Nat.le_of_lt hi)
  have hlimit := hword (blockOffset.toNat / kFilterBase + 1) hi
  rw [flatten_take_add_one hi, List.length_append] at hlimit
  have hle := length_flatten_take_le filts (blockOffset.toNat / kFilterBase + 1)
  rw [flatten_take_add_one hi, List.length_append] at hle
  simp only [ofContents_encode policy hlen, FilterBlockReader.keyMayMatch, hindex]
  rw [Nat.mul_comm, hstart, Nat.add_assoc, show 4 * (blockOffset.toNat / kFilterBase) + 4 =
    4 * (blockOffset.toNat / kFilterBase + 1) by omega, hlimit, if_pos hi,
    if_pos ⟨by omega, hle⟩, Nat.add_sub_cancel_left, take_drop_encode hi]

end Reader

/-! ## No false negatives -/

/-- **Every key added for a data block matches at the block's offset**, under a policy without
false negatives and for data blocks with nondecreasing offsets, as long as the finished block is
shorter than `2 ^ 32` bytes. -/
theorem build_keyMayMatch {policy : FilterPolicy} (hpolicy : policy.NoFalseNegatives)
    {blocks : List (UInt64 × List (List UInt8))} (hsorted : blocks.Pairwise fun a b ↦ a.1 ≤ b.1)
    {block : UInt64 × List (List UInt8)} (hblock : block ∈ blocks) {key : List UInt8}
    (hkey : key ∈ block.2) :
    ∃ contents, build policy blocks = some contents ∧
      (contents.length < 2 ^ 32 →
        (FilterBlockReader.ofContents policy contents).keyMayMatch block.1 key = true) := by
  obtain ⟨F, hF, hbuild⟩ := build_eq policy hsorted
  set filts := windowFilters policy blocks F ++
    if (windowKeys blocks F).isEmpty then [] else [policy.createFilter (windowKeys blocks F)]
  refine ⟨_, hbuild, fun hlen ↦ ?_⟩
  have hkeys : key ∈ windowKeys blocks (window block) :=
    List.mem_flatMap.2 ⟨block, List.mem_filter.2 ⟨hblock, by simp⟩, hkey⟩
  have hne : windowKeys blocks (window block) ≠ [] := List.ne_nil_of_mem hkeys
  -- the filter of the block's window is the policy's filter of that window's keys
  obtain ⟨hi, hfilter⟩ : ∃ hi : block.1.toNat / kFilterBase < filts.length,
      filts[block.1.toNat / kFilterBase] =
        policy.createFilter (windowKeys blocks (window block)) := by
    show ∃ hi : window block < filts.length, filts[window block] = _
    rcases Nat.lt_or_eq_of_le (hF block hblock) with hlt | heq
    · -- an earlier window: one of the filters made by a later `StartBlock`
      refine ⟨by simp [filts]; omega, ?_⟩
      rw [List.getElem_append_left (by simpa using hlt)]
      simp [windowFilters, filterOf, hne]
    · -- the last window: the filter `Finish` makes of the pending keys
      simp only [filts, ← heq, List.isEmpty_eq_false_iff.2 hne, Bool.false_eq_true, if_false]
      refine ⟨by simp, ?_⟩
      rw [List.getElem_append_right (by simp)]
      simp
  rw [keyMayMatch_encode policy hlen hi, hfilter]
  exact hpolicy _ _ hkeys

/-- Two data blocks in one window and a third in the next. -/
def threeBlocks : List (UInt64 × List (List UInt8)) :=
  [(0, [[1], [2]]), (1000, [[3]]), (3000, [[4], [5]])]

theorem build_keyMayMatch_bloom :
    (FilterPolicy.bloom Db.FileFilter.tenBits).NoFalseNegatives ∧
      threeBlocks.Pairwise (fun a b ↦ a.1 ≤ b.1) ∧ (1000, [[3]]) ∈ threeBlocks ∧
      ∃ contents, build (FilterPolicy.bloom Db.FileFilter.tenBits) threeBlocks = some contents ∧
        (contents.length < 2 ^ 32 →
          (FilterBlockReader.ofContents (FilterPolicy.bloom Db.FileFilter.tenBits)
            contents).keyMayMatch 1000 [3] = true) :=
  ⟨FilterPolicy.bloom_noFalseNegatives _, by decide, by decide,
    @build_keyMayMatch _ (FilterPolicy.bloom_noFalseNegatives _) threeBlocks (by decide)
      (1000, [[3]]) (by decide) [3] (List.mem_singleton_self _)⟩

/-! ## Blocks of `2 ^ 32` bytes and more

`filter_offsets_` and `array_offset` are `uint32_t`: in a block with `2 ^ 32` bytes of filters or
more the offsets in the array wrap, and the reader takes the bytes between two wrong offsets for
a filter. -/

/-- A policy without false negatives whose filters are `2 ^ 32 + 1` bytes long: a filter matches
every key unless it is empty. -/
def bigFilterPolicy : FilterPolicy :=
  ⟨fun _ ↦ List.replicate (2 ^ 32 + 1) 0, fun _ filter ↦ !filter.isEmpty⟩

theorem bigFilterPolicy_noFalseNegatives : bigFilterPolicy.NoFalseNegatives := by
  intro keys key _
  simp only [bigFilterPolicy, List.isEmpty_replicate]
  rfl

/-- The block of one data block at offset `0` with key `[1]`. -/
theorem build_bigFilter :
    build bigFilterPolicy [(0, [[1]])] = some (encode [List.replicate (2 ^ 32 + 1) 0]) := by
  have hrun : build bigFilterPolicy [(0, [[1]])] =
      some (FilterBlockBuilder.finish bigFilterPolicy (.ofFilters [] [[1]])) := rfl
  rw [hrun, FilterBlockBuilder.finish_ofFilters]
  rfl

/-- Inside a filter of zero bytes, every word reads as `0`. -/
theorem decodeFixed32_drop_encode_replicate {n k : ℕ} (hk : k + 4 ≤ n) :
    decodeFixed32 ((encode [List.replicate n 0]).drop k) = 0 := by
  rw [encode, List.flatten_cons, List.flatten_nil, List.append_nil, List.append_assoc,
    List.drop_append_of_le_length (by simp; omega), List.drop_replicate,
    show n - k = 4 + (n - k - 4) by omega, List.replicate_add, List.append_assoc,
    decodeFixed32_append (by simp)]
  rfl

/-- The reader takes the wrapped array offset `1` for the start of the array, and finds
`2 ^ 30 + 1` filters. -/
theorem ofContents_bigFilter :
    FilterBlockReader.ofContents bigFilterPolicy (encode [List.replicate (2 ^ 32 + 1) 0]) =
      ⟨bigFilterPolicy, encode [List.replicate (2 ^ 32 + 1) 0], 1, 2 ^ 30 + 1, kFilterBaseLg⟩ := by
  have hn : (encode [List.replicate (2 ^ 32 + 1) (0 : UInt8)]).length = 2 ^ 32 + 10 := by
    rw [length_encode, List.flatten_cons, List.flatten_nil, List.append_nil,
      List.length_replicate, List.length_singleton]
  -- the last word: the start of the array, wrapped to `1`
  have hlast : (decodeFixed32 ((encode [List.replicate (2 ^ 32 + 1) 0]).drop
      ((encode [List.replicate (2 ^ 32 + 1) 0]).length - 5))).toNat = 1 := by
    have hlength : [List.replicate (2 ^ 32 + 1) (0 : UInt8)].flatten.length = 2 ^ 32 + 1 := by
      rw [List.flatten_cons, List.flatten_nil, List.append_nil, List.length_replicate]
    rw [hn, show 2 ^ 32 + 10 - 5 =
      [List.replicate (2 ^ 32 + 1) (0 : UInt8)].flatten.length +
        4 * [List.replicate (2 ^ 32 + 1) (0 : UInt8)].length by rw [hlength]; rfl,
      decodeFixed32_drop_encode (Nat.le_refl _), List.take_length, hlength]
    rfl
  rw [FilterBlockReader.ofContents]
  dsimp only
  rw [getD_encode_last, hlast, hn, if_neg (by decide), if_neg (by decide)]
  rfl

/-- **The reader misses the key**: filter `0` is read as the bytes from `0` to `0`, the empty
filter, which matches nothing. -/
theorem bigFilter_keyMayMatch :
    bigFilterPolicy.NoFalseNegatives ∧ ∃ contents,
      build bigFilterPolicy [(0, [[1]])] = some contents ∧
        (FilterBlockReader.ofContents bigFilterPolicy contents).keyMayMatch 0 [1] = false := by
  refine ⟨bigFilterPolicy_noFalseNegatives, _, build_bigFilter, ?_⟩
  -- filter `0` is read between the wrapped offsets `0` and `0`: inside the filter's own bytes
  have hstart := @decodeFixed32_drop_encode_replicate (2 ^ 32 + 1) (1 + 0 * 4) (by decide)
  have hlimit := @decodeFixed32_drop_encode_replicate (2 ^ 32 + 1) (1 + 0 * 4 + 4) (by decide)
  have hindex : (0 : UInt64).toNat >>> kFilterBaseLg = 0 := rfl
  rw [ofContents_bigFilter, FilterBlockReader.keyMayMatch]
  dsimp only
  rw [hindex, if_pos (by decide), hstart, hlimit, UInt32.toNat_zero,
    if_pos ⟨Nat.le_refl _, by decide⟩, Nat.sub_self, List.take_zero]
  rfl

end PebblesDB.Table.FilterBlock
