import Mathlib.Data.List.Lex
import Mathlib.Data.Prod.Lex
import PebblesDB.Db.CompactionWork
import PebblesDB.Db.FileFilter
import PebblesDB.Db.SkipListSet
import PebblesDB.Lib.Snapshot
import PebblesDB.Util.Coding

/-!
# The memtable

A memtable is a skip list of arena entries: an entry is a user key, the eight-byte tag
`(s << 8) | type` after it, and the value. `KeyComparator` orders entries by their internal
keys, user keys ascending under `BytewiseComparator` and tags descending, so the versions of a
key sit newest first; `KeyExtractor` hints with `KeyNum` of the user key, its first eight
bytes as a big-endian number. `KeyNum` is monotone for the order (`keyExtractor_mono`), which
is all the skip list asks of an extractor, so the memtable is the sorted set of the entries
added (`PebblesDB.Db.SkipList.SortedSet`).

`Get(LookupKey(k, s))` seeks to the internal key of `k` with the tag `(s << 8) | kTypeValue`.
The first entry at or after it is the newest entry of `k` at or below `s`, if there is one,
and otherwise an entry of a larger user key or none: so `Get` reads the snapshot
(`addAll_get`).

`Add` writes an entry to the arena as bytes, `varint32(key_size + 8)`, the key, the tag,
`varint32(val_size)` and the value (`AddCall.encode`), and the skip list holds what its comparator
and `Get` read back from those bytes (`decodeEntry`). The sizes are `size_t`s that
`EncodeVarint32` takes as `uint32_t`: a key of `2^32 - 8` bytes or more, or a value of `2^32`
bytes or more, is not read back as it was written (`addAll_get_bigValue`).
-/

namespace PebblesDB.Db.MemTable

open SkipList LinkedList FileFilter CompactionWork

/-! ## Entries and their order -/

/-- `kTypeDeletion`. -/
def kTypeDeletion : UInt8 := 0

/-- `kTypeValue`. -/
def kTypeValue : UInt8 := 1

/-- An entry of the arena as `MemTable::Add` writes it, its length prefixes decoded. -/
structure ArenaEntry where
  /-- The user key. -/
  userKey : List UInt8
  /-- The tag stored after the user key. -/
  tag : UInt64
  /-- The value. -/
  value : List UInt8
  deriving DecidableEq, Repr, Inhabited

/-- The order `KeyComparator` puts entries in: `InternalKeyComparator::Compare` on their internal
keys, user keys ascending under `BytewiseComparator`, then tags descending. -/
def internalKey (e : ArenaEntry) : Lex (List ℕ × ℕᵒᵈ) :=
  toLex (e.userKey.map UInt8.toNat, OrderDual.toDual e.tag.toNat)

/-- `InternalKeyComparator::Compare(a, b) < 0` on two entries. -/
def internalLt (a b : ArenaEntry) : Bool :=
  decide (a.userKey < b.userKey) || (a.userKey == b.userKey && decide (b.tag < a.tag))

/-- `Slice::compare` on bytes is the order of their values. -/
theorem lt_iff_map_toNat_lt {a b : List UInt8} :
    a < b ↔ a.map UInt8.toNat < b.map UInt8.toNat := by
  induction a generalizing b with
  | nil =>
    cases b with
    | nil => exact ⟨fun h ↦ absurd h (List.not_lt_nil _), fun h ↦ absurd h (List.not_lt_nil _)⟩
    | cons y b => exact ⟨fun _ ↦ List.nil_lt_cons _ _, fun _ ↦ List.nil_lt_cons _ _⟩
  | cons x a ih =>
    cases b with
    | nil => exact ⟨fun h ↦ absurd h (List.not_lt_nil _), fun h ↦ absurd h (List.not_lt_nil _)⟩
    | cons y b =>
      simp only [List.map_cons, List.cons_lt_cons_iff, ih, UInt8.lt_iff_toNat_lt, UInt8.toNat_inj]

theorem map_toNat_injective : Function.Injective (List.map UInt8.toNat) :=
  List.map_injective_iff.2 fun _ _ h ↦ UInt8.toNat_inj.1 h

theorem internalKey_le_iff {a b : ArenaEntry} :
    internalKey a ≤ internalKey b ↔
      a.userKey.map UInt8.toNat < b.userKey.map UInt8.toNat ∨
        (a.userKey = b.userKey ∧ b.tag.toNat ≤ a.tag.toNat) := by
  rw [internalKey, internalKey, Prod.Lex.le_iff]
  simp only [ofLex_toLex, OrderDual.toDual_le_toDual, map_toNat_injective.eq_iff]

theorem internalKey_lt_iff {a b : ArenaEntry} :
    internalKey a < internalKey b ↔
      a.userKey.map UInt8.toNat < b.userKey.map UInt8.toNat ∨
        (a.userKey = b.userKey ∧ b.tag.toNat < a.tag.toNat) := by
  rw [internalKey, internalKey, Prod.Lex.lt_iff]
  simp only [ofLex_toLex, OrderDual.toDual_lt_toDual, map_toNat_injective.eq_iff]

/-- **`internalKey` is the comparator's order.** -/
theorem internalLt_iff {a b : ArenaEntry} :
    internalLt a b = true ↔ internalKey a < internalKey b := by
  rw [internalKey_lt_iff, ← lt_iff_map_toNat_lt, internalLt]
  simp [UInt64.lt_iff_toNat_lt]

/-! ## `KeyNum` -/

/-- The big-endian number of the first `n` digits of `l`, padded with zeros. -/
def bigEndian : ℕ → List ℕ → ℕ
  | 0, _ => 0
  | _ + 1, [] => 0
  | n + 1, d :: l => d * 256 ^ n + bigEndian n l

@[simp] theorem bigEndian_nil (n : ℕ) : bigEndian n [] = 0 := by
  cases n <;> rfl

/-- `BytewiseComparatorImpl::KeyNum`: the key's first eight bytes, zero-padded (`memset`, then
`memmove` of at most eight bytes), shifted into one number, the first byte highest. -/
def keyNum (key : List UInt8) : UInt64 :=
  (((key ++ List.replicate 8 0).take 8).foldl (fun (n : ℕ) (b : UInt8) ↦ n <<< 8 ||| b.toNat)
    0).toUInt64

/-- `KeyExtractor`: `KeyNum` of the entry's user key. -/
def keyExtractor (e : ArenaEntry) : UInt64 :=
  keyNum e.userKey

theorem bigEndian_lt : ∀ (n : ℕ) (l : List ℕ), (∀ d ∈ l, d < 256) → bigEndian n l < 256 ^ n
  | 0, _, _ => Nat.one_pos
  | n + 1, [], _ => Nat.pow_pos (by decide)
  | n + 1, d :: l, hl => by
    have hd : d < 256 := hl d List.mem_cons_self
    have hrest := bigEndian_lt n l fun e he ↦ hl e (List.mem_cons_of_mem d he)
    calc bigEndian (n + 1) (d :: l) = d * 256 ^ n + bigEndian n l := rfl
      _ < d * 256 ^ n + 256 ^ n := Nat.add_lt_add_left hrest _
      _ = (d + 1) * 256 ^ n := by rw [Nat.add_mul, Nat.one_mul]
      _ ≤ 256 * 256 ^ n := Nat.mul_le_mul_right _ hd
      _ = 256 ^ (n + 1) := by rw [Nat.pow_succ, Nat.mul_comm]

/-- **The big-endian number is monotone** in the lexicographic order of the digits. -/
theorem bigEndian_le_of_lt : ∀ (n : ℕ) (l₁ l₂ : List ℕ), (∀ d ∈ l₁, d < 256) → l₁ < l₂ →
    bigEndian n l₁ ≤ bigEndian n l₂
  | 0, _, _, _, _ => Nat.le_refl 0
  | n + 1, [], _, _, _ => Nat.zero_le _
  | n + 1, d :: l₁, [], _, h => absurd h (List.not_lt_nil _)
  | n + 1, d :: l₁, e :: l₂, hl, h => by
    have hrest : ∀ d ∈ l₁, d < 256 := fun d' hd' ↦ hl d' (List.mem_cons_of_mem d hd')
    rcases List.cons_lt_cons_iff.1 h with hde | ⟨rfl, hlt⟩
    · -- the first digit decides
      calc bigEndian (n + 1) (d :: l₁) = d * 256 ^ n + bigEndian n l₁ := rfl
        _ ≤ d * 256 ^ n + 256 ^ n := Nat.add_le_add_left (bigEndian_lt n l₁ hrest).le _
        _ = (d + 1) * 256 ^ n := by rw [Nat.add_mul, Nat.one_mul]
        _ ≤ e * 256 ^ n := Nat.mul_le_mul_right _ hde
        _ ≤ bigEndian (n + 1) (e :: l₂) := Nat.le_add_right _ _
    · exact Nat.add_le_add_left (bigEndian_le_of_lt n l₁ l₂ hrest hlt) _

/-- Shifting bytes in one at a time computes the big-endian number of the padded buffer. -/
theorem foldl_shiftLeft_or : ∀ (n m : ℕ), n ≤ m → ∀ (l : List UInt8) (acc : ℕ),
    ((l ++ List.replicate m 0).take n).foldl (fun (n : ℕ) (b : UInt8) ↦ n <<< 8 ||| b.toNat) acc =
      acc * 256 ^ n + bigEndian n (l.map UInt8.toNat)
  | 0, _, _, _, acc => by simp [bigEndian]
  | n + 1, m, hnm, l, acc => by
    have hstep : ∀ b : UInt8, acc <<< 8 ||| b.toNat = acc * 256 + b.toNat := fun b ↦ by
      rw [← Nat.shiftLeft_add_eq_or_of_lt (UInt8.toNat_lt b), Nat.shiftLeft_eq]
    cases l with
    | nil =>
      obtain ⟨m, rfl⟩ := Nat.exists_eq_add_of_lt hnm
      rw [List.nil_append, List.replicate_succ, List.take_succ_cons, List.foldl_cons, hstep 0,
        ← List.nil_append (List.replicate (n + m) 0),
        foldl_shiftLeft_or n (n + m) (Nat.le_add_right n m) [] _]
      simp [Nat.pow_succ, Nat.mul_assoc, Nat.mul_comm 256]
    | cons b l =>
      rw [List.cons_append, List.take_succ_cons, List.foldl_cons, hstep b,
        foldl_shiftLeft_or n m (Nat.le_of_succ_le hnm) l _, List.map_cons, bigEndian]
      rw [Nat.pow_succ, Nat.add_mul, Nat.mul_assoc, Nat.mul_comm 256, Nat.add_assoc]

theorem keyNum_eq (key : List UInt8) :
    keyNum key = (bigEndian 8 (key.map UInt8.toNat)).toUInt64 := by
  rw [keyNum, foldl_shiftLeft_or 8 8 (Nat.le_refl 8) key 0, Nat.zero_mul, Nat.zero_add]

/-- **`KeyNum` is monotone for `BytewiseComparator`.** -/
theorem keyNum_mono {a b : List UInt8} (h : a.map UInt8.toNat ≤ b.map UInt8.toNat) :
    keyNum a ≤ keyNum b := by
  have hdigits : ∀ d ∈ a.map UInt8.toNat, d < 256 := fun d hd ↦ by
    obtain ⟨x, -, rfl⟩ := List.mem_map.1 hd
    exact UInt8.toNat_lt x
  have hb : ∀ d ∈ b.map UInt8.toNat, d < 256 := fun d hd ↦ by
    obtain ⟨x, -, rfl⟩ := List.mem_map.1 hd
    exact UInt8.toNat_lt x
  have ha8 := bigEndian_lt 8 _ hdigits
  have hb8 := bigEndian_lt 8 _ hb
  rw [keyNum_eq, keyNum_eq, UInt64.le_iff_toNat_le]
  simp only [Nat.toUInt64_eq, UInt64.toNat_ofNat', Nat.reducePow] at ha8 hb8 ⊢
  rw [Nat.mod_eq_of_lt ha8, Nat.mod_eq_of_lt hb8]
  rcases lt_or_eq_of_le h with h | h
  · exact bigEndian_le_of_lt 8 _ _ hdigits h
  · rw [h]

/-- The extractor is monotone for the comparator, as the skip list asks. -/
theorem keyExtractor_mono (a b : ArenaEntry) (h : internalKey a ≤ internalKey b) :
    keyExtractor a ≤ keyExtractor b := by
  apply keyNum_mono
  rcases internalKey_le_iff.1 h with h | ⟨h, -⟩
  · exact le_of_lt h
  · rw [h]

/-! ## `Add` and `Get` -/

/-- The skip list of a memtable, `SkipList<const char*, KeyComparator, KeyExtractor>`. -/
abbrev Table := SkipList ArenaEntry

/-- `MemTable::MemTable`: a new skip list. -/
def empty : Table :=
  create keyExtractor

/-- The arguments of one `MemTable::Add` call. -/
structure AddCall where
  /-- `s`. -/
  sequence : UInt64
  /-- `type`. -/
  type : UInt8
  /-- `key`. -/
  key : List UInt8
  /-- `value`. -/
  value : List UInt8
  deriving DecidableEq, Repr

/-- The entry `Add` writes: the key, the tag `(s << 8) | type`, the value. -/
def AddCall.entry (c : AddCall) : ArenaEntry :=
  ⟨c.key, packSequenceAndType c.sequence c.type, c.value⟩

/-- The bytes `Add` writes to the arena: `EncodeVarint32(internal_key_size)`, the key, the tag
`EncodeFixed64((s << 8) | type)`, `EncodeVarint32(val_size)` and the value. -/
def AddCall.encode (c : AddCall) : List UInt8 :=
  encodeVarint32 (c.key.length + 8).toUInt32 ++ c.key ++
    encodeFixed64 (packSequenceAndType c.sequence c.type) ++
    encodeVarint32 c.value.length.toUInt32 ++ c.value

/-- The entry the comparator and `Get` read from the bytes of the arena: the internal key by
`GetLengthPrefixedSlice`, its user key (`ExtractUserKey`) and the tag in its last eight bytes
(`DecodeFixed64`), then the value by `GetLengthPrefixedSlice` past the internal key. `none`
where the internal key is shorter than its tag (the `assert` of `ExtractUserKey`) or a slice
runs past the bytes written. -/
def decodeEntry (bytes : List UInt8) : Option ArenaEntry :=
  match getLengthPrefixedSlice bytes with
  | some (ikey, rest) =>
    if 8 ≤ ikey.length then
      match getLengthPrefixedSlice rest with
      | some (value, _) =>
        some ⟨ikey.take (ikey.length - 8), decodeFixed64 (ikey.drop (ikey.length - 8)), value⟩
      | none => none
    else none
  | none => none

/-- `MemTable::Add(s, type, key, value)`: write the entry to the arena and insert it into the
skip list, which reads it through its bytes. -/
def add (table : Table) (c : AddCall) : Option Table :=
  (decodeEntry c.encode).bind (insert internalKey keyExtractor table)

/-- A run of `Add` calls. -/
def addAll (table : Table) : List AddCall → Option Table
  | [] => some table
  | c :: calls => (add table c).bind fun table ↦ addAll table calls

/-- `LookupKey(user_key, s).memtable_key()`, as an entry with no value; `none` where the `assert`
of `PackSequenceAndType` fails. -/
def memtableKey (userKey : List UInt8) (s : UInt64) : Option ArenaEntry :=
  if s.toNat ≤ kMaxSequenceNumber then
    some ⟨userKey, packSequenceAndType s kValueTypeForSeek, []⟩
  else none

/-- What `MemTable::Get` reports. -/
inductive GetResult
  /-- It returns true with the value. -/
  | found (value : List UInt8)
  /-- It returns true with the status `NotFound`. -/
  | deleted
  /-- It returns false. -/
  | absent
  deriving DecidableEq, Repr

/-- The answer of `Get` from the entry the iterator is at, if it is valid: an entry of the user
key looked for answers by the type in its tag. -/
def answer (userKey : List UInt8) : Option ArenaEntry → GetResult
  | none => .absent
  | some e =>
    if e.userKey = userKey then
      if e.tag &&& 0xff = kTypeValue.toUInt64 then .found e.value
      else if e.tag &&& 0xff = kTypeDeletion.toUInt64 then .deleted
      else .absent
    else .absent

/-- `MemTable::Get(key)`: seek to the memtable key, and answer from the entry found there. -/
def get (table : Table) (key : ArenaEntry) : Option GetResult :=
  (seek internalKey keyExtractor table key).map fun n ↦ answer key.userKey (n.map table.keyAt)

/-! ## Reads at a snapshot -/

/-- The newest `Add` of `k` at or below the snapshot `s`. -/
def newestAdd (calls : List AddCall) (k : List UInt8) (s : ℕ) : Option AddCall :=
  Snapshot.newest AddCall.key (fun c ↦ c.sequence.toNat) k s calls

/-- What a read of `k` at the snapshot `s` returns: the value of the newest `Add` of `k` at or
below `s`, `NotFound` if that is a deletion, nothing if there is none. -/
def readAt (calls : List AddCall) (k : List UInt8) (s : ℕ) : GetResult :=
  match newestAdd calls k s with
  | none => .absent
  | some c => if c.type = kTypeValue then .found c.value else .deleted

/-- What `Add` stores in the tag, for a sequence number below `2^56`. -/
theorem toNat_packSequenceAndType {seq : UInt64} (hs : seq.toNat < 2 ^ 56) (t : UInt8) :
    (packSequenceAndType seq t).toNat = seq.toNat * 256 + t.toNat := by
  rw [packSequenceAndType, UInt64.toNat_or, UInt64.toNat_shiftLeft]
  simp only [UInt64.reduceToNat, Nat.reduceMod, UInt8.toNat_toUInt64]
  rw [Nat.mod_eq_of_lt (by rw [Nat.shiftLeft_eq]; omega),
    ← Nat.shiftLeft_add_eq_or_of_lt (UInt8.toNat_lt t), Nat.shiftLeft_eq]

/-- `tag & 0xff` reads the type back. -/
theorem and_packSequenceAndType {seq : UInt64} (hs : seq.toNat < 2 ^ 56) (t : UInt8) :
    packSequenceAndType seq t &&& 0xff = t.toUInt64 := by
  apply UInt64.toNat_inj.1
  rw [UInt64.toNat_and, UInt8.toNat_toUInt64]
  refine (Nat.and_two_pow_sub_one_eq_mod _ 8).trans ?_
  rw [toNat_packSequenceAndType hs]
  have := UInt8.toNat_lt t
  omega

/-! ## The arena layout -/

/-- **What the arena reads back** of an entry whose internal key fits its `uint32_t` length:
the key and the tag as written, and of the value as many bytes as its length modulo `2^32`. -/
theorem decodeEntry_encode (c : AddCall) (hkey : c.key.length + 8 < 2 ^ 32) :
    decodeEntry c.encode =
      some ⟨c.key, packSequenceAndType c.sequence c.type,
        c.value.take (c.value.length % 2 ^ 32)⟩ := by
  set ikey := c.key ++ encodeFixed64 (packSequenceAndType c.sequence c.type) with hikey
  have hlen : ikey.length = c.key.length + 8 := by simp [hikey]
  -- the internal key is a length-prefixed slice, and so is the value after it
  have hencode : c.encode = encodeVarint32 ikey.length.toUInt32 ++
      (ikey ++ (encodeVarint32 c.value.length.toUInt32 ++ c.value)) := by
    simp [AddCall.encode, hikey]
  have hvalue : getLengthPrefixedSlice (encodeVarint32 c.value.length.toUInt32 ++ c.value) =
      some (c.value.take (c.value.length % 2 ^ 32), c.value.drop (c.value.length % 2 ^ 32)) := by
    have hmod : c.value.length % 2 ^ 32 ≤ c.value.length := Nat.mod_le _ _
    simp only [getLengthPrefixedSlice, getVarint32_encodeVarint32, Nat.toUInt32_eq,
      UInt32.toNat_ofNat', Nat.reducePow]
    rw [if_pos (by omega)]
  have htake : ikey.take (ikey.length - 8) = c.key := by
    rw [hlen, Nat.add_sub_cancel, hikey]
    exact List.take_left' rfl
  have hdrop :
      ikey.drop (ikey.length - 8) = encodeFixed64 (packSequenceAndType c.sequence c.type) := by
    rw [hlen, Nat.add_sub_cancel, hikey]
    exact List.drop_left' rfl
  rw [decodeEntry, hencode, getLengthPrefixedSlice_encode (by omega)]
  simp only [if_pos (show 8 ≤ ikey.length by omega), hvalue, htake, hdrop,
    decodeFixed64_encodeFixed64]

/-- With both lengths below `2^32`, the entry reads back as written. -/
theorem decodeEntry_encode_eq_entry (c : AddCall) (hkey : c.key.length + 8 < 2 ^ 32)
    (hvalue : c.value.length < 2 ^ 32) : decodeEntry c.encode = some c.entry := by
  rw [decodeEntry_encode c hkey, Nat.mod_eq_of_lt hvalue, List.take_length]
  rfl

section Calls

variable {calls : List AddCall}

/-- `Add`s of entries that fit their length prefixes insert the entries as written. -/
theorem addAll_eq (table : Table) (calls : List AddCall)
    (hsize : ∀ c ∈ calls, c.key.length + 8 < 2 ^ 32 ∧ c.value.length < 2 ^ 32) :
    addAll table calls = insertAll internalKey keyExtractor table (calls.map AddCall.entry) := by
  induction calls generalizing table with
  | nil => rfl
  | cons c calls ih =>
    have hc := hsize c List.mem_cons_self
    simp only [addAll, add, decodeEntry_encode_eq_entry c hc.1 hc.2, Option.bind_some,
      insertAll, List.map_cons]
    congr 1
    funext table'
    exact ih table' fun c' hc' ↦ hsize c' (List.mem_cons_of_mem c hc')

theorem AddCall.toNat_tag {c : AddCall} (hs : c.sequence.toNat < 2 ^ 56) :
    c.entry.tag.toNat = c.sequence.toNat * 256 + c.type.toNat :=
  toNat_packSequenceAndType hs c.type

variable (hseq : (calls.map AddCall.sequence).Nodup) (hlt : ∀ c ∈ calls, c.sequence.toNat < 2 ^ 56)
  (htype : ∀ c ∈ calls, c.type = kTypeValue ∨ c.type = kTypeDeletion)

include hseq hlt in
/-- Distinct sequence numbers make distinct internal keys. -/
theorem pairwise_internalKey_ne :
    (calls.map AddCall.entry).Pairwise fun a b ↦ internalKey a ≠ internalKey b := by
  rw [List.pairwise_map]
  refine (List.pairwise_map.1 hseq).imp_of_mem fun {a b} ha hb hab heq ↦ hab ?_
  -- equal internal keys have equal tags, and so equal sequence numbers
  have htag : a.entry.tag.toNat = b.entry.tag.toNat := by
    simpa [internalKey] using congrArg (fun x ↦ OrderDual.ofDual (ofLex x).2) heq
  rw [AddCall.toNat_tag (hlt a ha), AddCall.toNat_tag (hlt b hb)] at htag
  have := UInt8.toNat_lt a.type
  have := UInt8.toNat_lt b.type
  exact UInt64.toNat_inj.1 (by omega)

section Lookup

variable {k : List UInt8} {s : UInt64} (hs : s.toNat ≤ kMaxSequenceNumber)

/-- The entry `Get` seeks to: the memtable key of `LookupKey(k, s)`. -/
abbrev lookupEntry (k : List UInt8) (s : UInt64) : ArenaEntry :=
  ⟨k, packSequenceAndType s kValueTypeForSeek, []⟩

include hs hlt htype in
/-- An entry is at or after the lookup key when its user key is larger, or it is one of `k`'s
at or below the snapshot: its tag is then at most `(s << 8) | kTypeValue`. -/
theorem lookupEntry_le_iff {c : AddCall} (hc : c ∈ calls) :
    internalKey (lookupEntry k s) ≤ internalKey c.entry ↔
      k.map UInt8.toNat < c.key.map UInt8.toNat ∨ (k = c.key ∧ c.sequence.toNat ≤ s.toNat) := by
  have hst : (lookupEntry k s).tag.toNat = s.toNat * 256 + 1 :=
    toNat_packSequenceAndType (by unfold kMaxSequenceNumber at hs; omega) _
  have hct := AddCall.toNat_tag (hlt c hc)
  have hty : c.type.toNat ≤ 1 := by
    rcases htype c hc with h | h <;> rw [h] <;> decide
  rw [internalKey_le_iff, hst, hct]
  refine or_congr Iff.rfl (and_congr Iff.rfl ?_)
  omega

include hs hseq hlt htype in
/-- **The entry `Seek` finds answers the read.** When the iterator lands on the least entry at
or after the lookup key, `Get` answers what a read of `k` at the snapshot returns. -/
theorem answer_eq_readAt {o : Option ArenaEntry}
    (hleast : ∀ e, o = some e ↔ e ∈ calls.map AddCall.entry ∧
      internalKey (lookupEntry k s) ≤ internalKey e ∧
      ∀ e' ∈ calls.map AddCall.entry, internalKey (lookupEntry k s) ≤ internalKey e' →
        internalKey e ≤ internalKey e') :
    answer k o = readAt calls k s.toNat := by
  unfold readAt
  cases hnew : newestAdd calls k s.toNat with
  | none =>
    -- every `Add` of `k` is newer than the snapshot, so an entry found has another user key
    have hnewer := Snapshot.newest_eq_none_iff.1 hnew
    cases ho : o with
    | none => rfl
    | some e =>
      obtain ⟨he, hle, -⟩ := (hleast e).1 ho
      obtain ⟨c, hc, rfl⟩ := List.mem_map.1 he
      have hne : c.key ≠ k := by
        intro hk
        rcases (lookupEntry_le_iff hlt htype hs hc).1 hle with hkc | ⟨-, hcs⟩
        · rw [hk] at hkc
          exact lt_irrefl _ hkc
        · exact absurd hcs (Nat.not_le_of_lt (hnewer c hc hk))
      simp [answer, AddCall.entry, hne]
  | some c =>
    obtain ⟨hc, hk, hcs, hdom⟩ := Snapshot.newest_spec hnew
    -- the newest `Add` of `k` at or below the snapshot is the least entry after the lookup key
    have ho : o = some c.entry := by
      refine (hleast c.entry).2 ⟨List.mem_map_of_mem hc,
        (lookupEntry_le_iff hlt htype hs hc).2 (.inr ⟨hk.symm, hcs⟩), fun e' he' hle' ↦ ?_⟩
      obtain ⟨c', hc', rfl⟩ := List.mem_map.1 he'
      rcases (lookupEntry_le_iff hlt htype hs hc').1 hle' with hkc | ⟨hk', hcs'⟩
      · refine internalKey_le_iff.2 (.inl ?_)
        rw [show c.entry.userKey = k from hk]
        exact hkc
      · rcases Nat.lt_or_eq_of_le (hdom c' hc' hk'.symm hcs') with holder | heq
        · -- an older `Add` of `k` has a smaller tag
          refine internalKey_le_iff.2 (.inr ⟨hk.trans hk', ?_⟩)
          rw [AddCall.toNat_tag (hlt c' hc'), AddCall.toNat_tag (hlt c hc)]
          have := UInt8.toNat_lt c'.type
          omega
        · -- the same sequence number is the same `Add`
          rw [List.inj_on_of_nodup_map hseq hc' hc (UInt64.toNat_inj.1 heq)]
    -- the tag's low byte is the type of the `Add`
    rw [ho]
    rcases htype c hc with hty | hty
    · simp [answer, AddCall.entry, hk, and_packSequenceAndType (hlt c hc), hty]
    · simp [answer, AddCall.entry, hk, and_packSequenceAndType (hlt c hc), hty, kTypeValue,
        kTypeDeletion]

end Lookup

end Calls

/-- **The memtable returns the newest visible version.** After a run of `Add`s with distinct
sequence numbers below `2^56`, of values and deletions, with keys shorter than `2^32 - 8` bytes
and values shorter than `2^32` bytes, `Get(LookupKey(k, s))` at any snapshot
`s` returns the value of the newest `Add` of `k` at or below `s`, `NotFound` if that is a
deletion, and false if there is none; and the memtable's iterator visits every entry added, in
the order of `InternalKeyComparator`. -/
theorem addAll_get (calls : List AddCall) (hseq : (calls.map AddCall.sequence).Nodup)
    (hlt : ∀ c ∈ calls, c.sequence.toNat < 2 ^ 56)
    (htype : ∀ c ∈ calls, c.type = kTypeValue ∨ c.type = kTypeDeletion)
    (hsize : ∀ c ∈ calls, c.key.length + 8 < 2 ^ 32 ∧ c.value.length < 2 ^ 32) :
    ∃ table, addAll empty calls = some table ∧
      (∀ k s, s.toNat ≤ kMaxSequenceNumber →
        (memtableKey k s).bind (get table) = some (readAt calls k s.toNat)) ∧
      (scanForward table table.nodes.length (seekToFirst table)).Perm
        (calls.map AddCall.entry) ∧
      (scanForward table table.nodes.length (seekToFirst table)).Pairwise
        fun a b ↦ internalLt a b = true := by
  obtain ⟨table, L, hall, hwf, hperm⟩ := (wf_create internalKey keyExtractor).insertAll_eq
    keyExtractor_mono (calls.map AddCall.entry) (pairwise_internalKey_ne hseq hlt)
    fun _ hj ↦ absurd hj List.not_mem_nil
  have hset := hwf.sortedSet keyExtractor_mono (by simpa using hperm)
  refine ⟨table, by rw [addAll_eq _ _ hsize]; exact hall, fun k s hs ↦ ?_, hset.forward.1,
    hset.forward.2.imp internalLt_iff.2⟩
  -- `Get` seeks to the lookup key and lands on the least entry at or after it
  obtain ⟨n, hn, hleast⟩ := hset.least (lookupEntry k s)
  rw [memtableKey, if_pos hs, Option.bind_some, get, hn, Option.map_some]
  exact congrArg some (answer_eq_readAt hseq hlt htype hs hleast)

/-- Four `Add`s: a put and a later deletion of `[1]`, a put of `[2]`, and a put of a nine-byte key
that extends `[1]` and shares its first eight bytes with nothing else. -/
def sampleCalls : List AddCall :=
  [⟨5, kTypeValue, [1], [10]⟩, ⟨7, kTypeDeletion, [1], []⟩, ⟨6, kTypeValue, [2], [20]⟩,
    ⟨9, kTypeValue, [1, 2, 3, 4, 5, 6, 7, 8, 9], [30]⟩]

theorem addAll_get_sample :
    (sampleCalls.map AddCall.sequence).Nodup ∧ (∀ c ∈ sampleCalls, c.sequence.toNat < 2 ^ 56) ∧
      (∀ c ∈ sampleCalls, c.type = kTypeValue ∨ c.type = kTypeDeletion) ∧
      (∀ c ∈ sampleCalls, c.key.length + 8 < 2 ^ 32 ∧ c.value.length < 2 ^ 32) ∧
      ∃ table, addAll empty sampleCalls = some table ∧
        (∀ k s, s.toNat ≤ kMaxSequenceNumber →
          (memtableKey k s).bind (get table) = some (readAt sampleCalls k s.toNat)) ∧
        (scanForward table table.nodes.length (seekToFirst table)).Perm
          (sampleCalls.map AddCall.entry) ∧
        (scanForward table table.nodes.length (seekToFirst table)).Pairwise
          fun a b ↦ internalLt a b = true :=
  have hsize : ∀ c ∈ sampleCalls, c.key.length + 8 < 2 ^ 32 ∧ c.value.length < 2 ^ 32 := by
    decide
  ⟨by decide, by decide, by decide, hsize,
    addAll_get sampleCalls (by decide) (by decide) (by decide) hsize⟩

/-- At snapshot 6 the put of `[1]` is visible, at 7 its deletion, at 4 nothing. -/
example : (addAll empty sampleCalls).map (fun table ↦
      ((memtableKey [1] 6).bind (get table), (memtableKey [1] 7).bind (get table),
        (memtableKey [1] 4).bind (get table))) =
    some (some (.found [10]), some .deleted, some .absent) := by
  decide

/-- One put of `[1]` at sequence `1` whose value is `2^32` zero bytes: its length prefix wraps
to `0`. -/
def bigValueCall : AddCall :=
  ⟨1, kTypeValue, [1], List.replicate (2 ^ 32) 0⟩

/-- **A value of `2^32` bytes reads back empty.** After the one `Add`, `Get` at the snapshot `1`
returns true with the empty value, while the newest `Add` of `[1]` put `2^32` bytes. -/
theorem addAll_get_bigValue :
    (addAll empty [bigValueCall]).map (fun table ↦ (memtableKey [1] 1).bind (get table)) =
        some (some (.found [])) ∧
      readAt [bigValueCall] [1] 1 = .found (List.replicate (2 ^ 32) 0) := by
  have hdec : decodeEntry bigValueCall.encode =
      some ⟨[1], packSequenceAndType 1 kTypeValue, []⟩ := by
    rw [decodeEntry_encode bigValueCall (by decide)]
    simp only [bigValueCall, List.length_replicate, Nat.mod_self, List.take_zero]
  have hrun : addAll empty [bigValueCall] =
      insert internalKey keyExtractor empty ⟨[1], packSequenceAndType 1 kTypeValue, []⟩ := by
    rw [addAll, add, hdec, Option.bind_some]
    cases insert internalKey keyExtractor empty ⟨[1], packSequenceAndType 1 kTypeValue, []⟩ <;> rfl
  rw [hrun]
  exact ⟨by decide, rfl⟩

end PebblesDB.Db.MemTable
