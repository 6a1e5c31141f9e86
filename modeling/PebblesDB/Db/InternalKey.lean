import PebblesDB.Util.Comparator
import PebblesDB.Db.MemTable

/-!
# The internal key comparator

`InternalKeyComparator` orders internal keys, a user key followed by the eight-byte tag
`(sequence << 8) | type`, by the user comparator on the user keys and then by the tags, the
larger first. Over `BytewiseComparator` its separators keep the guarantees of the bytewise
ones: a user key that the bytewise method shortened to a larger one gets the tag of
`kMaxSequenceNumber` and `kValueTypeForSeek`, and otherwise the key stays, so the result lies
in `[start, limit)`, or at or above the key (`separators_sound`). The source checks the same
two facts with `assert`s, which therefore never fire.

The memtable hints the skip list with `KeyNum` of the user key, the first eight bytes as a
big-endian number; it is monotone in the bytewise order and so in the internal key order
(`keyNum_monotone`).
-/

namespace PebblesDB.Db.InternalKey

open FileFilter CompactionWork MemTable

section Defs

variable (ucmp : Comparator)

/-- `InternalKeyComparator::Compare`: the user keys by the user comparator, then the tags that
`DecodeFixed64` reads from the last eight bytes, the larger first. -/
def compare (akey bkey : List UInt8) : ℤ :=
  let r := ucmp.compare (extractUserKey akey) (extractUserKey bkey)
  if r = 0 then
    let anum := decodeFixed64 (akey.drop (akey.length - 8))
    let bnum := decodeFixed64 (bkey.drop (bkey.length - 8))
    if anum > bnum then -1 else if anum < bnum then 1 else r
  else r

/-- `InternalKeyComparator::FindShortestSeparator`: the user comparator shortens the user key of
`start` against that of `limit`; a user key that got shorter and larger is tagged to sort first
among the entries of its user key, and otherwise `start` stays. -/
def findShortestSeparator (start limit : List UInt8) : List UInt8 :=
  let userStart := extractUserKey start
  let userLimit := extractUserKey limit
  let tmp := ucmp.findShortestSeparator userStart userLimit
  if tmp.length < userStart.length ∧ ucmp.compare userStart tmp < 0 then
    tmp ++ encodeFixed64 (packSequenceAndType kMaxSequenceNumber.toUInt64 kValueTypeForSeek)
  else start

/-- `InternalKeyComparator::FindShortSuccessor`, the same with the user comparator's
`FindShortSuccessor`. -/
def findShortSuccessor (key : List UInt8) : List UInt8 :=
  let userKey := extractUserKey key
  let tmp := ucmp.findShortSuccessor userKey
  if tmp.length < userKey.length ∧ ucmp.compare userKey tmp < 0 then
    tmp ++ encodeFixed64 (packSequenceAndType kMaxSequenceNumber.toUInt64 kValueTypeForSeek)
  else key

end Defs

/-- Eight bytes after a user key are its tag. -/
@[simp] theorem extractUserKey_append_encodeFixed64 (userKey : List UInt8) (tag : UInt64) :
    extractUserKey (userKey ++ encodeFixed64 tag) = userKey := by
  simp [extractUserKey]

/-! ## Over `BytewiseComparator` -/

section Bytewise

variable {a b : List UInt8}

@[simp] theorem compare_self (a : List UInt8) : compare bytewiseComparator a a = 0 := by
  simp [compare, bytewiseComparator]

/-- User keys that differ decide, whatever the tags. -/
theorem compare_of_ne (h : sliceCompare (extractUserKey a) (extractUserKey b) ≠ 0) :
    compare bytewiseComparator a b = sliceCompare (extractUserKey a) (extractUserKey b) := by
  unfold compare
  exact if_neg h

/-- User keys in order put the internal keys in order. -/
theorem compare_neg_of_user (h : sliceCompare (extractUserKey a) (extractUserKey b) < 0) :
    compare bytewiseComparator a b < 0 := by
  rw [compare_of_ne (by omega)]
  exact h

/-- Internal keys in order have their user keys in order, or equal. -/
theorem user_le_of_compare_neg (h : compare bytewiseComparator a b < 0) :
    extractUserKey a ≤ extractUserKey b := by
  rw [← sliceCompare_nonpos_iff]
  by_contra hpos
  rw [compare_of_ne (by omega)] at h
  omega

theorem findShortestSeparator_bytewise_self (key : List UInt8) :
    BytewiseComparator.findShortestSeparator key key = key := by
  induction key with
  | nil => rfl
  | cons x key ih => rw [BytewiseComparator.findShortestSeparator_cons_self, ih]

/-- **`FindShortestSeparator` leaves a key in `[a, b)`.** -/
theorem findShortestSeparator_spec (h : compare bytewiseComparator a b < 0) :
    compare bytewiseComparator a (findShortestSeparator bytewiseComparator a b) ≤ 0 ∧
      compare bytewiseComparator (findShortestSeparator bytewiseComparator a b) b < 0 := by
  have huser := user_le_of_compare_neg h
  set tmp := BytewiseComparator.findShortestSeparator (extractUserKey a) (extractUserKey b)
    with htmp
  by_cases hshort : tmp.length < (extractUserKey a).length ∧ sliceCompare (extractUserKey a) tmp < 0
  · -- a shorter and larger user key, with the tag that sorts first
    have hs : findShortestSeparator bytewiseComparator a b =
        tmp ++ encodeFixed64 (packSequenceAndType kMaxSequenceNumber.toUInt64 kValueTypeForSeek) :=
      if_pos hshort
    rw [hs]
    rcases List.le_iff_lt_or_eq.1 huser with hlt | heq
    · have hsep := BytewiseComparator.findShortestSeparator_spec hlt
      refine ⟨le_of_lt (compare_neg_of_user ?_), compare_neg_of_user ?_⟩
      · rw [extractUserKey_append_encodeFixed64]
        exact hshort.2
      · rw [extractUserKey_append_encodeFixed64, sliceCompare_neg_iff]
        exact hsep.2
    · -- equal user keys are not shortened
      rw [htmp, heq, findShortestSeparator_bytewise_self] at hshort
      omega
  · have hs : findShortestSeparator bytewiseComparator a b = a := if_neg hshort
    rw [hs, compare_self]
    exact ⟨le_refl 0, h⟩

/-- **`FindShortSuccessor` leaves a key at or above `a`.** -/
theorem le_findShortSuccessor (a : List UInt8) :
    compare bytewiseComparator a (findShortSuccessor bytewiseComparator a) ≤ 0 := by
  set tmp := BytewiseComparator.findShortSuccessor (extractUserKey a)
  by_cases hshort : tmp.length < (extractUserKey a).length ∧ sliceCompare (extractUserKey a) tmp < 0
  · have hs : findShortSuccessor bytewiseComparator a =
        tmp ++ encodeFixed64 (packSequenceAndType kMaxSequenceNumber.toUInt64 kValueTypeForSeek) :=
      if_pos hshort
    rw [hs]
    refine le_of_lt (compare_neg_of_user ?_)
    rw [extractUserKey_append_encodeFixed64]
    exact hshort.2
  · have hs : findShortSuccessor bytewiseComparator a = a := if_neg hshort
    rw [hs, compare_self]

/-- **Index separators are sound.** The bytewise `FindShortestSeparator` leaves a key in
`[start, limit)` and `FindShortSuccessor` one at or above the key; so do the internal key
comparator's, over internal keys ordered by `InternalKeyComparator::Compare`. -/
theorem separators_sound :
    (∀ start limit : List UInt8, sliceCompare start limit < 0 →
      sliceCompare start (BytewiseComparator.findShortestSeparator start limit) ≤ 0 ∧
        sliceCompare (BytewiseComparator.findShortestSeparator start limit) limit < 0) ∧
    (∀ key : List UInt8, sliceCompare key (BytewiseComparator.findShortSuccessor key) ≤ 0) ∧
    (∀ a b : List UInt8, compare bytewiseComparator a b < 0 →
      compare bytewiseComparator a (findShortestSeparator bytewiseComparator a b) ≤ 0 ∧
        compare bytewiseComparator (findShortestSeparator bytewiseComparator a b) b < 0) ∧
    (∀ a : List UInt8,
      compare bytewiseComparator a (findShortSuccessor bytewiseComparator a) ≤ 0) := by
  refine ⟨fun start limit h ↦ ?_, fun key ↦ ?_, fun a b h ↦ findShortestSeparator_spec h,
    le_findShortSuccessor⟩
  · obtain ⟨hle, hlt⟩ := BytewiseComparator.findShortestSeparator_spec (sliceCompare_neg_iff.1 h)
    exact ⟨sliceCompare_nonpos_iff.2 hle, sliceCompare_neg_iff.2 hlt⟩
  · exact sliceCompare_nonpos_iff.2 (BytewiseComparator.le_findShortSuccessor key)

/-- The user key `[1, 2, 3, 7, 7]` against `[1, 2, 9]` shortens to `[1, 2, 4]`. -/
theorem separators_sound_shortened :
    compare bytewiseComparator ([1, 2, 3, 7, 7] ++ encodeFixed64 (packSequenceAndType 5 1))
        (findShortestSeparator bytewiseComparator
          ([1, 2, 3, 7, 7] ++ encodeFixed64 (packSequenceAndType 5 1))
          ([1, 2, 9] ++ encodeFixed64 (packSequenceAndType 7 1))) ≤ 0 ∧
      compare bytewiseComparator
        (findShortestSeparator bytewiseComparator
          ([1, 2, 3, 7, 7] ++ encodeFixed64 (packSequenceAndType 5 1))
          ([1, 2, 9] ++ encodeFixed64 (packSequenceAndType 7 1)))
        ([1, 2, 9] ++ encodeFixed64 (packSequenceAndType 7 1)) < 0 :=
  separators_sound.2.2.1 _ _ (by decide)

/-! ## `KeyNum` -/

/-- `KeyNum` of keys in order. -/
theorem keyNum_le_of_le {a b : List UInt8} (h : a ≤ b) : keyNum a ≤ keyNum b := by
  rcases List.le_iff_lt_or_eq.1 h with hlt | rfl
  · exact keyNum_mono (le_of_lt (lt_iff_map_toNat_lt.1 hlt))
  · exact keyNum_mono (le_refl _)

/-- **Key-number hints are monotone**: in the bytewise order, and through the memtable's
`KeyExtractor` in the internal key order of the entries' internal keys. -/
theorem keyNum_monotone :
    (∀ a b : List UInt8, sliceCompare a b < 0 → keyNum a ≤ keyNum b) ∧
    (∀ x y : ArenaEntry,
      compare bytewiseComparator (x.userKey ++ encodeFixed64 x.tag)
        (y.userKey ++ encodeFixed64 y.tag) < 0 → keyExtractor x ≤ keyExtractor y) := by
  refine ⟨fun a b h ↦ keyNum_le_of_le (List.le_of_lt (sliceCompare_neg_iff.1 h)), fun x y h ↦ ?_⟩
  -- the user keys are in order or equal
  have huser := user_le_of_compare_neg h
  rw [extractUserKey_append_encodeFixed64, extractUserKey_append_encodeFixed64] at huser
  exact keyNum_le_of_le huser

theorem keyNum_monotone_prefix : keyNum [1, 2] ≤ keyNum [1, 2, 0] :=
  keyNum_monotone.1 [1, 2] [1, 2, 0] (by decide)

end Bytewise

end PebblesDB.Db.InternalKey
