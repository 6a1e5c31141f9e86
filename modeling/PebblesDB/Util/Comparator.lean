import Mathlib.Data.List.Basic
import Mathlib.Data.UInt

/-!
# Comparators on bytes

`Slice::compare` is `memcmp` over the shorter length, with the shorter slice first on a tie:
the lexicographic order of the bytes as `unsigned char`s (`sliceCompare_neg_iff`,
`sliceCompare_eq_zero_iff`). `BytewiseComparator` compares with it and shortens keys for the
index blocks of tables: `FindShortestSeparator(start, limit)` leaves a key in `[start, limit)`
when `start < limit` (`findShortestSeparator_spec`), and `FindShortSuccessor(key)` a key at or
above `key` (`le_findShortSuccessor`). Both are proved by following the keys to the first byte
where they differ.

`Comparator` holds the methods that other components call through a `user_comparator_`;
`KeyNum`, which only the memtable's extractor calls, is `PebblesDB.Db.MemTable.keyNum`.
-/

namespace PebblesDB

/-- `memcmp(a, b, n)` over the first `n` bytes: the sign of the first pair that differs, as
`unsigned char`s. -/
def memcmp : List UInt8 → List UInt8 → ℕ → ℤ
  | x :: a, y :: b, n + 1 => if x < y then -1 else if y < x then 1 else memcmp a b n
  | _, _, _ => 0

/-- `Slice::compare`: `memcmp` over the shorter length, then the shorter slice first. -/
def sliceCompare (a b : List UInt8) : ℤ :=
  let minLen := if a.length < b.length then a.length else b.length
  let r := memcmp a b minLen
  if r = 0 then
    if a.length < b.length then -1 else if a.length > b.length then 1 else r
  else r

@[simp] theorem sliceCompare_nil_nil : sliceCompare [] [] = 0 := rfl

@[simp] theorem sliceCompare_nil_cons (y : UInt8) (b : List UInt8) :
    sliceCompare [] (y :: b) = -1 := by
  simp [sliceCompare, memcmp]

@[simp] theorem sliceCompare_cons_nil (x : UInt8) (a : List UInt8) :
    sliceCompare (x :: a) [] = 1 := by
  simp [sliceCompare, memcmp]

/-- Past a first byte that decides nothing, the comparison is that of the rest. -/
theorem sliceCompare_cons_cons (x y : UInt8) (a b : List UInt8) :
    sliceCompare (x :: a) (y :: b) =
      if x < y then -1 else if y < x then 1 else sliceCompare a b := by
  have hmin : (if a.length + 1 < b.length + 1 then a.length + 1 else b.length + 1) =
      (if a.length < b.length then a.length else b.length) + 1 := by
    split_ifs <;> omega
  simp only [sliceCompare, List.length_cons, hmin, memcmp]
  split_ifs <;> first | rfl | omega

/-- **`Slice::compare` is negative exactly on the lexicographic order of the bytes.** -/
theorem sliceCompare_neg_iff {a b : List UInt8} : sliceCompare a b < 0 ↔ a < b := by
  induction a generalizing b with
  | nil =>
    cases b with
    | nil => simp
    | cons y b => simp
  | cons x a ih =>
    cases b with
    | nil => simp
    | cons y b =>
      rw [sliceCompare_cons_cons, List.cons_lt_cons_iff]
      -- the first bytes decide, unless they are equal
      by_cases hxy : x = y
      · subst hxy
        simp [ih]
      · rcases UInt8.lt_or_lt_of_ne hxy with hlt | hgt
        · simp [hlt]
        · simp [hgt, UInt8.lt_asymm hgt, hxy]

theorem sliceCompare_eq_zero_iff {a b : List UInt8} : sliceCompare a b = 0 ↔ a = b := by
  induction a generalizing b with
  | nil =>
    cases b with
    | nil => simp
    | cons y b => simp
  | cons x a ih =>
    cases b with
    | nil => simp
    | cons y b =>
      rw [sliceCompare_cons_cons]
      by_cases hxy : x = y
      · subst hxy
        simp [ih]
      · rcases UInt8.lt_or_lt_of_ne hxy with hlt | hgt
        · simp [hlt, hxy]
        · simp [hgt, UInt8.lt_asymm hgt, hxy]

/-- Swapping the slices negates the comparison. -/
theorem sliceCompare_swap (a b : List UInt8) : sliceCompare b a = -sliceCompare a b := by
  induction a generalizing b with
  | nil =>
    cases b with
    | nil => rfl
    | cons y b => simp
  | cons x a ih =>
    cases b with
    | nil => simp
    | cons y b =>
      rw [sliceCompare_cons_cons, sliceCompare_cons_cons, ih]
      by_cases hxy : x = y
      · subst hxy
        simp
      · rcases UInt8.lt_or_lt_of_ne hxy with hlt | hgt
        · simp [hlt, UInt8.lt_asymm hlt]
        · simp [hgt, UInt8.lt_asymm hgt]

theorem sliceCompare_pos_iff {a b : List UInt8} : 0 < sliceCompare a b ↔ b < a := by
  rw [← sliceCompare_neg_iff, sliceCompare_swap]
  omega

theorem sliceCompare_nonpos_iff {a b : List UInt8} : sliceCompare a b ≤ 0 ↔ a ≤ b := by
  rw [← List.not_lt, ← sliceCompare_pos_iff]
  omega

@[simp] theorem sliceCompare_self (a : List UInt8) : sliceCompare a a = 0 :=
  sliceCompare_eq_zero_iff.2 rfl

/-! ## `BytewiseComparator` -/

/-- The methods of a comparator that other components call through a `user_comparator_`. -/
structure Comparator where
  /-- `Compare`: negative, zero or positive. -/
  compare : List UInt8 → List UInt8 → ℤ
  /-- `FindShortestSeparator(start, limit)`: what it leaves in `*start`. -/
  findShortestSeparator : List UInt8 → List UInt8 → List UInt8
  /-- `FindShortSuccessor(key)`: what it leaves in `*key`. -/
  findShortSuccessor : List UInt8 → List UInt8

namespace BytewiseComparator

/-- The `while` loop of `FindShortestSeparator`: the length of the common prefix of `start` and
`limit`, which is at most the shorter length. -/
def diffIndex : List UInt8 → List UInt8 → ℕ
  | x :: start, y :: limit => if x = y then diffIndex start limit + 1 else 0
  | _, _ => 0

/-- `FindShortestSeparator`: where the keys first differ, `start`'s byte goes up by one and
`start` ends there, when that byte is below `0xff` and one more is still below `limit`'s. -/
def findShortestSeparator (start limit : List UInt8) : List UInt8 :=
  let minLength := min start.length limit.length
  let diffIndex := diffIndex start limit
  if diffIndex ≥ minLength then
    -- one string is a prefix of the other
    start
  else
    let diffByte := start.getD diffIndex 0
    if diffByte < 0xff ∧ diffByte.toNat + 1 < (limit.getD diffIndex 0).toNat then
      (start.set diffIndex (diffByte + 1)).take (diffIndex + 1)
    else start

/-- `FindShortSuccessor`: the first byte that is not `0xff` goes up by one and the key ends
there; a run of `0xff`s stays as it is. -/
def findShortSuccessor : List UInt8 → List UInt8
  | [] => []
  | byte :: key => if byte ≠ 0xff then [byte + 1] else byte :: findShortSuccessor key

@[simp] theorem findShortestSeparator_nil_left (limit : List UInt8) :
    findShortestSeparator [] limit = [] := by
  simp [findShortestSeparator]

@[simp] theorem findShortestSeparator_nil_right (start : List UInt8) :
    findShortestSeparator start [] = start := by
  simp [findShortestSeparator]

/-- A common first byte stays in front. -/
theorem findShortestSeparator_cons_self (x : UInt8) (start limit : List UInt8) :
    findShortestSeparator (x :: start) (x :: limit) = x :: findShortestSeparator start limit := by
  simp only [findShortestSeparator, diffIndex, if_pos, List.length_cons, Nat.add_min_add_right,
    Nat.add_le_add_iff_right, List.getD_cons_succ, List.set_cons_succ, List.take_succ_cons]
  split_ifs <;> rfl

/-- Where the keys first differ. -/
theorem findShortestSeparator_cons_of_ne {x y : UInt8} (hxy : x ≠ y) (start limit : List UInt8) :
    findShortestSeparator (x :: start) (y :: limit) =
      if x < 0xff ∧ x.toNat + 1 < y.toNat then [x + 1] else x :: start := by
  simp [findShortestSeparator, diffIndex, hxy]

/-- A byte below `0xff` goes up by one without wrapping. -/
theorem toNat_add_one {x : UInt8} (hx : x < 0xff) : (x + 1).toNat = x.toNat + 1 := by
  have hlt : x.toNat < 255 := UInt8.lt_iff_toNat_lt.1 hx
  rw [UInt8.toNat_add, UInt8.toNat_one]
  omega

/-- **`FindShortestSeparator` leaves a key in `[start, limit)`.** -/
theorem findShortestSeparator_spec {start limit : List UInt8} (h : start < limit) :
    start ≤ findShortestSeparator start limit ∧ findShortestSeparator start limit < limit := by
  induction start generalizing limit with
  | nil =>
    rw [findShortestSeparator_nil_left]
    exact ⟨List.le_refl [], h⟩
  | cons x start ih =>
    cases limit with
    | nil => exact absurd h (List.not_lt_nil _)
    | cons y limit =>
      by_cases hxy : x = y
      · -- a common byte: the rest decides
        subst hxy
        obtain ⟨hle, hlt⟩ := ih (List.cons_lt_cons_self.1 h)
        rw [findShortestSeparator_cons_self]
        exact ⟨List.cons_le_cons_iff.2 (.inr ⟨rfl, hle⟩),
          List.cons_lt_cons_iff.2 (.inr ⟨rfl, hlt⟩)⟩
      · -- the first difference, where `start` is below `limit`
        have hlt : x < y := by
          rcases List.cons_lt_cons_iff.1 h with hlt | ⟨heq, -⟩
          · exact hlt
          · exact absurd heq hxy
        rw [findShortestSeparator_cons_of_ne hxy]
        split
        · rename_i hinc
          have hsucc := toNat_add_one hinc.1
          have hx : x < x + 1 := UInt8.lt_iff_toNat_lt.2 (by omega)
          have hy : x + 1 < y := UInt8.lt_iff_toNat_lt.2 (by omega)
          exact ⟨List.le_of_lt (List.cons_lt_cons_iff.2 (.inl hx)),
            List.cons_lt_cons_iff.2 (.inl hy)⟩
        · exact ⟨List.le_refl _, h⟩

/-- **`FindShortSuccessor` leaves a key at or above `key`.** -/
theorem le_findShortSuccessor (key : List UInt8) : key ≤ findShortSuccessor key := by
  induction key with
  | nil => exact List.le_refl []
  | cons byte key ih =>
    rw [findShortSuccessor]
    split
    · -- the first byte that can go up
      rename_i hne
      have hlt : byte < 0xff := by
        have hle : byte.toNat ≤ 255 := Nat.le_of_lt_succ byte.toNat_lt
        have hne' : byte.toNat ≠ 255 := fun h ↦ hne (UInt8.toNat_inj.1 h)
        exact UInt8.lt_iff_toNat_lt.2 (by simp only [UInt8.reduceToNat]; omega)
      have hsucc := toNat_add_one hlt
      exact List.le_of_lt
        (List.cons_lt_cons_iff.2 (.inl (UInt8.lt_iff_toNat_lt.2 (by omega))))
    · exact List.cons_le_cons_iff.2 (.inr ⟨rfl, ih⟩)

end BytewiseComparator

/-- `BytewiseComparator()`. -/
def bytewiseComparator : Comparator :=
  ⟨sliceCompare, BytewiseComparator.findShortestSeparator, BytewiseComparator.findShortSuccessor⟩

@[simp] theorem bytewiseComparator_compare : bytewiseComparator.compare = sliceCompare := rfl

@[simp] theorem bytewiseComparator_findShortestSeparator :
    bytewiseComparator.findShortestSeparator = BytewiseComparator.findShortestSeparator := rfl

@[simp] theorem bytewiseComparator_findShortSuccessor :
    bytewiseComparator.findShortSuccessor = BytewiseComparator.findShortSuccessor := rfl

end PebblesDB
