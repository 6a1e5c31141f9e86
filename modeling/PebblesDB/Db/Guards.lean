import Mathlib.Data.List.TakeWhile
import Mathlib.Order.Bounds.Defs
import PebblesDB.Db.VersionBuilder

/-!
# Routing a key to its guard

A level of PebblesDB is cut by its guard keys into intervals: the sentinel below the first
guard, and for each guard the keys from it up to the next one. Two paths decide where a key
belongs. The read path (`Version::Get` and `LevelGuardNumIterator::Seek`) runs `FindGuard`, a
binary search over the guards' *user keys*, and sends a key below the first guard to the
sentinel. The placement path (`PopulateFilesToGuardsAndSentinels`, in
`PebblesDB.Db.VersionBuilder`) compares each file's largest *internal* key with the guards'
internal keys.

On strictly increasing guards the binary search is right: `FindGuard` returns the number of
guards at or below the key, minus one (`findGuard_eq`), so both read paths select the interval
that holds the key (`getGuard_eq`, `seekGuard_eq`). The placement disagrees with them when a
file's largest user key is a guard key written at a smaller sequence number than the file's
entry: internally the file's key then sorts *before* the guard, and the file goes to the
interval below, where no read of that key looks (`tieFile_misplaced`). A guard key gets the
sequence number of the write that made it a guard, so every later write of that key, flushed
alone or as the last key of its table, is placed so.
-/

namespace PebblesDB.Db.Guards

open VersionBuilder

/-! ## `FindGuard` -/

/-- The user key of guard `i`; the search never reads past the last guard. -/
def guardKey (guards : List InternalKey) (i : ℕ) : List UInt8 :=
  ((guards[i]?).map (·.userKey)).getD []

/-- The `while (left < right)` loop of `FindGuard`, run on fuel: `none` where the fuel runs out
before the loop returns. -/
def findGuardLoop (guards : List InternalKey) (key : List UInt8) : ℕ → ℕ → ℕ → Option ℕ
  | 0, _, _ => none
  | fuel + 1, left, right =>
    if left < right then
      -- the end case, handled apart "to avoid infinite loop"
      if left + 1 = right then
        some (if ¬ key < guardKey guards right then right else left)
      else
        let mid := (left + right) / 2
        if key < guardKey guards mid then findGuardLoop guards key fuel left (mid - 1)
        else findGuardLoop guards key fuel mid right
    else some right

/-- `FindGuard(icmp, guards, key)`, with `key` the user key of the lookup. The loop narrows
`[left, right]` by at least one each round, so it returns within `guards.size()` rounds
(`findGuardLoop_isSome`), and the `0` for running out of them is never taken. -/
def findGuard (guards : List InternalKey) (key : List UInt8) : ℕ :=
  if guards.length = 0 then 0
  else (findGuardLoop guards key guards.length 0 (guards.length - 1)).getD 0

/-- The number of guards at or below `key`. -/
def guardCount (guards : List InternalKey) (key : List UInt8) : ℕ :=
  (guards.takeWhile fun g ↦ !decide (key < g.userKey)).length

/-- Guards with strictly increasing user keys, as `SaveTo` keeps them. -/
def Sorted (guards : List InternalKey) : Prop :=
  guards.Pairwise fun a b ↦ a.userKey < b.userKey

instance (guards : List InternalKey) : Decidable (Sorted guards) :=
  inferInstanceAs (Decidable (guards.Pairwise fun a b ↦ a.userKey < b.userKey))

@[simp] theorem guardKey_cons_zero (g : InternalKey) (guards : List InternalKey) :
    guardKey (g :: guards) 0 = g.userKey := rfl

@[simp] theorem guardKey_cons_succ (g : InternalKey) (guards : List InternalKey) (i : ℕ) :
    guardKey (g :: guards) (i + 1) = guardKey guards i := rfl

theorem guardKey_eq_getElem {guards : List InternalKey} {i : ℕ} (h : i < guards.length) :
    guardKey guards i = guards[i].userKey := by
  simp [guardKey, List.getElem?_eq_getElem h]

/-- **The loop of `FindGuard` terminates**, whatever the guards: each round either returns or
narrows `[left, right]`, so fuel above `right - left` is never used up. -/
theorem findGuardLoop_isSome (guards : List InternalKey) (key : List UInt8) :
    ∀ fuel left right, right - left < fuel → (findGuardLoop guards key fuel left right).isSome
  | 0, _, _, hfuel => absurd hfuel (Nat.not_lt_zero _)
  | fuel + 1, left, right, hfuel => by
    rw [findGuardLoop]
    split
    · next hlt =>
      split
      · rfl
      · next hend =>
        dsimp only
        -- `mid` lies strictly inside `[left, right]`
        have hmid : left < (left + right) / 2 ∧ (left + right) / 2 < right := by omega
        split
        · exact findGuardLoop_isSome guards key fuel left _ (by omega)
        · exact findGuardLoop_isSome guards key fuel _ right (by omega)
    · rfl

theorem guardCount_le_length (guards : List InternalKey) (key : List UInt8) :
    guardCount guards key ≤ guards.length :=
  (List.takeWhile_sublist _).length_le

/-- On sorted guards, the guards at or below `key` are the first `guardCount` ones. -/
theorem lt_guardCount_iff {guards : List InternalKey} (hsorted : Sorted guards)
    {key : List UInt8} {i : ℕ} (hi : i < guards.length) :
    i < guardCount guards key ↔ ¬ key < guardKey guards i := by
  induction guards generalizing i with
  | nil => exact absurd hi (Nat.not_lt_zero _)
  | cons g guards ih =>
    rw [Sorted, List.pairwise_cons] at hsorted
    unfold guardCount
    by_cases hg : key < g.userKey
    · -- the first guard is above `key`, and so is every later one
      rw [List.takeWhile_cons_of_neg (by simp [hg]), List.length_nil]
      refine ⟨fun h ↦ absurd h (Nat.not_lt_zero _), fun hle ↦ absurd ?_ hle⟩
      cases i with
      | zero => exact hg
      | succ i =>
        have hlen : i < guards.length := by simpa using hi
        have hmem : guards[i] ∈ guards := List.getElem_mem hlen
        rw [guardKey_cons_succ, guardKey_eq_getElem hlen]
        exact List.lt_trans hg (hsorted.1 _ hmem)
    · rw [List.takeWhile_cons_of_pos (by simp [hg]), List.length_cons]
      cases i with
      | zero => simp [hg]
      | succ i =>
        rw [guardKey_cons_succ, ← ih hsorted.2 (by simpa using hi)]
        unfold guardCount
        omega

/-- The loop invariant: the answer `guardCount - 1` lies in `[left, right]`. -/
theorem findGuardLoop_eq {guards : List InternalKey} (hsorted : Sorted guards)
    (key : List UInt8) :
    ∀ fuel left right, left ≤ right → right < guards.length →
      left ≤ guardCount guards key - 1 → guardCount guards key - 1 ≤ right →
      right - left < fuel →
        findGuardLoop guards key fuel left right = some (guardCount guards key - 1) := by
  intro fuel
  induction fuel with
  | zero => intro _ _ _ _ _ _ hfuel; omega
  | succ fuel ih =>
    intro left right hle hright hlo hhi hfuel
    have hcount := guardCount_le_length guards key
    rw [findGuardLoop]
    split
    · next hlt =>
      split
      · next hend =>
        -- two candidates: `right` exactly when its guard is at or below `key`
        have hiff := @lt_guardCount_iff guards hsorted key right hright
        rw [Option.some_inj]
        split
        · next hge => have := hiff.2 hge; omega
        · next hgt => have := mt hiff.1 hgt; omega
      · next hend =>
        dsimp only
        have hmid : left < (left + right) / 2 ∧ (left + right) / 2 < right := by omega
        have hiff := @lt_guardCount_iff guards hsorted key ((left + right) / 2) (by omega)
        split
        · next hbelow =>
          have : ¬ (left + right) / 2 < guardCount guards key := fun h ↦ hiff.1 h hbelow
          exact ih _ _ (by omega) (by omega) hlo (by omega) (by omega)
        · next habove =>
          have := hiff.2 habove
          exact ih _ _ (by omega) hright (by omega) hhi (by omega)
    · next hge =>
      rw [Option.some_inj]
      omega

/-- **`FindGuard` is right on sorted guards**: it returns the last guard at or below `key`, and
`0` when there is none. -/
theorem findGuard_eq {guards : List InternalKey} (hsorted : Sorted guards) (key : List UInt8) :
    findGuard guards key = guardCount guards key - 1 := by
  unfold findGuard
  split
  · next h0 =>
    have := guardCount_le_length guards key
    omega
  · next h0 =>
    have := guardCount_le_length guards key
    rw [findGuardLoop_eq hsorted key _ 0 _ (Nat.zero_le _) (by omega) (Nat.zero_le _)
      (by omega) (by omega)]
    rfl

/-- Two guards, `[1]` and `[3]`. -/
def twoGuards : List InternalKey :=
  [⟨[1], 4, 2⟩, ⟨[3], 5, 2⟩]

example : findGuard twoGuards [2] = 0 ∧ findGuard twoGuards [3] = 1 ∧
    findGuard twoGuards [0] = 0 := by
  decide

/-! ## The read path's choice -/

/-- The files `Version::Get` searches at a level with `guards`: `none` for the sentinel files
(no guards, or `FindGuard` returned `0` and the first guard is above the key), else the guard
`FindGuard` returned. -/
def getGuard (guards : List InternalKey) (userKey : List UInt8) : Option ℕ :=
  if guards.length = 0 then none
  else
    let guardIndex := findGuard guards userKey
    if guardIndex = 0 ∧ userKey < guardKey guards 0 then none else some guardIndex

/-- `index_` after `LevelGuardNumIterator::Seek`, before `Bump`: `none` for `-1`, the
sentinel. -/
def seekGuard (guards : List InternalKey) (userKey : List UInt8) : Option ℕ :=
  if guards.length = 0 then none
  else if findGuard guards userKey = 0 then
    if userKey < guardKey guards 0 then none else some 0
  else some (findGuard guards userKey)

/-- The interval that holds `key`: `none` for the sentinel, `some i` for guard `i`. -/
def interval (guards : List InternalKey) (key : List UInt8) : Option ℕ :=
  if guardCount guards key = 0 then none else some (guardCount guards key - 1)

theorem guardCount_eq_zero_iff {guards : List InternalKey} (hsorted : Sorted guards)
    (key : List UInt8) :
    guardCount guards key = 0 ↔ guards.length = 0 ∨ key < guardKey guards 0 := by
  cases guards with
  | nil => simp [guardCount]
  | cons g guards =>
    have hiff := @lt_guardCount_iff (g :: guards) hsorted key 0 (by simp)
    simp only [List.length_cons, Nat.add_one_ne_zero, false_or, guardKey_cons_zero] at hiff ⊢
    constructor
    · intro h
      by_contra hn
      have := hiff.2 hn
      omega
    · intro h
      by_contra hn
      exact hiff.1 (Nat.pos_of_ne_zero hn) h

/-- **`Version::Get` searches the interval of the key.** -/
theorem getGuard_eq {guards : List InternalKey} (hsorted : Sorted guards) (key : List UInt8) :
    getGuard guards key = interval guards key := by
  have hzero := guardCount_eq_zero_iff hsorted key
  unfold getGuard interval
  rw [findGuard_eq hsorted]
  by_cases hlen : guards.length = 0
  · rw [if_pos hlen, if_pos (hzero.2 (.inl hlen))]
  · rw [if_neg hlen]
    by_cases hc : guardCount guards key = 0
    · rw [if_pos hc, if_pos ⟨by omega, (hzero.1 hc).resolve_left hlen⟩]
    · rw [if_neg hc, if_neg (fun h ↦ hc (hzero.2 (.inr h.2)))]

/-- **`LevelGuardNumIterator::Seek` starts at the interval of the key.** -/
theorem seekGuard_eq {guards : List InternalKey} (hsorted : Sorted guards) (key : List UInt8) :
    seekGuard guards key = interval guards key := by
  have hzero := guardCount_eq_zero_iff hsorted key
  unfold seekGuard interval
  rw [findGuard_eq hsorted]
  by_cases hlen : guards.length = 0
  · rw [if_pos hlen, if_pos (hzero.2 (.inl hlen))]
  · rw [if_neg hlen]
    by_cases hc : guardCount guards key = 0
    · rw [if_pos (by omega), if_pos ((hzero.1 hc).resolve_left hlen), if_pos hc]
    · by_cases h1 : guardCount guards key - 1 = 0
      · rw [if_pos h1, if_neg (fun h ↦ hc (hzero.2 (.inr h))), if_neg hc, h1]
      · rw [if_neg h1, if_neg hc]

/-! ## Where placement and routing part -/

/-- One guard of user key `[2]`, made a guard by a write at sequence 6. -/
def tieGuards : List InternalKey :=
  [⟨[2], 6, 1⟩]

/-- A table holding only `[2]`, written again at sequence 7. -/
def tieFile : FileMeta :=
  ⟨12, ⟨[2], 7, 1⟩, ⟨[2], 7, 1⟩⟩

/-- `PopulateFilesToGuardsAndSentinels` puts the file into the sentinel, but `Version::Get` and
`LevelGuardNumIterator::Seek` look for its key `[2]` in guard `0`. -/
theorem tieFile_misplaced :
    populateFilesToGuardsAndSentinels [tieFile] tieGuards = ([tieFile], [[]]) ∧
      getGuard tieGuards [2] = some 0 ∧ seekGuard tieGuards [2] = some 0 := by
  decide

end PebblesDB.Db.Guards
