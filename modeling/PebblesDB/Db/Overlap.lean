import PebblesDB.Db.VersionBuilder
import PebblesDB.Db.CompactionWork
import PebblesDB.Db.FileFilter

/-!
# Which files of a level a key range touches

A manual compaction asks which files of a level hold keys of a user-key range
`[smallest, largest]`, either end possibly `NULL` for no bound. Two queries answer it.

`Version::OverlapInLevel`, by which `DBImpl::CompactRange` finds the deepest level with data in
the range, calls `SomeFileOverlapsRange` with `disjoint_sorted_files = (level > 0)`. Above level
0 it takes LevelDB's shortcut: a binary search (`FindFile`) for the first file whose largest key
is not below the range, and only that file is checked. The shortcut never reports an overlap
that is not there (`someFileOverlapsRange_sound`), and on files that are disjoint and sorted, as
LevelDB keeps them above level 0, it agrees with the scan of every file
(`someFileOverlapsRange_of_disjoint`). An FLSM level is not like that: `SaveTo` sorts its files by
smallest key, and the files of one guard overlap, each compaction into the guard adding one. A
wide file followed by a narrow one inside it hides the wide one from the search
(`overlapInLevel_misses`), and `CompactRange` stops above the level.

`Version::GetOverlappingInputsGuards`, by which `VersionSet::CompactRange` picks the inputs,
reads the `smallest` and `largest` keys of every guard before it looks at the range. A guard gets
them from its first file in `PopulateFilesToGuardsAndSentinels`; a guard without files keeps the
empty keys of the `GuardMetaData` constructor, and `user_key()` of an empty key fails the assert
of `ExtractUserKey` (and in a build without asserts reads before the key). `SaveTo` makes such
guards whenever a guard of the level holds no file (`getOverlappingInputsGuards_emptyGuard`).
Where every guard has a file, the inputs are the sentinel files if one of them overlaps the range
and the files of each guard whose range overlaps it (`getOverlappingInputsGuards_eq`).
-/

namespace PebblesDB.Db.Overlap

open VersionBuilder

/-! ## `SomeFileOverlapsRange` -/

/-- Whether the largest key of file `i` sorts before `key`; the search never reads past the last
file. -/
def largestBefore (files : List FileMeta) (key : InternalKey) (i : ℕ) : Bool :=
  ((files[i]?).map fun f ↦ f.largest.lt key).getD false

/-- The `while (left < right)` loop of `FindFile`, run on fuel: `none` where the fuel runs out
before the loop ends. -/
def findFileLoop (files : List FileMeta) (key : InternalKey) : ℕ → ℕ → ℕ → Option ℕ
  | 0, _, _ => none
  | fuel + 1, left, right =>
    if left < right then
      let mid := (left + right) / 2
      if largestBefore files key mid then findFileLoop files key fuel (mid + 1) right
      else findFileLoop files key fuel left mid
    else some right

/-- `FindFile(icmp, files, key)`. The loop narrows `[left, right)` by at least one each round, so
it ends within `files.size() + 1` rounds (`findFileLoop_isSome`), and the answer `files.size()`
for running out of them is never taken. -/
def findFile (files : List FileMeta) (key : InternalKey) : ℕ :=
  (findFileLoop files key (files.length + 1) 0 files.length).getD files.length

/-- `AfterFile(ucmp, user_key, f)`: the key is above the file; a `NULL` key never is. -/
def afterFile (userKey : Option (List UInt8)) (f : FileMeta) : Bool :=
  userKey.any fun k ↦ decide (f.largest.userKey < k)

/-- `BeforeFile(ucmp, user_key, f)`: the key is below the file; a `NULL` key never is. -/
def beforeFile (userKey : Option (List UInt8)) (f : FileMeta) : Bool :=
  userKey.any fun k ↦ decide (k < f.smallest.userKey)

/-- The earliest internal key of a user key, `InternalKey(user_key, kMaxSequenceNumber,
kValueTypeForSeek)`. -/
def seekKey (userKey : List UInt8) : InternalKey :=
  ⟨userKey, CompactionWork.kMaxSequenceNumber, FileFilter.kValueTypeForSeek.toNat⟩

/-- `SomeFileOverlapsRange(icmp, disjoint_sorted_files, files, smallest_user_key,
largest_user_key)`. -/
def someFileOverlapsRange (disjointSortedFiles : Bool) (files : List FileMeta)
    (smallestUserKey largestUserKey : Option (List UInt8)) : Bool :=
  if !disjointSortedFiles then
    -- check against all files
    files.any fun f ↦ !(afterFile smallestUserKey f || beforeFile largestUserKey f)
  else
    let index := match smallestUserKey with
      | some k => findFile files (seekKey k)
      | none => 0
    match files[index]? with
    | some f => !beforeFile largestUserKey f
    -- the beginning of the range is after all files
    | none => false

/-- `Version::OverlapInLevel(level, smallest_user_key, largest_user_key)` on the level `lvl`. -/
def overlapInLevel (lvl : Level) (level : ℕ)
    (smallestUserKey largestUserKey : Option (List UInt8)) : Bool :=
  someFileOverlapsRange (decide (0 < level)) lvl.files smallestUserKey largestUserKey

/-- `max_level_with_files` of `DBImpl::CompactRange(begin, end)`: the deepest level from `1` on
that `OverlapInLevel` finds data in, else `1`. The levels below it are compacted. -/
def maxLevelWithFiles (levels : ℕ → Level) (userBegin userEnd : Option (List UInt8)) : ℕ :=
  (List.range' 1 (kNumLevels - 1)).foldl
    (fun acc level ↦ if overlapInLevel (levels level) level userBegin userEnd then level else acc) 1

/-- The answer the scan of every file gives: some file's user-key range meets the range. -/
def Overlaps (files : List FileMeta) (smallestUserKey largestUserKey : Option (List UInt8)) :
    Prop :=
  ∃ f ∈ files, afterFile smallestUserKey f = false ∧ beforeFile largestUserKey f = false

theorem someFileOverlapsRange_false (files : List FileMeta)
    (smallestUserKey largestUserKey : Option (List UInt8)) :
    someFileOverlapsRange false files smallestUserKey largestUserKey = true ↔
      Overlaps files smallestUserKey largestUserKey := by
  simp [someFileOverlapsRange, Overlaps]

/-! ## The binary search -/

/-- **The loop of `FindFile` terminates**, whatever the files: each round narrows
`[left, right)`, so fuel above `right - left` is never used up. -/
theorem findFileLoop_isSome (files : List FileMeta) (key : InternalKey) :
    ∀ fuel left right, right - left < fuel → (findFileLoop files key fuel left right).isSome
  | 0, _, _, hfuel => absurd hfuel (Nat.not_lt_zero _)
  | fuel + 1, left, right, hfuel => by
    rw [findFileLoop]
    split
    · next hlt =>
      dsimp only
      split
      · exact findFileLoop_isSome files key fuel _ right (by omega)
      · exact findFileLoop_isSome files key fuel left _ (by omega)
    · rfl

/-- Whatever the order of the files, `FindFile` ends at the end or at a file whose largest key
is not before `key`: it only ever moves `right` onto such a file. -/
theorem findFileLoop_spec (files : List FileMeta) (key : InternalKey) :
    ∀ fuel left right i, (right = files.length ∨ largestBefore files key right = false) →
      findFileLoop files key fuel left right = some i →
        i = files.length ∨ largestBefore files key i = false := by
  intro fuel
  induction fuel with
  | zero => intro _ _ _ _ h; cases h
  | succ fuel ih =>
    intro left right i h hi
    rw [findFileLoop] at hi
    split at hi
    · dsimp only at hi
      split at hi
      · exact ih _ _ i h hi
      · next hmid => exact ih _ _ i (.inr (Bool.eq_false_iff.2 hmid)) hi
    · rw [← Option.some_inj.1 hi]
      exact h

theorem findFile_spec (files : List FileMeta) (key : InternalKey) :
    findFile files key = files.length ∨ largestBefore files key (findFile files key) = false := by
  obtain ⟨i, hi⟩ := Option.isSome_iff_exists.1
    (findFileLoop_isSome files key (files.length + 1) 0 files.length (by omega))
  rw [findFile, hi]
  exact findFileLoop_spec files key _ 0 _ i (.inl rfl) hi

theorem largestBefore_of_lt {files : List FileMeta} {key : InternalKey} {i : ℕ}
    (hi : i < files.length) : largestBefore files key i = files[i].largest.lt key := by
  simp [largestBefore, List.getElem?_eq_getElem hi]

/-- A largest key below the user key sorts before its earliest internal key. -/
theorem lt_seekKey_of_lt {k : InternalKey} {userKey : List UInt8} (h : k.userKey < userKey) :
    k.lt (seekKey userKey) = true := by
  simp [InternalKey.lt, seekKey, h]

/-- Below the largest sequence number, the search key compares as its user key. -/
theorem lt_seekKey_iff {k : InternalKey} (hk : k.sequence < CompactionWork.kMaxSequenceNumber)
    (userKey : List UInt8) : k.lt (seekKey userKey) = decide (k.userKey < userKey) := by
  have hgt : ¬ CompactionWork.kMaxSequenceNumber < k.sequence := by omega
  have hne : (k.sequence == CompactionWork.kMaxSequenceNumber) = false := by
    rw [beq_eq_false_iff_ne]
    omega
  simp only [InternalKey.lt, seekKey, hgt, hne, decide_false, Bool.false_and, Bool.or_false,
    Bool.and_false]
  -- the two sides may decide the comparison by different instances
  exact decide_eq_decide.2 Iff.rfl

/-- **The shortcut never reports a false overlap**, whatever the order of the files: the file
it checks has a largest key not below the range. -/
theorem someFileOverlapsRange_sound (disjointSortedFiles : Bool) {files : List FileMeta}
    {smallestUserKey largestUserKey : Option (List UInt8)}
    (h : someFileOverlapsRange disjointSortedFiles files smallestUserKey largestUserKey = true) :
    Overlaps files smallestUserKey largestUserKey := by
  cases disjointSortedFiles with
  | false => exact (someFileOverlapsRange_false _ _ _).1 h
  | true =>
    simp only [someFileOverlapsRange, Bool.not_true, Bool.false_eq_true, if_false] at h
    split at h
    · next index f hf =>
      obtain ⟨hlt, rfl⟩ := List.getElem?_eq_some_iff.1 hf
      refine ⟨_, List.getElem_mem hlt, ?_, by simpa using h⟩
      cases smallestUserKey with
      | none => rfl
      | some k =>
        -- `FindFile` stopped at a file whose largest key is not before the range
        have hstop := (findFile_spec files (seekKey k)).resolve_left (by simp at hlt ⊢; omega)
        rw [largestBefore_of_lt (by simpa using hlt)] at hstop
        simp only [afterFile, Option.any_some, decide_eq_false_iff_not]
        exact fun hk ↦ absurd (lt_seekKey_of_lt hk) (by simpa using hstop)
    · cases h

/-! ## Disjoint sorted files -/

section Disjoint

variable {files : List FileMeta}

/-- Files as LevelDB keeps a level above `0`: each file ends below the next one's start. -/
def DisjointSorted (files : List FileMeta) : Prop :=
  files.Pairwise fun a b ↦ a.largest.userKey < b.smallest.userKey

instance (files : List FileMeta) : Decidable (DisjointSorted files) :=
  inferInstanceAs (Decidable (files.Pairwise fun a b ↦ a.largest.userKey < b.smallest.userKey))

theorem userKey_lt_of_lt_of_le {a b c : List UInt8} (hab : a < b) (hbc : b ≤ c) : a < c :=
  List.not_le.1 fun hca ↦ List.le_trans hbc hca hab

theorem userKey_lt_of_le_of_lt {a b c : List UInt8} (hab : a ≤ b) (hbc : b < c) : a < c :=
  List.not_le.1 fun hca ↦ List.le_trans hca hab hbc

/-- On a list where `p` holds on a prefix, the positions in the prefix are where `p` holds. -/
theorem lt_length_takeWhile_iff {α : Type} {p : α → Bool} {l : List α}
    (hl : l.Pairwise fun a b ↦ p b = true → p a = true) {i : ℕ} (hi : i < l.length) :
    i < (l.takeWhile p).length ↔ p l[i] = true := by
  induction l generalizing i with
  | nil => exact absurd hi (Nat.not_lt_zero _)
  | cons a l ih =>
    obtain ⟨ha, hl⟩ := List.pairwise_cons.1 hl
    by_cases hpa : p a = true
    · rw [List.takeWhile_cons_of_pos hpa, List.length_cons]
      cases i with
      | zero => simpa using hpa
      | succ i =>
        rw [List.getElem_cons_succ, ← ih hl (by simpa using hi)]
        omega
    · -- nothing after `a` is in the prefix either
      rw [List.takeWhile_cons_of_neg hpa, List.length_nil]
      cases i with
      | zero => simpa using hpa
      | succ i =>
        simp only [Nat.not_lt_zero, false_iff, List.getElem_cons_succ]
        exact fun hp ↦ hpa (ha _ (List.getElem_mem _) hp)

/-- The loop invariant of `FindFile` on files whose largest keys before `key` come first:
the count `c` of those files lies in `[left, right]`. -/
theorem findFileLoop_eq {key : InternalKey} {c : ℕ}
    (hbefore : ∀ i < files.length, largestBefore files key i = decide (i < c)) :
    ∀ fuel left right, left ≤ c → c ≤ right → right ≤ files.length → right - left < fuel →
      findFileLoop files key fuel left right = some c := by
  intro fuel
  induction fuel with
  | zero =>
    intro left right _ _ _ hfuel
    exact absurd hfuel (Nat.not_lt_zero _)
  | succ fuel ih =>
    intro left right hlo hhi hright hfuel
    rw [findFileLoop]
    split
    · next hlt =>
      dsimp only
      have hmid := hbefore ((left + right) / 2) (by omega)
      split
      · next hb =>
        -- the file at `mid` ends before `key`: so do all up to it
        have : (left + right) / 2 < c := by simpa [hmid] using hb
        exact ih _ _ (by omega) hhi hright (by omega)
      · next hb =>
        have : ¬ (left + right) / 2 < c := by simpa [hmid] using hb
        exact ih _ _ hlo (by omega) (by omega) (by omega)
    · next hge =>
      rw [Option.some_inj]
      omega

variable (hsorted : DisjointSorted files)
  (hrange : ∀ f ∈ files, f.smallest.userKey ≤ f.largest.userKey)
include hsorted hrange

/-- Largest keys increase along disjoint sorted files. -/
theorem largest_lt_largest {i j : ℕ} (hij : i < j) (hj : j < files.length) :
    files[i].largest.userKey < files[j].largest.userKey :=
  userKey_lt_of_lt_of_le (List.pairwise_iff_getElem.1 hsorted i j (by omega) hj hij)
    (hrange _ (List.getElem_mem hj))

/-- A file after one that ends above the range's end starts above it too. -/
theorem beforeFile_of_lt {largestUserKey : Option (List UInt8)} {i j : ℕ} (hij : i < j)
    (hj : j < files.length) (h : beforeFile largestUserKey files[i] = true) :
    beforeFile largestUserKey files[j] = true := by
  cases largestUserKey with
  | none => cases h
  | some l =>
    simp only [beforeFile, Option.any_some, decide_eq_true_eq] at h ⊢
    exact List.lt_trans h (userKey_lt_of_le_of_lt (hrange _ (List.getElem_mem (by omega)))
      (List.pairwise_iff_getElem.1 hsorted i j (by omega) hj hij))

/-- The files that end before a key come first. -/
theorem pairwise_largest_lt (userKey : List UInt8) :
    files.Pairwise fun a b ↦ decide (b.largest.userKey < userKey) = true →
      decide (a.largest.userKey < userKey) = true := by
  refine (List.pairwise_iff_getElem.2 fun i j hi hj hij hb ↦ ?_)
  simp only [decide_eq_true_eq] at hb ⊢
  exact List.lt_trans (largest_lt_largest hsorted hrange hij hj) hb

variable (hseq : ∀ f ∈ files, f.largest.sequence < CompactionWork.kMaxSequenceNumber)
include hseq

/-- **`FindFile` on disjoint sorted files** stops at the first file that does not end before the
key. -/
theorem findFile_eq (userKey : List UInt8) :
    findFile files (seekKey userKey) =
      (files.takeWhile fun f ↦ decide (f.largest.userKey < userKey)).length := by
  rw [findFile, findFileLoop_eq (fun i hi ↦ ?_) _ 0 _ (Nat.zero_le _)
    (List.takeWhile_sublist _).length_le le_rfl (by omega)]
  · rfl
  rw [largestBefore_of_lt hi, lt_seekKey_iff (hseq _ (List.getElem_mem hi))]
  exact decide_eq_decide.2
    ((lt_length_takeWhile_iff (pairwise_largest_lt hsorted hrange userKey) hi).trans
      decide_eq_true_iff).symm

omit hsorted hrange hseq in
/-- The check at the stop of the search: where no file before `index` meets the range, file `j`
does and a file that starts above the range's end puts every later file above it, the file at
`index` meets the range. -/
theorem check_at_stop {smallestUserKey largestUserKey : Option (List UInt8)} {index j : ℕ}
    (hj : j < files.length) (hafter : afterFile smallestUserKey files[j] = false)
    (hbefore : beforeFile largestUserKey files[j] = false)
    (hlow : ∀ i (hi : i < files.length), i < index → afterFile smallestUserKey files[i] = true)
    (hhigh : ∀ i (hij : i < j), beforeFile largestUserKey files[i] = true →
      beforeFile largestUserKey files[j] = true) :
    (match files[index]? with
      | some f => !beforeFile largestUserKey f
      | none => false) = true := by
  have hle : index ≤ j := Nat.le_of_not_lt fun hlt ↦ by
    rw [hlow j hj hlt] at hafter
    cases hafter
  rw [List.getElem?_eq_getElem (Nat.lt_of_le_of_lt hle hj), Bool.not_eq_true']
  by_contra hstop
  rcases Nat.lt_or_eq_of_le hle with hlt | rfl
  · rw [hhigh index hlt (by simpa using hstop)] at hbefore
    cases hbefore
  · rw [Bool.not_eq_false] at hstop
    rw [hstop] at hbefore
    cases hbefore

end Disjoint

/-- Two disjoint tables, `[1, 2]` and `[4, 5]`. -/
def disjointFiles : List FileMeta :=
  [⟨3, ⟨[1], 1, 1⟩, ⟨[2], 2, 1⟩⟩, ⟨4, ⟨[4], 3, 1⟩, ⟨[5], 4, 1⟩⟩]

/-- A table with keys from `[1]` to `[9]`. -/
def wideFile : FileMeta :=
  ⟨7, ⟨[1], 10, 1⟩, ⟨[9], 11, 1⟩⟩

/-- A later table with keys `[2]` and `[3]`. -/
def narrowFile : FileMeta :=
  ⟨8, ⟨[2], 20, 1⟩, ⟨[3], 21, 1⟩⟩

/-- Level 2 after two compactions into its sentinel, the first writing `wideFile` and the second
`narrowFile`: each a `LogAndApply` of an edit adding the file, saved over the version before. -/
def twoCompactionsLevel : Level :=
  let empty : Level := ⟨[], [], [], []⟩
  let first := saveTo empty (LevelState.empty.apply ⟨[], [wideFile], [], []⟩)
  saveTo first (LevelState.empty.apply ⟨[], [narrowFile], [], []⟩)

/-- The version with that level 2 and the other levels empty. -/
def twoCompactions (level : ℕ) : Level :=
  if level = 2 then twoCompactionsLevel else ⟨[], [], [], []⟩

/-- `OverlapInLevel(2, [5], [6])` is `false` although `wideFile` holds `[5]` and `[6]`: the search
stops past `narrowFile`, whose largest key `[3]` is below `[5]`. `CompactRange([5], [6])` then
compacts level `0` only. -/
theorem overlapInLevel_misses :
    twoCompactionsLevel.files = [wideFile, narrowFile] ∧
      Overlaps twoCompactionsLevel.files (some [5]) (some [6]) ∧
      overlapInLevel twoCompactionsLevel 2 (some [5]) (some [6]) = false ∧
      maxLevelWithFiles twoCompactions (some [5]) (some [6]) = 1 := by
  refine ⟨by decide, ?_, by decide, by decide⟩
  exact (someFileOverlapsRange_false _ _ _).1 (by decide)

/-! ## `GetOverlappingInputsGuards` -/

/-- A `GuardMetaData` as `SaveTo` leaves it. `smallest` and `largest` are `none`, the empty
`InternalKey` of the constructor, until a file of the guard sets them. -/
structure GuardMeta where
  /-- `guard_key`. -/
  guardKey : InternalKey
  /-- `smallest`. -/
  smallest : Option InternalKey
  /-- `largest`. -/
  largest : Option InternalKey
  /-- `file_metas`, all `number_segments` of them. -/
  fileMetas : List FileMeta
  deriving DecidableEq, Repr

/-- How `PopulateFilesToGuardsAndSentinels` sets a guard's range from its files: the first file
gives it, a later one lowers `smallest` or raises `largest` past its own keys. -/
def widen (range : Option (InternalKey × InternalKey)) (f : FileMeta) :
    Option (InternalKey × InternalKey) :=
  match range with
  | none => some (f.smallest, f.largest)
  | some (smallest, largest) =>
    some (if f.smallest.lt smallest then f.smallest else smallest,
      if largest.lt f.largest then f.largest else largest)

/-- The guards of a level as `SaveTo` builds them: a new `GuardMetaData` for each guard key
(`MaybeAddGuard`), with the files and the range `PopulateFilesToGuardsAndSentinels` gives it. -/
def guardMetas (lvl : Level) : List GuardMeta :=
  List.zipWith (fun g files ↦
    let range := files.foldl widen none
    ⟨g, range.map Prod.fst, range.map Prod.snd, files⟩) lvl.guards lvl.guardFiles

/-- `InternalKey::user_key()`: `ExtractUserKey` asserts an encoding of eight bytes at least,
which the empty key (`none`) does not have. -/
def userKeyOf : Option InternalKey → Option (List UInt8)
  | some k => some k.userKey
  | none => none

/-- Neither completely before nor completely after `[begin, end]`: the test of
`GetOverlappingInputsGuards` for a file or a guard from `start` to `limit`. -/
def inRange (userBegin userEnd : Option (List UInt8)) (start limit : List UInt8) : Bool :=
  !(userBegin.any fun b ↦ decide (limit < b)) && !(userEnd.any fun e ↦ decide (e < start))

/-- The loop over the guards: the files of the guards it takes and those guards; `none` where
`user_key()` asserts. Both bounds of a guard are read before the range is. -/
def guardInputs (userBegin userEnd : Option (List UInt8)) :
    List GuardMeta → Option (List FileMeta × List GuardMeta)
  | [] => some ([], [])
  | g :: guards => do
    let guardStart ← userKeyOf g.smallest
    let guardLimit ← userKeyOf g.largest
    let (files, taken) ← guardInputs userBegin userEnd guards
    if inRange userBegin userEnd guardStart guardLimit then some (g.fileMetas ++ files, g :: taken)
    else some (files, taken)

/-- `Version::GetOverlappingInputsGuards(level, begin, end, &inputs, &guard_inputs,
&sentinel_inputs)` on the level `lvl`, for `begin` and `end` (`none` for `NULL`): `inputs`,
`guard_inputs` and `sentinel_inputs`; `none` where an assert fails. -/
def getOverlappingInputsGuards (lvl : Level) (beginKey endKey : Option InternalKey) :
    Option (List FileMeta × List GuardMeta × List FileMeta) := do
  let userBegin := beginKey.map (·.userKey)
  let userEnd := endKey.map (·.userKey)
  let addSentinelFiles := lvl.sentinelFiles.any fun f ↦
    inRange userBegin userEnd f.smallest.userKey f.largest.userKey
  let sentinelInputs := if addSentinelFiles then lvl.sentinelFiles else []
  let (files, taken) ← guardInputs userBegin userEnd (guardMetas lvl)
  some (sentinelInputs ++ files, taken, sentinelInputs)

/-- A guard's range is set exactly when it has a file. -/
theorem foldl_widen_eq_none_iff (files : List FileMeta) :
    files.foldl widen none = none ↔ files = [] := by
  -- once set, the range stays set
  have hset : ∀ (files : List FileMeta) r, (files.foldl widen (some r)).isSome := by
    intro files
    induction files with
    | nil => intro r; rfl
    | cons f files ih =>
      intro r
      obtain ⟨s, l⟩ := r
      exact ih _
  cases files with
  | nil => simp
  | cons f files =>
    simp only [List.foldl_cons, widen, reduceCtorEq, iff_false]
    exact Option.isSome_iff_ne_none.1 (hset files _)

/-- **A guard without files makes the call fail**, whatever the range: its empty `smallest` is
read before anything else of it. -/
theorem guardInputs_eq_none {userBegin userEnd : Option (List UInt8)} :
    ∀ {guards : List GuardMeta}, (∃ g ∈ guards, g.smallest = none) →
      guardInputs userBegin userEnd guards = none
  | [], ⟨_, hg, _⟩ => absurd hg List.not_mem_nil
  | g :: guards, ⟨g', hg', hnone⟩ => by
    rcases List.mem_cons.1 hg' with rfl | hmem
    · simp [guardInputs, userKeyOf, hnone]
    · -- the guards after `g` fail, and with them the loop
      have hrest := @guardInputs_eq_none userBegin userEnd guards ⟨g', hmem, hnone⟩
      simp only [guardInputs, hrest, Option.bind_eq_bind, Option.bind_none]
      cases userKeyOf g.smallest <;> cases userKeyOf g.largest <;> rfl

theorem getOverlappingInputsGuards_eq_none {lvl : Level}
    (h : ∃ g ∈ guardMetas lvl, g.smallest = none) (beginKey endKey : Option InternalKey) :
    getOverlappingInputsGuards lvl beginKey endKey = none := by
  simp [getOverlappingInputsGuards, guardInputs_eq_none h]

/-- Whether a guard's range meets `[begin, end]`; a guard without range does not. -/
def guardInRange (userBegin userEnd : Option (List UInt8)) (g : GuardMeta) : Bool :=
  match userKeyOf g.smallest, userKeyOf g.largest with
  | some start, some limit => inRange userBegin userEnd start limit
  | _, _ => false

/-- Where every guard has its range, the loop takes the guards whose range meets `[begin, end]`
and their files. -/
theorem guardInputs_eq {userBegin userEnd : Option (List UInt8)} :
    ∀ {guards : List GuardMeta}, (∀ g ∈ guards, g.smallest.isSome ∧ g.largest.isSome) →
      guardInputs userBegin userEnd guards =
        some (((guards.filter (guardInRange userBegin userEnd)).map (·.fileMetas)).flatten,
          guards.filter (guardInRange userBegin userEnd))
  | [], _ => rfl
  | g :: guards, h => by
    have hrest := @guardInputs_eq userBegin userEnd guards
      fun g' hg' ↦ h g' (List.mem_cons_of_mem g hg')
    obtain ⟨hs, hl⟩ := h g List.mem_cons_self
    obtain ⟨s, hs⟩ := Option.isSome_iff_exists.1 hs
    obtain ⟨l, hl⟩ := Option.isSome_iff_exists.1 hl
    have hg : guardInRange userBegin userEnd g = inRange userBegin userEnd s.userKey l.userKey := by
      simp [guardInRange, userKeyOf, hs, hl]
    by_cases hin : inRange userBegin userEnd s.userKey l.userKey = true
    · have hpos : guardInRange userBegin userEnd g = true := hg ▸ hin
      simp [guardInputs, userKeyOf, hs, hl, hrest, hin, List.filter_cons_of_pos hpos]
    · have hneg : ¬ guardInRange userBegin userEnd g = true := hg ▸ hin
      simp [guardInputs, userKeyOf, hs, hl, hrest, hin, List.filter_cons_of_neg hneg]

/-- The guards `SaveTo` builds have their range when they have a file. -/
theorem isSome_of_mem_guardMetas {lvl : Level} (hfiles : ∀ files ∈ lvl.guardFiles, files ≠ [])
    {g : GuardMeta} (hg : g ∈ guardMetas lvl) : g.smallest.isSome ∧ g.largest.isSome := by
  obtain ⟨i, hi, rfl⟩ := List.getElem_of_mem hg
  have hlen : i < lvl.guardFiles.length := by
    have := hi
    simp only [guardMetas, List.length_zipWith] at this
    omega
  have hne := (foldl_widen_eq_none_iff lvl.guardFiles[i]).not.2
    (hfiles _ (List.getElem_mem hlen))
  obtain ⟨r, hr⟩ := Option.ne_none_iff_exists'.1 hne
  simp [guardMetas, hr]

/-- **Where every guard has a file, `GetOverlappingInputsGuards` returns the range's inputs**:
all sentinel files if one of them meets `[begin, end]`, and the files of every guard whose range
meets it. -/
theorem getOverlappingInputsGuards_eq {lvl : Level} (hfiles : ∀ files ∈ lvl.guardFiles, files ≠ [])
    (beginKey endKey : Option InternalKey) :
    let userBegin := beginKey.map (·.userKey)
    let userEnd := endKey.map (·.userKey)
    let sentinelInputs := if lvl.sentinelFiles.any (fun f ↦
      inRange userBegin userEnd f.smallest.userKey f.largest.userKey) then lvl.sentinelFiles else []
    let taken := (guardMetas lvl).filter (guardInRange userBegin userEnd)
    getOverlappingInputsGuards lvl beginKey endKey =
      some (sentinelInputs ++ (taken.map (·.fileMetas)).flatten, taken, sentinelInputs) := by
  intro userBegin userEnd sentinelInputs taken
  simp [getOverlappingInputsGuards,
    guardInputs_eq fun g hg ↦ isSome_of_mem_guardMetas hfiles hg, sentinelInputs, taken,
    userBegin, userEnd]

/-- A guard key `[5]` committed to a level that holds no file: one `LogAndApply` of an edit
adding the guard, saved over the empty level. -/
def emptyGuardLevel : Level :=
  saveTo ⟨[], [], [], []⟩ (LevelState.empty.apply ⟨[], [], [], [⟨[5], 3, 2⟩]⟩)

/-- The guard `SaveTo` makes has no file, so its `smallest` and `largest` are empty, and
`GetOverlappingInputsGuards` calls `user_key()` on them for every range. -/
theorem getOverlappingInputsGuards_emptyGuard :
    (guardMetas emptyGuardLevel).map (fun g ↦ (g.smallest, g.largest)) = [(none, none)] ∧
      ∀ beginKey endKey, getOverlappingInputsGuards emptyGuardLevel beginKey endKey = none := by
  refine ⟨by decide, fun beginKey endKey ↦ getOverlappingInputsGuards_eq_none ?_ _ _⟩
  exact ⟨_, List.mem_singleton_self _, rfl⟩

end PebblesDB.Db.Overlap
