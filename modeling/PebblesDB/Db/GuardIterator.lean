import PebblesDB.Lib.Cursor
import PebblesDB.Db.VersionGet

/-!
# The per-level guard iterator

`Version::NewConcatenatingIterator(level, num)` reads one level of guards as a two-level
iterator. Its index, a `LevelGuardNumIterator`, steps over the sentinel (position `-1`) and the
guards, passing over those that hold no file numbered above `num`; its value is the list of those
files. For the position of the index, `TwoLevelIteratorGuards` opens the iterator that
`GetGuardIterator` builds over the files and steps through it, passing over empty ones.

The iterator over a file list is a parameter here, `block`: the sequence it yields, moved as a
`Cursor`. Backwards the level is read only for `num = 0`: `LevelGuardNumIterator::Prev`
asserts `number_ == 0`, and a scan from `SeekToLast` calls it as soon as it runs off the first
entry of the guard it is in (`scanBackward_aborts`).
-/

namespace PebblesDB.Db.GuardIterator

open VersionBuilder VersionGet

/-- Whether a file list holds a file numbered above `number_`: the test of `Bump`,
`BumpReverse` and `value()`. -/
def hasNewer (num : ℕ) (files : List FileMeta) : Bool :=
  files.any fun f ↦ decide (num < f.number)

/-- The files under index position `i`: the sentinel's at `-1`, else those of guard `i`. -/
def filesAt (lvl : Level) (i : ℤ) : List FileMeta :=
  bucket lvl (if i = -1 then none else some i.toNat)

/-- The files the index walks over: the sentinel's, then those of each guard. -/
def levelFiles (lvl : Level) : List FileMeta :=
  lvl.sentinelFiles ++ ((List.range lvl.guards.length).map fun i ↦ bucket lvl (some i)).flatten

theorem filesAt_neg_one (lvl : Level) : filesAt lvl (-1) = lvl.sentinelFiles := by
  simp [filesAt, bucket]

theorem filesAt_natCast (lvl : Level) (i : ℕ) : filesAt lvl i = bucket lvl (some i) := by
  have : (i : ℤ) ≠ -1 := by omega
  simp [filesAt, this]

/-- A file of the level numbered above `num` sits at a position of the index. -/
theorem exists_hasNewer {lvl : Level} {num : ℕ}
    (hnew : ∃ f ∈ levelFiles lvl, num < f.number) :
    ∃ j : ℤ, -1 ≤ j ∧ j < lvl.guards.length ∧ hasNewer num (filesAt lvl j) = true := by
  obtain ⟨f, hf, hnum⟩ := hnew
  simp only [levelFiles, List.mem_append, List.mem_flatten, List.mem_map, List.mem_range] at hf
  rcases hf with hf | ⟨_, ⟨i, hi, rfl⟩, hf⟩
  · -- a sentinel file: position `-1`
    refine ⟨-1, le_refl _, by omega, ?_⟩
    rw [filesAt_neg_one, hasNewer, List.any_eq_true]
    exact ⟨f, hf, decide_eq_true hnum⟩
  · refine ⟨i, by omega, by omega, ?_⟩
    rw [filesAt_natCast, hasNewer, List.any_eq_true]
    exact ⟨f, hf, decide_eq_true hnum⟩

/-! ## The index: `LevelGuardNumIterator` -/

/-- `Version::LevelGuardNumIterator`: the guards `glist_` and sentinel files `sentinel_list_` of
the level, `number_`, and the position `index_`, `-1` for the sentinel. -/
structure LevelGuardNumIterator where
  /-- `glist_` and `sentinel_list_`. -/
  level : Level
  /-- `number_`: only files numbered above it are read. -/
  number : ℕ
  /-- `index_`. -/
  index : ℤ
  deriving DecidableEq, Repr

namespace LevelGuardNumIterator

/-- The loop of `Bump`, `while (index_ < glist_->size())`, on fuel: from guard `i` on, the first
guard holding a file numbered above `num`, or `glist_->size()`. -/
def bumpLoop (lvl : Level) (num : ℕ) : ℕ → ℕ → ℕ
  | 0, i => i
  | fuel + 1, i =>
    if i < lvl.guards.length ∧ hasNewer num (bucket lvl (some i)) = false then
      bumpLoop lvl num fuel (i + 1)
    else i

/-- The loop of `BumpReverse`, `while (index_ >= -1)`, on fuel: from position `i` down, the last
of the guards and the sentinel holding a file numbered above `num`, or `-2`. -/
def bumpReverseLoop (lvl : Level) (num : ℕ) : ℕ → ℤ → ℤ
  | 0, i => i
  | fuel + 1, i =>
    if -1 ≤ i ∧ hasNewer num (filesAt lvl i) = false then bumpReverseLoop lvl num fuel (i - 1)
    else i

variable (it : LevelGuardNumIterator)

/-- `Valid()`: `-1 ≤ index_ < glist_->size()`. -/
def valid : Bool :=
  decide (-1 ≤ it.index) && decide (it.index < it.level.guards.length)

/-- `Bump()`: stay on the sentinel if it holds a file numbered above `number_`, else move to the
first guard from `index_` on (from `0` off the sentinel) that does. The loop takes at most
`glist_->size()` rounds. -/
def bump : LevelGuardNumIterator :=
  if it.index = -1 ∧ hasNewer it.number it.level.sentinelFiles = true then it
  else
    let start := if it.index = -1 then 0 else it.index.toNat
    { it with index := bumpLoop it.level it.number it.level.guards.length start }

/-- `BumpReverse()`: from `index_` down, to the first position that holds a file numbered above
`number_`. From `glist_->size() - 1` down to `-2` is `glist_->size() + 1` rounds. -/
def bumpReverse : LevelGuardNumIterator :=
  { it with index := bumpReverseLoop it.level it.number (it.level.guards.length + 1) it.index }

/-- `Seek(target)`, for the user key of the target: the guard `FindGuard` picks, or the sentinel
when there are no guards or the key is below the first, then `Bump()`. -/
def seek (userKey : List UInt8) : LevelGuardNumIterator :=
  bump { it with index := ((Guards.seekGuard it.level.guards userKey).map (↑)).getD (-1) }

/-- `SeekToFirst()`. -/
def seekToFirst : LevelGuardNumIterator :=
  bump { it with index := -1 }

/-- `SeekToLast()`. -/
def seekToLast : LevelGuardNumIterator :=
  bumpReverse { it with index := it.level.guards.length - 1 }

/-- `Next()`; `none` where its `assert(Valid())` fails. -/
def next : Option LevelGuardNumIterator :=
  if it.valid then some (bump { it with index := it.index + 1 }) else none

/-- `Prev()`; `none` where one of its asserts fails: `Valid()`, and `number_ == 0`. -/
def prev : Option LevelGuardNumIterator :=
  if it.valid ∧ it.number = 0 then
    some (if it.index = -1 then { it with index := it.level.guards.length }
      else bumpReverse { it with index := it.index - 1 })
  else none

/-- The size of `value_buf_`. -/
def valueBufSize : ℕ := 16384

/-- `value()`: the numbers of the files under `index_` numbered above `number_`, encoded in
`value_buf_` at 16 bytes a file after an 8-byte count; `none` where its assert fails or the
encoding runs past the buffer. -/
def value : Option (List ℕ) :=
  if it.valid then
    let files := ((filesAt it.level it.index).filter fun f ↦ decide (it.number < f.number)).map
      (·.number)
    if 16 * files.length + 8 ≤ valueBufSize then some files else none
  else none

theorem valid_iff : it.valid = true ↔ -1 ≤ it.index ∧ it.index < it.level.guards.length := by
  simp [valid]

/-- `BumpReverse`'s loop, with the fuel to get down to a position `j` that holds a file numbered
above `num`, stops at such a position between `j` and where it started. -/
theorem bumpReverseLoop_spec {lvl : Level} {num : ℕ} {j : ℤ} (hj : -1 ≤ j)
    (hnew : hasNewer num (filesAt lvl j) = true) (fuel : ℕ) (i : ℤ) (hji : j ≤ i)
    (hfuel : i - j ≤ fuel) :
    j ≤ bumpReverseLoop lvl num fuel i ∧ bumpReverseLoop lvl num fuel i ≤ i ∧
      hasNewer num (filesAt lvl (bumpReverseLoop lvl num fuel i)) = true := by
  induction fuel generalizing i with
  | zero =>
    obtain rfl : i = j := by omega
    exact ⟨le_refl _, le_refl _, hnew⟩
  | succ fuel ih =>
    rw [bumpReverseLoop]
    split_ifs with h
    · -- nothing newer at `i`, so `i` is above `j`: one round down
      have hij : i ≠ j := by
        rintro rfl
        simp [hnew] at h
      obtain ⟨h₁, h₂, h₃⟩ := ih (i - 1) (by omega) (by omega)
      exact ⟨h₁, by omega, h₃⟩
    · refine ⟨hji, le_refl _, ?_⟩
      simpa [show -1 ≤ i by omega] using h

/-- `SeekToLast()` on a level holding a file numbered above `number_` lands on a valid position
that holds one. -/
theorem seekToLast_valid (hnew : ∃ f ∈ levelFiles it.level, it.number < f.number) :
    it.seekToLast.valid = true ∧
      hasNewer it.number (filesAt it.level it.seekToLast.index) = true := by
  obtain ⟨j, hj, hjlt, hjnew⟩ := exists_hasNewer hnew
  obtain ⟨h₁, h₂, h₃⟩ := bumpReverseLoop_spec hj hjnew (it.level.guards.length + 1)
    (it.level.guards.length - 1) (by omega) (by omega)
  have hidx : it.seekToLast.index = bumpReverseLoop it.level it.number
      (it.level.guards.length + 1) (it.level.guards.length - 1) := rfl
  have hlvl : it.seekToLast.level = it.level := rfl
  rw [valid_iff, hidx, hlvl]
  exact ⟨⟨by omega, h₂.trans_lt (by omega)⟩, h₃⟩

/-- `Prev()` is only for `number_ == 0`. -/
theorem prev_eq_none (hnum : 0 < it.number) : it.prev = none := by
  simp [prev, Nat.pos_iff_ne_zero.1 hnum]

end LevelGuardNumIterator

/-! ## The two-level iterator: `TwoLevelIteratorGuards` -/

/-- `TwoLevelIteratorGuards`: the index iterator `index_iter_` and the data iterator
`data_iter_`, `none` for `NULL`. -/
structure TwoLevelIteratorGuards (κ : Type) where
  /-- `index_iter_`. -/
  index : LevelGuardNumIterator
  /-- `data_iter_`. -/
  data : Option (Cursor κ)
  deriving DecidableEq, Repr

/-- `Version::NewConcatenatingIterator(level, num)`: the index off the end (`index_` starts at
`glist_->size()`) and no data iterator. -/
def newConcatenatingIterator {κ : Type} (lvl : Level) (num : ℕ) : TwoLevelIteratorGuards κ :=
  ⟨⟨lvl, num, lvl.guards.length⟩, none⟩

namespace TwoLevelIteratorGuards

variable {κ : Type} (block : List ℕ → List κ)

/-- `Valid()`: the data iterator's. -/
def valid (st : TwoLevelIteratorGuards κ) : Bool :=
  st.data.any Cursor.valid

/-- `key()`. -/
def key (st : TwoLevelIteratorGuards κ) : Option κ :=
  st.data.bind Cursor.current

/-- `InitDataBlock()`, with the position each caller then gives the data iterator: no data
iterator off the index, else the one `block_function_` opens on the index's file list; `none`
where `value()` fails. (An iterator on the same file list is kept instead of opened again;
every caller positions it at once, so that makes no difference here.) -/
def initDataBlock (index : LevelGuardNumIterator) (position : Cursor κ → Cursor κ) :
    Option (Option (Cursor κ)) :=
  if index.valid then index.value.map fun files ↦ some (position ⟨block files, 0⟩) else some none

/-- The rounds a skip loop can take: the index moves each round, over the sentinel, the guards
and off the end. -/
def rounds (st : TwoLevelIteratorGuards κ) : ℕ :=
  st.index.level.guards.length + 2

/-- The loop of `SkipEmptyDataBlocksForward()`, on fuel; out of fuel it stops where it is. -/
def skipForward : ℕ → TwoLevelIteratorGuards κ → Option (TwoLevelIteratorGuards κ)
  | 0, st => some st
  | fuel + 1, st =>
    if st.valid then some st
    else if !st.index.valid then some { st with data := none }
    else do
      let index ← st.index.next
      let data ← initDataBlock block index Cursor.seekToFirst
      skipForward fuel ⟨index, data⟩

/-- The loop of `SkipEmptyDataBlocksBackward()`, on fuel; out of fuel it stops where it is. -/
def skipBackward : ℕ → TwoLevelIteratorGuards κ → Option (TwoLevelIteratorGuards κ)
  | 0, st => some st
  | fuel + 1, st =>
    if st.valid then some st
    else if !st.index.valid then some { st with data := none }
    else do
      let index ← st.index.prev
      let data ← initDataBlock block index Cursor.seekToLast
      skipBackward fuel ⟨index, data⟩

variable (st : TwoLevelIteratorGuards κ)

/-- `Seek(target)`, with `userKey` the user key of an entry and `lt` the order of entries. -/
def seek (userKey : κ → List UInt8) (lt : κ → κ → Bool) (target : κ) :
    Option (TwoLevelIteratorGuards κ) := do
  let index := st.index.seek (userKey target)
  let data ← initDataBlock block index (Cursor.seek · fun e ↦ lt e target)
  skipForward block st.rounds ⟨index, data⟩

/-- `SeekToFirst()`. -/
def seekToFirst : Option (TwoLevelIteratorGuards κ) := do
  let index := st.index.seekToFirst
  let data ← initDataBlock block index Cursor.seekToFirst
  skipForward block st.rounds ⟨index, data⟩

/-- `SeekToLast()`. -/
def seekToLast : Option (TwoLevelIteratorGuards κ) := do
  let index := st.index.seekToLast
  let data ← initDataBlock block index Cursor.seekToLast
  skipBackward block st.rounds ⟨index, data⟩

/-- `Next()`; `none` where its `assert(Valid())` or an assert below it fails. -/
def next : Option (TwoLevelIteratorGuards κ) :=
  if st.valid then skipForward block st.rounds ⟨st.index, st.data.map Cursor.next⟩ else none

/-- `Prev()`; `none` where its `assert(Valid())` or an assert below it fails. -/
def prev : Option (TwoLevelIteratorGuards κ) :=
  if st.valid then skipBackward block st.rounds ⟨st.index, st.data.map Cursor.prev⟩ else none

/-- The keys a loop of `key()` and `Next()` reads from `st` until the iterator is invalid, in at
most `fuel` steps; `none` where an assert fails on the way. -/
def scanForward : ℕ → TwoLevelIteratorGuards κ → Option (List κ)
  | 0, _ => some []
  | fuel + 1, st =>
    match st.key with
    | none => some []
    | some k => do
      let st' ← next block st
      let ks ← scanForward fuel st'
      pure (k :: ks)

/-- The keys a loop of `key()` and `Prev()` reads, in the same manner. -/
def scanBackward : ℕ → TwoLevelIteratorGuards κ → Option (List κ)
  | 0, _ => some []
  | fuel + 1, st =>
    match st.key with
    | none => some []
    | some k => do
      let st' ← prev block st
      let ks ← scanBackward fuel st'
      pure (k :: ks)

/-! ### Backwards with `num > 0` -/

theorem valid_mk (index : LevelGuardNumIterator) (es : List κ) (p : ℤ) :
    valid ⟨index, some ⟨es, p⟩⟩ = true ↔ 0 ≤ p ∧ p < es.length :=
  Cursor.valid_iff _

theorem key_mk (index : LevelGuardNumIterator) {es : List κ} {p : ℕ} (hp : p < es.length) :
    key ⟨index, some ⟨es, p⟩⟩ = some es[p] := by
  simp [key, Cursor.current_of_lt hp]

/-- On a valid data iterator the skip loop stops at once. -/
theorem skipBackward_of_valid {st : TwoLevelIteratorGuards κ} (h : st.valid = true) (fuel : ℕ) :
    skipBackward block fuel st = some st := by
  cases fuel with
  | zero => rfl
  | succ fuel => simp [skipBackward, h]

/-- Off the data iterator, on a valid index whose `Prev()` fails, the skip loop fails. -/
theorem skipBackward_of_prev {st : TwoLevelIteratorGuards κ} (h : st.valid = false)
    (hidx : st.index.valid = true) (hprev : st.index.prev = none) (fuel : ℕ) :
    skipBackward block (fuel + 1) st = none := by
  simp [skipBackward, h, hidx, hprev]

/-- `Prev()` within the data iterator. -/
theorem prev_of_pos (index : LevelGuardNumIterator) {es : List κ} {p : ℕ}
    (hp : p + 1 < es.length) :
    prev block ⟨index, some ⟨es, p + 1⟩⟩ = some ⟨index, some ⟨es, p⟩⟩ := by
  have hv : valid ⟨index, some ⟨es, (p : ℤ) + 1⟩⟩ = true :=
    (valid_mk _ _ _).2 ⟨by omega, by omega⟩
  have hv' : valid ⟨index, some ⟨es, (p : ℤ)⟩⟩ = true :=
    (valid_mk _ _ _).2 ⟨by omega, by omega⟩
  rw [prev, if_pos hv]
  simpa [Cursor.prev] using skipBackward_of_valid block hv' _

/-- `Prev()` from the first entry of a guard, for `num > 0`: the data iterator runs off its
front, and the skip loop calls `Prev()` of the index, whose `assert(number_ == 0)` fails. -/
theorem prev_first (index : LevelGuardNumIterator) {es : List κ} (hes : es ≠ [])
    (hidx : index.valid = true) (hnum : 0 < index.number) :
    prev block ⟨index, some ⟨es, 0⟩⟩ = none := by
  have hv : valid ⟨index, some ⟨es, 0⟩⟩ = true :=
    (valid_mk _ _ _).2 ⟨le_refl _, by simpa using List.length_pos_iff.2 hes⟩
  rw [prev, if_pos hv]
  exact skipBackward_of_prev block (by simp [valid, Cursor.valid, Cursor.prev]) hidx
    (index.prev_eq_none hnum) _

/-- **The run:** for `num > 0`, a backward scan from any entry of a guard fails before it gets
off the guard's first entry. -/
theorem scanBackward_eq_none (index : LevelGuardNumIterator) {es : List κ}
    (hidx : index.valid = true) (hnum : 0 < index.number) (p : ℕ) :
    ∀ fuel, p < es.length → p < fuel →
      scanBackward block fuel ⟨index, some ⟨es, p⟩⟩ = none := by
  induction p with
  | zero =>
    rintro (_ | fuel) hp hfuel
    · omega
    · have hk : key ⟨index, some ⟨es, 0⟩⟩ = some es[0] := by exact_mod_cast key_mk index hp
      have hes : es ≠ [] := List.ne_nil_of_length_pos hp
      simp [scanBackward, hk, prev_first block index hes hidx hnum]
  | succ p ih =>
    rintro (_ | fuel) hp hfuel
    · omega
    · have hk : key ⟨index, some ⟨es, (p : ℤ) + 1⟩⟩ = some es[p + 1] := by
        exact_mod_cast key_mk index hp
      push_cast
      simp [scanBackward, hk, prev_of_pos block index hp, ih fuel (by omega) (by omega)]

/-- `SeekToLast()` for `num > 0` on a level holding a file numbered above `num` either fails, or
stops on the last entry of a valid position of the index. -/
theorem seekToLast_of_hasNewer (st : TwoLevelIteratorGuards κ) (hnum : 0 < st.index.number)
    (hnew : ∃ f ∈ levelFiles st.index.level, st.index.number < f.number) :
    seekToLast block st = none ∨ ∃ index es, index.valid = true ∧
      index.number = st.index.number ∧ es ≠ [] ∧
      seekToLast block st = some ⟨index, some ⟨es, es.length - 1⟩⟩ := by
  obtain ⟨hv, -⟩ := st.index.seekToLast_valid hnew
  have hnum' : st.index.seekToLast.number = st.index.number := rfl
  cases hval : st.index.seekToLast.value with
  | none =>
    -- `value()` overruns `value_buf_`
    left
    simp [seekToLast, initDataBlock, hv, hval]
  | some files =>
    by_cases hes : block files = []
    · -- an empty data iterator sends the skip loop to `Prev()` of the index
      left
      simp only [seekToLast, initDataBlock, hv, hval, if_true, Option.map_some, rounds]
      exact skipBackward_of_prev block (by simp [valid, Cursor.valid, Cursor.seekToLast, hes])
        hv (LevelGuardNumIterator.prev_eq_none _ (hnum' ▸ hnum)) _
    · right
      refine ⟨_, block files, hv, hnum', hes, ?_⟩
      have hd :
          valid ⟨st.index.seekToLast, some ⟨block files, (block files).length - 1⟩⟩ = true := by
        have := List.length_pos_iff.2 hes
        simp only [valid, Option.any_some, Cursor.valid,
          Bool.and_eq_true, decide_eq_true_eq]
        omega
      simp only [seekToLast, initDataBlock, hv, hval, if_true, Option.map_some]
      exact skipBackward_of_valid block hd _

end TwoLevelIteratorGuards

open TwoLevelIteratorGuards in
/-- **The level cannot be read backwards above a file number.** For every level holding a file
numbered above `num > 0` and every iterator over a guard's files, a scan by `SeekToLast()` and
`Prev()` over the iterator `NewConcatenatingIterator(level, num)` builds fails an assert before it
ends: it never yields the entries of the level in decreasing order. -/
theorem scanBackward_aborts {κ : Type} (lvl : Level) (num : ℕ) (hnum : 0 < num)
    (hnew : ∃ f ∈ levelFiles lvl, num < f.number) (block : List ℕ → List κ) :
    ∃ n, ∀ fuel ≥ n,
      ((newConcatenatingIterator lvl num).seekToLast block).bind (scanBackward block fuel) =
        none := by
  rcases seekToLast_of_hasNewer block (newConcatenatingIterator lvl num) hnum hnew with
    h | ⟨index, es, hidx, hnum', hes, h⟩
  · exact ⟨0, fun _ _ ↦ by rw [h]; rfl⟩
  · refine ⟨es.length, fun fuel hfuel ↦ ?_⟩
    have hlen : ((es.length - 1 : ℕ) : ℤ) = es.length - 1 := by
      have := List.length_pos_iff.2 hes
      omega
    rw [h, Option.bind_some, ← hlen]
    exact scanBackward_eq_none block index hidx (hnum' ▸ hnum) _ _ (by omega) (by omega)

/-- Table file 5, of the keys `[1]` and `[2]`. -/
def soloFile : FileMeta := ⟨5, ⟨[1], 3, 1⟩, ⟨[2], 4, 1⟩⟩

/-- A level without guards, with file 5 in its sentinel. -/
def soloLevel : Level where
  files := [soloFile]
  guards := []
  sentinelFiles := [soloFile]
  guardFiles := []

/-- The entries of file 5. -/
def soloTables : ℕ → List Entry
  | 5 => [⟨3, [1], some [1]⟩, ⟨4, [2], some [2]⟩]
  | _ => []

/-- The iterator over a list of files; over one file, `NewMergingIteratorForFiles` hands back the
file's own. -/
def soloBlock (files : List ℕ) : List Entry :=
  files.flatMap soloTables

theorem soloFile_mem : soloFile ∈ levelFiles soloLevel := by
  simp [levelFiles, soloLevel]

theorem scanBackward_aborts_solo :
    0 < 1 ∧ (∃ f ∈ levelFiles soloLevel, 1 < f.number) ∧ ∃ n, ∀ fuel ≥ n,
      ((newConcatenatingIterator soloLevel 1).seekToLast soloBlock).bind
        (TwoLevelIteratorGuards.scanBackward soloBlock fuel) = none :=
  ⟨by decide, ⟨soloFile, soloFile_mem, by decide⟩,
    scanBackward_aborts soloLevel 1 (by decide) ⟨soloFile, soloFile_mem, by decide⟩ soloBlock⟩

/-- Forwards the level above file 1 is read, and backwards the whole level is. -/
example : ((newConcatenatingIterator soloLevel 1).seekToFirst soloBlock).bind
      (TwoLevelIteratorGuards.scanForward soloBlock 3) = some (soloTables 5) ∧
    ((newConcatenatingIterator soloLevel 0).seekToLast soloBlock).bind
      (TwoLevelIteratorGuards.scanBackward soloBlock 3) = some (soloTables 5).reverse := by
  decide

end PebblesDB.Db.GuardIterator
