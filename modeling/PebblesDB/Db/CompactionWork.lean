import Mathlib.Data.List.Sort
import Mathlib.Logic.Function.Basic
import Mathlib.Tactic.SplitIfs
import PebblesDB.Db.WriteBatch

/-!
# Compactions and what reads see

`DBImpl::DoCompactionWorkGuards` merges the entries of its input files in internal-key order
(user key ascending, sequence number descending) and decides, entry by entry, which ones the
output keeps. Two rules drop an entry, with `smallest_snapshot` the oldest live snapshot (or
`LastSequence()` when there is none):

* (A) a newer entry for the same user key has a sequence number at most `smallest_snapshot`,
  so no snapshot can see this one;
* a deletion at most `smallest_snapshot` is dropped when `Compaction::IsBaseLevelForKey` says
  that no deeper level holds the key, so that there is nothing left for it to hide.

The outputs are cut at the guards of the level they are written to and installed there, and
the inputs leave the version.

`IsBaseLevelForKey` is LevelDB's: it searches the levels from `level + 2` on, because in LevelDB
the files of `level + 1` that overlap the inputs are inputs too. A vertical compaction of
PebblesDB writes its outputs to `level + 1` without taking that level's files as inputs (only
those that stick out of their guard), so an older entry of the key can stay behind in
`level + 1`: the deletion that hid it is dropped, and the key reads as its old value again
(`staleCompaction_resurrects_deletion`). What survives in every case is every entry newer than
the oldest snapshot (`mem_compactEntries_of_lt`). Within the levels it does search, it is
sound on FLSM's overlapping files as long as each level is sorted by smallest key and the keys
come in order: its pointers only pass files that end before the current key, and it stops at
the first file that does not (`isBaseLevelForKeys_sound`).

The view a read should have is stated directly: the entry of the key with the largest sequence
number at most the snapshot, over all files of the version (`Version.visible`). The size-based
cuts of the outputs (`MaxOutputFileSize`, and `MinOutputFileSize` with `CrossesBoundary` at a new
user key) only move the boundaries between output files; the first is a parameter here, the
second is left out.
-/

namespace PebblesDB.Db.CompactionWork

/-! ## Versions and what a read sees -/

/-- A table file of a version: the number of its `FileMetaData`, the user keys of `smallest`
and `largest`, and the entries of the table. -/
structure FileMeta where
  /-- The file number. -/
  number : ℕ
  /-- The user key of `smallest`. -/
  smallest : List UInt8
  /-- The user key of `largest`. -/
  largest : List UInt8
  /-- The entries of the table, in internal-key order. -/
  entries : List Entry
  deriving DecidableEq, Repr

/-- The files of a version: `files_[level]` for each level. -/
abbrev Version := ℕ → List FileMeta

/-- Every entry of every file of the levels `0, …, kNumLevels - 1`. -/
def Version.entries (v : Version) : List Entry :=
  (List.range kNumLevels).flatMap fun level ↦ (v level).flatMap (·.entries)

/-- The entry a read of `key` at sequence `snapshot` must see: among the entries of the key at
most `snapshot`, the newest. -/
def Version.visible (v : Version) (key : List UInt8) (snapshot : ℕ) : Option Entry :=
  (v.entries.filter fun e ↦ e.key = key ∧ e.sequence ≤ snapshot).foldl
    (fun best e ↦
      match best with
      | some b => if b.sequence < e.sequence then some e else best
      | none => some e)
    none

/-- The value such a read returns; a deletion and no entry alike give `none`. -/
def Version.get (v : Version) (key : List UInt8) (snapshot : ℕ) : Option (List UInt8) :=
  (v.visible key snapshot).bind (·.value)

/-! ## `Compaction::IsBaseLevelForKey` -/

/-- One level of `IsBaseLevelForKey`, from `level_ptrs_[lvl]` on: skip the files that end
before `key`, and stop at the first that does not. Returns the pointer, and whether `key` falls
in that file's range. -/
def scanLevel (key : List UInt8) : List FileMeta → ℕ → ℕ × Bool
  | [], ptr => (ptr, false)
  | f :: files, ptr =>
    if ¬ f.largest < key then (ptr, decide ¬ key < f.smallest)
    else scanLevel key files (ptr + 1)

/-- `Compaction::IsBaseLevelForKey` for a compaction of `level` over the input version `v`: no
file of the levels `level + 2, …` holds `key` in its range. `level_ptrs_` only move forward,
as the keys come in increasing order. -/
def isBaseLevelForKey (v : Version) (level : ℕ) (key : List UInt8) (levelPtrs : ℕ → ℕ) :
    Bool × (ℕ → ℕ) :=
  go (List.range' (level + 2) (kNumLevels - (level + 2))) levelPtrs
where
  /-- The loop over the levels. -/
  go : List ℕ → (ℕ → ℕ) → Bool × (ℕ → ℕ)
    | [], ptrs => (true, ptrs)
    | lvl :: lvls, ptrs =>
      let r := scanLevel key ((v lvl).drop (ptrs lvl)) (ptrs lvl)
      let ptrs := Function.update ptrs lvl r.1
      if r.2 then (false, ptrs) else go lvls ptrs

/-- `IsBaseLevelForKey` called for each of `keys` in turn on one compaction, `level_ptrs_`
carried from call to call: the answers. -/
def isBaseLevelForKeys (v : Version) (level : ℕ) : (ℕ → ℕ) → List (List UInt8) → List Bool
  | _, [] => []
  | levelPtrs, key :: keys =>
    let r := isBaseLevelForKey v level key levelPtrs
    r.1 :: isBaseLevelForKeys v level r.2 keys

/-- The files before the pointer of each level searched end before `key`. -/
def PtrsBelow (v : Version) (level : ℕ) (levelPtrs : ℕ → ℕ) (key : List UInt8) : Prop :=
  ∀ L, level + 2 ≤ L → ∀ f ∈ (v L).take (levelPtrs L), f.largest < key

section BaseLevel

variable {v : Version} {level : ℕ} {key : List UInt8}

theorem lt_of_lt_of_le_bytes {a b c : List UInt8} (hab : a < b) (hbc : b ≤ c) : a < c := by
  rcases List.le_iff_lt_or_eq.1 hbc with hbc | rfl
  · exact List.lt_trans hab hbc
  · exact hab

theorem PtrsBelow.mono {levelPtrs : ℕ → ℕ} {key' : List UInt8}
    (h : PtrsBelow v level levelPtrs key) (hkey : key ≤ key') :
    PtrsBelow v level levelPtrs key' :=
  fun L hL f hf ↦ lt_of_lt_of_le_bytes (h L hL f hf) hkey

/-- One level's scan skips files that end before `key` and stops at the first that does not,
answering whether that one starts at or before `key`. -/
theorem scanLevel_spec (key : List UInt8) : ∀ (files : List FileMeta) (ptr : ℕ),
    ∃ skipped rest, files = skipped ++ rest ∧ (∀ f ∈ skipped, f.largest < key) ∧
      (∀ g ∈ rest.head?, ¬ g.largest < key) ∧
      scanLevel key files ptr =
        (ptr + skipped.length, rest.head?.any fun g ↦ decide ¬ key < g.smallest)
  | [], ptr => ⟨[], [], rfl, by simp, by simp, rfl⟩
  | f :: files, ptr => by
    by_cases hf : f.largest < key
    · -- `f` ends before the key and is skipped
      obtain ⟨skipped, rest, hsplit, hskip, hhead, hscan⟩ := scanLevel_spec key files (ptr + 1)
      refine ⟨f :: skipped, rest, by rw [hsplit, List.cons_append], ?_, hhead, ?_⟩
      · intro g hg
        rcases List.mem_cons.1 hg with rfl | hg
        · exact hf
        · exact hskip g hg
      · rw [scanLevel, if_neg (not_not.2 hf), hscan, List.length_cons, Nat.add_right_comm,
          Nat.add_assoc]
    · refine ⟨[], f :: files, rfl, by simp, by simpa using hf, ?_⟩
      rw [scanLevel, if_pos hf]
      simp

/-- **One level, from its pointer.** If the files before the pointer end before `key`, so do
those before the pointer the scan leaves; and a scan that finds nothing means that no file of
the level holds `key`, since the files are sorted by their smallest keys. -/
theorem scanLevel_drop {files : List FileMeta}
    (hsorted : files.Pairwise fun f g ↦ f.smallest ≤ g.smallest) {p : ℕ}
    (hbelow : ∀ f ∈ files.take p, f.largest < key) :
    (∀ f ∈ files.take (scanLevel key (files.drop p) p).1, f.largest < key) ∧
      ((scanLevel key (files.drop p) p).2 = false →
        ∀ f ∈ files, ¬ (f.smallest ≤ key ∧ key ≤ f.largest)) := by
  obtain ⟨skipped, rest, hsplit, hskip, hhead, hscan⟩ := scanLevel_spec key (files.drop p) p
  have hfiles : files = files.take p ++ (skipped ++ rest) := by
    rw [← hsplit, List.take_append_drop]
  rw [hscan]
  constructor
  · -- the new pointer passes the skipped files only
    intro f hf
    rw [List.take_add, hsplit, List.take_left] at hf
    rcases List.mem_append.1 hf with hf | hf
    · exact hbelow f hf
    · exact hskip f hf
  · intro hnone f hf
    rw [hfiles] at hf
    rcases List.mem_append.1 hf with hf | hf
    · exact fun h ↦ List.lt_irrefl _ (List.lt_of_le_of_lt h.2 (hbelow f hf))
    rcases List.mem_append.1 hf with hf | hf
    · exact fun h ↦ List.lt_irrefl _ (List.lt_of_le_of_lt h.2 (hskip f hf))
    -- the scan stopped at `g`, which starts after `key`, and so do the files after it
    obtain ⟨g, rest', rfl⟩ := List.exists_cons_of_ne_nil (List.ne_nil_of_mem hf)
    have hg : key < g.smallest := by simpa using hnone
    have hrest : (g :: rest').Pairwise fun f g ↦ f.smallest ≤ g.smallest :=
      hsorted.sublist ((List.sublist_append_right _ _).trans
        (hsplit ▸ List.drop_sublist p files))
    rcases List.mem_cons.1 hf with rfl | hf
    · exact fun h ↦ h.1 hg
    · exact fun h ↦ h.1 (lt_of_lt_of_le_bytes hg ((List.pairwise_cons.1 hrest).1 f hf))

/-- **The loop over the levels.** It keeps the pointers below `key`, and when it answers that
the level is a base level, no file of the levels it searched holds `key`. -/
theorem go_spec (hsorted : ∀ L, level + 2 ≤ L → (v L).Pairwise fun f g ↦ f.smallest ≤ g.smallest) :
    ∀ (lvls : List ℕ) (levelPtrs : ℕ → ℕ), (∀ L ∈ lvls, level + 2 ≤ L) →
      PtrsBelow v level levelPtrs key →
      PtrsBelow v level (isBaseLevelForKey.go v key lvls levelPtrs).2 key ∧
        ((isBaseLevelForKey.go v key lvls levelPtrs).1 = true →
          ∀ L ∈ lvls, ∀ f ∈ v L, ¬ (f.smallest ≤ key ∧ key ≤ f.largest))
  | [], levelPtrs, _, hbelow => ⟨hbelow, fun _ _ hL ↦ absurd hL List.not_mem_nil⟩
  | lvl :: lvls, levelPtrs, hlvls, hbelow => by
    have hlvl : level + 2 ≤ lvl := hlvls lvl List.mem_cons_self
    obtain ⟨hnext, hfound⟩ := scanLevel_drop (hsorted lvl hlvl) (hbelow lvl hlvl)
    -- the pointer of `lvl` moves, the others stay
    have hbelow' : PtrsBelow v level (Function.update levelPtrs lvl
        (scanLevel key ((v lvl).drop (levelPtrs lvl)) (levelPtrs lvl)).1) key := by
      intro L hL f hf
      by_cases hL' : L = lvl
      · subst hL'
        rw [Function.update_self] at hf
        exact hnext f hf
      · rw [Function.update_of_ne hL'] at hf
        exact hbelow L hL f hf
    simp only [isBaseLevelForKey.go]
    split
    · exact ⟨hbelow', fun h ↦ absurd h Bool.false_ne_true⟩
    · rename_i hstop
      obtain ⟨hrest, hrest_found⟩ :=
        go_spec hsorted lvls _ (fun L hL ↦ hlvls L (List.mem_cons_of_mem _ hL)) hbelow'
      refine ⟨hrest, fun htrue L hL ↦ ?_⟩
      rcases List.mem_cons.1 hL with rfl | hL
      · exact hfound (by simpa using hstop)
      · exact hrest_found htrue L hL

/-- The run, from pointers below the first key. -/
theorem isBaseLevelForKeys_spec
    (hsorted : ∀ L, level + 2 ≤ L → (v L).Pairwise fun f g ↦ f.smallest ≤ g.smallest) :
    ∀ (keys : List (List UInt8)) (levelPtrs : ℕ → ℕ), keys.Pairwise (· ≤ ·) →
      (∀ k ∈ keys, PtrsBelow v level levelPtrs k) →
      ∀ q ∈ keys.zip (isBaseLevelForKeys v level levelPtrs keys), q.2 = true →
        ∀ L, level + 2 ≤ L → L < kNumLevels → ∀ f ∈ v L, ¬ (f.smallest ≤ q.1 ∧ q.1 ≤ f.largest)
  | [], _, _, _, q, hq => absurd hq List.not_mem_nil
  | key :: keys, levelPtrs, hkeys, hbelow, q, hq => by
    obtain ⟨hhead, htail⟩ := List.pairwise_cons.1 hkeys
    have hlvls : ∀ L ∈ List.range' (level + 2) (kNumLevels - (level + 2)), level + 2 ≤ L :=
      fun L hL ↦ (List.mem_range'_1.1 hL).1
    obtain ⟨hnext, hbase⟩ := go_spec hsorted _ levelPtrs hlvls (hbelow key List.mem_cons_self)
    rw [isBaseLevelForKeys, List.zip_cons_cons] at hq
    rcases List.mem_cons.1 hq with rfl | hq
    · -- this call: the levels searched are all the levels from `level + 2` on
      intro htrue L hL hLn
      exact hbase htrue L (List.mem_range'_1.2 ⟨hL, by omega⟩)
    · -- the later calls start from pointers below the keys that follow
      exact isBaseLevelForKeys_spec hsorted keys _ htail
        (fun k hk ↦ hnext.mono (hhead k hk)) q hq

/-- **`IsBaseLevelForKey` is sound on overlapping levels.** With the files of every level
from `level + 2` on sorted by smallest key, overlapping or not, and the keys asked in
nondecreasing order on one compaction, every key it calls a base level key lies in no file of
those levels. -/
theorem isBaseLevelForKeys_sound
    (hsorted : ∀ L, level + 2 ≤ L → (v L).Pairwise fun f g ↦ f.smallest ≤ g.smallest)
    {keys : List (List UInt8)} (hkeys : keys.Pairwise (· ≤ ·)) :
    ∀ q ∈ keys.zip (isBaseLevelForKeys v level (fun _ ↦ 0) keys), q.2 = true →
      ∀ L, level + 2 ≤ L → L < kNumLevels → ∀ f ∈ v L, ¬ (f.smallest ≤ q.1 ∧ q.1 ≤ f.largest) :=
  isBaseLevelForKeys_spec hsorted keys _ hkeys fun _ _ _ _ f hf ↦ absurd hf (by simp)

/-- Level `2` holds file `7` with keys `[1], …, [9]` and, overlapping it, file `8` with keys
`[2], …, [3]`, sorted by smallest key. -/
def overlappingLevel : Version :=
  fun L ↦ if L = 2 then [⟨7, [1], [9], []⟩, ⟨8, [2], [3], []⟩] else []

theorem isBaseLevelForKeys_sound_overlapping :
    (([10] : List UInt8), true) ∈ ([[0], [5], [10]] : List (List UInt8)).zip
        (isBaseLevelForKeys overlappingLevel 0 (fun _ ↦ 0) [[0], [5], [10]]) ∧
      ¬ (([1] : List UInt8) ≤ [10] ∧ ([10] : List UInt8) ≤ [9]) := by
  have hmem : (([10] : List UInt8), true) ∈ ([[0], [5], [10]] : List (List UInt8)).zip
      (isBaseLevelForKeys overlappingLevel 0 (fun _ ↦ 0) [[0], [5], [10]]) := by
    decide
  have hsorted : ∀ L, 0 + 2 ≤ L →
      (overlappingLevel L).Pairwise fun f g ↦ f.smallest ≤ g.smallest := fun L _ ↦ by
    unfold overlappingLevel
    split <;> decide
  have hkeys : ([[0], [5], [10]] : List (List UInt8)).Pairwise (· ≤ ·) := by decide
  exact ⟨hmem, isBaseLevelForKeys_sound hsorted hkeys _ hmem rfl 2 (by decide)
    (by decide) ⟨7, [1], [9], []⟩ (by decide)⟩

end BaseLevel

/-! ## The loop of `DoCompactionWorkGuards` -/

/-- `kMaxSequenceNumber`. -/
def kMaxSequenceNumber : ℕ := 2 ^ 56 - 1

/-- The parameters of one run of the loop. -/
structure Params where
  /-- The input version. -/
  version : Version
  /-- `compaction->level()`. -/
  level : ℕ
  /-- `compact->smallest_snapshot`. -/
  smallestSnapshot : ℕ
  /-- `manual_garbage_cutoff_`: `kMaxSequenceNumber` unless manual garbage collection is on. -/
  manualGarbageCutoff : ℕ
  /-- `complete_guards_used_in_bg_compaction`: the guards of the level written to. -/
  guards : List GuardMeta
  /-- `builder->FileSize() >= MaxOutputFileSize()` for an output with these entries. -/
  full : List Entry → Bool

/-- The state of the loop between entries. -/
structure LoopState where
  /-- The user key of `current_key`; `none` while `has_current_key` is false. -/
  currentKey : Option (List UInt8)
  /-- `last_sequence_for_key`. -/
  lastSequenceForKey : ℕ
  /-- `level_ptrs_` of the compaction. -/
  levelPtrs : ℕ → ℕ
  /-- `current_guard`. -/
  currentGuard : ℕ
  /-- The entries of the outputs finished so far. -/
  outputs : List (List Entry)
  /-- The entries of the open output; empty when `compact->builder` is `NULL`. -/
  builder : List Entry

/-- The loop's start. -/
def LoopState.init : LoopState :=
  ⟨none, kMaxSequenceNumber, fun _ ↦ 0, 0, [], []⟩

/-- The `temp` loop: the first guard from `temp` on whose key is above `key`. -/
def advanceGuard (key : List UInt8) : List GuardMeta → ℕ → ℕ
  | [], temp => temp
  | g :: guards, temp => if ¬ key < g.key then advanceGuard key guards (temp + 1) else temp

/-- Whether the loop drops `e`, and the level pointers after the test, with `last` the value
of `last_sequence_for_key` for it. -/
def dropEntry (p : Params) (levelPtrs : ℕ → ℕ) (last : ℕ) (e : Entry) : Bool × (ℕ → ℕ) :=
  let r : Bool × (ℕ → ℕ) :=
    if last ≤ p.smallestSnapshot then (true, levelPtrs)  -- (A): hidden by a newer entry
    else if e.value.isNone ∧ e.sequence ≤ p.smallestSnapshot then
      isBaseLevelForKey p.version p.level e.key levelPtrs
    else (false, levelPtrs)
  -- a first entry of its key written after the garbage cutoff is kept
  (r.1 && !(last == kMaxSequenceNumber && decide (p.manualGarbageCutoff ≤ e.sequence)), r.2)

/-- Add a kept entry to the outputs: a guard it reaches finishes the open output, and an output
that is full after it is finished. -/
def emitEntry (p : Params) (st : LoopState) (e : Entry) : LoopState :=
  let st :=
    if h : st.currentGuard < p.guards.length then
      if ¬ e.key < (p.guards.get ⟨st.currentGuard, h⟩).key then
        { st with
          currentGuard := advanceGuard e.key (p.guards.drop st.currentGuard) st.currentGuard,
          outputs := if st.builder.isEmpty then st.outputs else st.outputs ++ [st.builder],
          builder := [] }
      else st
    else st
  let builder := st.builder ++ [e]
  if p.full builder then { st with outputs := st.outputs ++ [builder], builder := [] }
  else { st with builder := builder }

/-- One entry of the loop. -/
def compactEntry (p : Params) (st : LoopState) (e : Entry) : LoopState :=
  -- the first entry of a user key resets `last_sequence_for_key`
  let last := if st.currentKey = some e.key then st.lastSequenceForKey else kMaxSequenceNumber
  let d := dropEntry p st.levelPtrs last e
  let st := { st with currentKey := some e.key, lastSequenceForKey := e.sequence,
                      levelPtrs := d.2 }
  if d.1 then st else emitEntry p st e

/-- The loop over the merged input, and the last output: the entries of each output file. -/
def compactEntries (p : Params) (entries : List Entry) : List (List Entry) :=
  let st := entries.foldl (compactEntry p) LoopState.init
  if st.builder.isEmpty then st.outputs else st.outputs ++ [st.builder]

/-- The order of the input iterator: user key ascending, then sequence number descending. -/
def internalKeyLe (a b : Entry) : Bool :=
  decide (a.key < b.key) || (a.key == b.key && decide (b.sequence ≤ a.sequence))

/-! ## What the loop keeps -/

/-- The entries the loop has kept so far, in order: those of the finished outputs, then those
of the open one. -/
def LoopState.kept (st : LoopState) : List Entry :=
  st.outputs.flatten ++ st.builder

@[simp] theorem currentKey_emitEntry (p : Params) (st : LoopState) (e : Entry) :
    (emitEntry p st e).currentKey = st.currentKey := by
  unfold emitEntry
  dsimp only
  split_ifs <;> rfl

@[simp] theorem lastSequenceForKey_emitEntry (p : Params) (st : LoopState) (e : Entry) :
    (emitEntry p st e).lastSequenceForKey = st.lastSequenceForKey := by
  unfold emitEntry
  dsimp only
  split_ifs <;> rfl

/-- Emitting an entry appends it to what is kept, wherever the output boundaries fall. -/
theorem kept_emitEntry (p : Params) (st : LoopState) (e : Entry) :
    (emitEntry p st e).kept = st.kept ++ [e] := by
  unfold emitEntry
  dsimp only
  -- a guard cut moves the open output to the finished ones, a full output is finished: either
  -- way the kept entries are the same
  split_ifs <;> simp_all [LoopState.kept, List.isEmpty_iff]

theorem kept_compactEntry (p : Params) (st : LoopState) (e : Entry) :
    (compactEntry p st e).kept = st.kept ++
      if (dropEntry p st.levelPtrs
        (if st.currentKey = some e.key then st.lastSequenceForKey else kMaxSequenceNumber) e).1
      then [] else [e] := by
  unfold compactEntry
  dsimp only
  cases (dropEntry p st.levelPtrs
    (if st.currentKey = some e.key then st.lastSequenceForKey else kMaxSequenceNumber) e).1
  · exact kept_emitEntry p _ e
  · exact (List.append_nil _).symm

@[simp] theorem currentKey_compactEntry (p : Params) (st : LoopState) (e : Entry) :
    (compactEntry p st e).currentKey = some e.key := by
  unfold compactEntry
  dsimp only
  split_ifs <;> simp

@[simp] theorem lastSequenceForKey_compactEntry (p : Params) (st : LoopState) (e : Entry) :
    (compactEntry p st e).lastSequenceForKey = e.sequence := by
  unfold compactEntry
  dsimp only
  split_ifs <;> simp

/-- Neither rule drops an entry newer than the oldest snapshot, as long as the entry before it
of the same key is newer still. -/
theorem dropEntry_eq_false (p : Params) (levelPtrs : ℕ → ℕ) {last : ℕ} {e : Entry}
    (hlast : p.smallestSnapshot < last) (he : p.smallestSnapshot < e.sequence) :
    (dropEntry p levelPtrs last e).1 = false := by
  have h1 : ¬ last ≤ p.smallestSnapshot := Nat.not_le.mpr hlast
  have h2 : ¬ e.sequence ≤ p.smallestSnapshot := Nat.not_le.mpr he
  simp [dropEntry, h1, h2]

theorem kept_prefix_foldl (p : Params) (entries : List Entry) (st : LoopState) :
    st.kept <+: (entries.foldl (compactEntry p) st).kept := by
  induction entries generalizing st with
  | nil => exact List.prefix_refl _
  | cons e entries ih =>
    refine List.IsPrefix.trans ?_ (ih _)
    rw [kept_compactEntry]
    exact List.prefix_append _ _

/-- The run invariant of the loop: over input in internal-key order, every entry newer than the
oldest snapshot is kept. The state carries the last sequence number of the current key, which
the next entry of that key does not exceed. -/
theorem mem_kept_foldl (p : Params) (hsnap : p.smallestSnapshot < kMaxSequenceNumber) :
    ∀ (entries : List Entry) (st : LoopState),
      entries.Pairwise (fun a b ↦ internalKeyLe a b = true) →
      (∀ b ∈ entries.head?, st.currentKey = some b.key → b.sequence ≤ st.lastSequenceForKey) →
      ∀ e ∈ entries, p.smallestSnapshot < e.sequence →
        e ∈ (entries.foldl (compactEntry p) st).kept := by
  intro entries
  induction entries with
  | nil => intro _ _ _ e he; cases he
  | cons a rest ih =>
    intro st hsorted hhead e he hlt
    rw [List.pairwise_cons] at hsorted
    rcases List.mem_cons.mp he with rfl | he
    · -- the entry itself: `last_sequence_for_key` is above the snapshot, so it is kept
      have hlast : p.smallestSnapshot <
          if st.currentKey = some e.key then st.lastSequenceForKey else kMaxSequenceNumber := by
        split
        · next hkey => exact Nat.lt_of_lt_of_le hlt (hhead e rfl hkey)
        · exact hsnap
      have hmem : e ∈ (compactEntry p st e).kept := by
        rw [kept_compactEntry, dropEntry_eq_false p _ hlast hlt]
        simp
      exact (kept_prefix_foldl p rest _).subset hmem
    · -- a later entry: the next one of the same key is no newer than `a`
      refine ih _ hsorted.2 (fun b hb hkey ↦ ?_) e he hlt
      have hab := hsorted.1 b (List.mem_of_mem_head? hb)
      rw [currentKey_compactEntry, Option.some_inj] at hkey
      rw [lastSequenceForKey_compactEntry]
      simp only [internalKeyLe, hkey, Bool.or_eq_true, decide_eq_true_eq, Bool.and_eq_true,
        beq_self_eq_true, true_and] at hab
      rcases hab with hab | hab
      · exact absurd hab (List.lt_irrefl _)
      · exact hab

theorem flatten_compactEntries (p : Params) (entries : List Entry) :
    (compactEntries p entries).flatten = (entries.foldl (compactEntry p) LoopState.init).kept := by
  unfold compactEntries LoopState.kept
  dsimp only
  split
  · next h => simp [List.isEmpty_iff.mp h]
  · simp

/-- **A compaction keeps every entry newer than the oldest snapshot.** Over any input in
internal-key order, each entry whose sequence number is above `smallest_snapshot` is in an
output file: rule (A) and the deletion rule only ever drop entries that the oldest snapshot
can see. -/
theorem mem_compactEntries_of_lt (p : Params) (hsnap : p.smallestSnapshot < kMaxSequenceNumber)
    {entries : List Entry} (hsorted : entries.Pairwise fun a b ↦ internalKeyLe a b = true)
    {e : Entry} (he : e ∈ entries) (hlt : p.smallestSnapshot < e.sequence) :
    e ∈ (compactEntries p entries).flatten := by
  rw [flatten_compactEntries]
  exact mem_kept_foldl p hsnap entries LoopState.init hsorted (fun _ _ h ↦ by cases h) e he hlt

/-- Key `[1]` written at 3, 5 and deleted at 6, and `[2]` written at 7, compacted under a
snapshot at 4: the entry at 5 is kept although a newer one of its key came first. -/
theorem mem_compactEntries_of_lt_snapshot :
    (⟨5, [1], some [5]⟩ : Entry) ∈
      (compactEntries ⟨fun _ ↦ [], 0, 4, kMaxSequenceNumber, [], fun _ ↦ false⟩
        [⟨6, [1], none⟩, ⟨5, [1], some [5]⟩, ⟨3, [1], some [3]⟩, ⟨7, [2], some [7]⟩]).flatten :=
  mem_compactEntries_of_lt _ (by decide) (by decide) (by decide) (by decide)

/-! ## A compaction -/

/-- `MakeInputIteratorForGuardsInALevel`: the entries of all input files, merged. -/
def mergeInputs (inputs : List FileMeta) : List Entry :=
  (inputs.flatMap (·.entries)).insertionSort fun a b ↦ internalKeyLe a b

/-- A compaction that `PickCompactionForGuards` chose. -/
structure Compaction where
  /-- `level()`. -/
  level : ℕ
  /-- `is_horizontal_compaction`. -/
  isHorizontal : Bool
  /-- `inputs_[0]`, files of `level`. -/
  inputs : List FileMeta
  /-- `inputs_[1]`, files of `level + 1` that stick out of their guards. -/
  nextInputs : List FileMeta

/-- `level_written_to`. -/
def Compaction.levelWrittenTo (c : Compaction) : ℕ :=
  if c.isHorizontal then c.level else c.level + 1

/-- Whether the compaction deletes `f` from `level` (`AddInputDeletions`). -/
def Compaction.deletes (c : Compaction) (level : ℕ) (f : FileMeta) : Bool :=
  (level == c.level && c.inputs.contains f) || (level == c.level + 1 && c.nextInputs.contains f)

/-- The output files, numbered from `nextFileNumber` as `OpenCompactionOutputFile` allocates
them. -/
def outputFiles (nextFileNumber : ℕ) (outputs : List (List Entry)) : List FileMeta :=
  outputs.mapIdx fun i entries ↦
    ⟨nextFileNumber + i, ((entries.head?.map (·.key)).getD []),
      ((entries.getLast?.map (·.key)).getD []), entries⟩

/-- `DoCompactionWorkGuards` followed by `InstallCompactionResults`: the version with the inputs
deleted and the outputs added at the level written to. -/
def doCompactionWorkGuards (p : Params) (c : Compaction) (nextFileNumber : ℕ) : Version :=
  let outputs :=
    outputFiles nextFileNumber (compactEntries p (mergeInputs (c.inputs ++ c.nextInputs)))
  fun level ↦
    let kept := (p.version level).filter fun f ↦ !c.deletes level f
    if level = c.levelWrittenTo then kept ++ outputs else kept


/-! ## A deletion dropped above an older entry

Key `[1]` was written at sequence 3 and compacted into file 5 of level 1, which has no guards.
It was deleted at sequence 5, and key `[2]` written at 6; two flushes left files 7 and 8 in the
sentinel of level 0, whose score is then `2 / kL0_SentinelCompactionTrigger = 1`. The
compaction of level 0 is vertical and takes both files; file 5 fits level 1 and stays out. With
no snapshot, `smallest_snapshot` is `LastSequence() = 6`. -/

/-- The version before the compaction. -/
def staleVersion : Version
  | 0 => [⟨7, [1], [1], [⟨5, [1], none⟩]⟩, ⟨8, [2], [2], [⟨6, [2], some [6]⟩]⟩]
  | 1 => [⟨5, [1], [1], [⟨3, [1], some [3]⟩]⟩]
  | _ => []

/-- The loop's parameters: no snapshot, no manual garbage collection, no guards in level 1, and
outputs that never fill. -/
def staleParams : Params :=
  ⟨staleVersion, 0, 6, kMaxSequenceNumber, [], fun _ ↦ false⟩

/-- The compaction of the sentinel of level 0. -/
def staleCompaction : Compaction :=
  ⟨0, false, staleVersion 0, []⟩

/-- A read at the last sequence number finds `[1]` deleted before the compaction and finds its
value of sequence 3 after it: the deletion passed the `IsBaseLevelForKey` test, which never
looks at level 1. -/
theorem staleCompaction_resurrects_deletion :
    staleVersion.get [1] 6 = none ∧
      (isBaseLevelForKey staleVersion 0 [1] fun _ ↦ 0).1 = true ∧
      (doCompactionWorkGuards staleParams staleCompaction 9).get [1] 6 = some [3] := by
  decide


/-! ## A horizontal compaction that reorders a guard

Level 6 has no guards, so all its files are sentinel files. Key `[1]` was written at sequence 1
and a first vertical compaction put it in file 10 of level 6; it was written again at sequence 5
and a later vertical compaction put it in file 12, next to file 10, which fits the sentinel and
stays. A compaction of the last level is horizontal: it takes the sentinel files smaller than
half their total size, here file 10 only when file 12 is more than three times its size. -/

/-- Level 6 before the horizontal compaction. -/
def reorderVersion : Version
  | 6 => [⟨10, [1], [1], [⟨1, [1], some [1]⟩]⟩, ⟨12, [1], [1], [⟨5, [1], some [5]⟩]⟩]
  | _ => []

/-- The loop's parameters: no snapshot below the last sequence number 5, no guards. -/
def reorderParams : Params :=
  ⟨reorderVersion, 6, 5, kMaxSequenceNumber, [], fun _ ↦ false⟩

/-- The horizontal compaction of file 10. -/
def reorderCompaction : Compaction :=
  ⟨6, true, [⟨10, [1], [1], [⟨1, [1], some [1]⟩]⟩], []⟩

/-- After the compaction the sentinel of level 6 holds file 12 with `[1]` at sequence 5 and the
output, file 13, with `[1]` at sequence 1: the file with the larger number holds the older
entry. -/
theorem reorderCompaction_breaks_recency :
    (doCompactionWorkGuards reorderParams reorderCompaction 13) 6 =
      [⟨12, [1], [1], [⟨5, [1], some [5]⟩]⟩, ⟨13, [1], [1], [⟨1, [1], some [1]⟩]⟩] := by
  decide

end PebblesDB.Db.CompactionWork
