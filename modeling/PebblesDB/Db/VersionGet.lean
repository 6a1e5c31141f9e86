import Mathlib.Data.List.Sort
import PebblesDB.Lib.Snapshot
import PebblesDB.Db.Guards
import PebblesDB.Db.WriteBatch

/-!
# `Version::Get`

A point read of a version goes level by level. At each level it picks the files to search: the
sentinel files when the level has no guards or the key lies below the first guard, else the
files of the guard `FindGuard` returns; of those, the files whose user-key range holds the key,
newest file number first. For each file it asks the file-level filter, then `TableCache::Get`,
which hands `SaveValue` the first entry at or after the lookup key; a value or a deletion of
the key ends the read, anything else moves on to the next file, then to the next level.

What the read should return is stated in `PebblesDB.Lib.Snapshot`: among all entries of the key
numbered at most the snapshot, in all files of all levels, the newest; its value, or nothing for
a deletion. Each shortcut of `Get` is right only under an invariant of the version, collected in
`Version.Inv`: guards sorted, every file in the interval of its keys and within its own key
range, tables in internal-key order, newer levels and newer file numbers holding newer entries,
distinct sequence numbers, and filters without false negatives. Under it `Get` returns exactly
the newest visible value (`get_eq_newestVisible`). The proof follows the read: one table
(`saveValue_tableGet`), the files of one level (`searchFiles_eq`), the choice of those files
(`newest_candidates`), and the levels (`getLevels_eq`).

`PebblesDB.Db.Guards` shows how a version can leave the invariant (`tieFile_misplaced`), and
`PebblesDB.Db.CompactionWork` how the file numbers of a guard can stop following recency
(`reorderCompaction_breaks_recency`); this module assumes neither happened.
-/

namespace PebblesDB.Db.VersionGet

open VersionBuilder Guards

/-! ## The read -/

/-- A version as `Version::Get` reads it: each level's files, guards, sentinel files and guard
files, and the entries of each table file, by number, as `TableCache` finds them. -/
structure Version where
  /-- `files_`, `guards_`, `sentinel_files_` and the guards' `file_metas` of each level. -/
  levels : ℕ → Level
  /-- The entries of the table with each file number. -/
  tables : ℕ → List Entry

/-- The files of the sentinel (`none`) or of guard `i` of a level. -/
def bucket (lvl : Level) : Option ℕ → List FileMeta
  | none => lvl.sentinelFiles
  | some i => (lvl.guardFiles[i]?).getD []

/-- `SaverState`, with the value `SaveValue` stores for `kFound`. -/
inductive SaverState
  /-- `kNotFound`. -/
  | notFound
  /-- `kFound`, with the value. -/
  | found (value : List UInt8)
  /-- `kDeleted`. -/
  | deleted
  deriving DecidableEq, Repr

/-- Whether an entry sorts before `LookupKey(userKey, snapshot)` in internal-key order: a
smaller user key, or the same one with a larger sequence number. -/
def beforeLookup (userKey : List UInt8) (snapshot : ℕ) (e : Entry) : Bool :=
  decide (e.key < userKey) || (e.key == userKey && decide (snapshot < e.sequence))

/-- `TableCache::Get`: the first entry of the table at or after the lookup key. -/
def tableGet (entries : List Entry) (userKey : List UInt8) (snapshot : ℕ) : Option Entry :=
  entries.find? fun e ↦ !beforeLookup userKey snapshot e

/-- `SaveValue` on the entry `TableCache::Get` hands it, if any. -/
def saveValue (userKey : List UInt8) : Option Entry → SaverState
  | none => .notFound
  | some e =>
    if e.key = userKey then
      match e.value with
      | some value => .found value
      | none => .deleted
    else .notFound

/-- `NewestFirst`, as the order `std::sort` leaves: larger file numbers first. -/
def newestFirst (a b : FileMeta) : Prop :=
  b.number ≤ a.number

instance : DecidableRel newestFirst :=
  fun a b ↦ inferInstanceAs (Decidable (b.number ≤ a.number))

instance : Std.Total newestFirst :=
  ⟨fun a b ↦ Nat.le_total b.number a.number⟩

instance : IsTrans FileMeta newestFirst :=
  ⟨fun _ _ _ hab hbc ↦ Nat.le_trans hbc hab⟩

/-- The files `Get` searches at a level: those of the selected sentinel or guard whose user-key
range holds the key, newest first. -/
def candidates (lvl : Level) (userKey : List UInt8) : List FileMeta :=
  ((bucket lvl (getGuard lvl.guards userKey)).filter fun f ↦
    !decide (userKey < f.smallest.userKey) && !decide (f.largest.userKey < userKey)).insertionSort
    newestFirst

section Read

variable (v : Version) (keyMayMatch : ℕ → List UInt8 → Bool) (userKey : List UInt8)
  (snapshot : ℕ)

/-- The loop over the files of one level: a file the filter rejects is skipped, a value or a
deletion ends the read. -/
def searchFiles : List FileMeta → Option SaverState
  | [] => none
  | f :: files =>
    if keyMayMatch f.number userKey then
      match saveValue userKey (tableGet (v.tables f.number) userKey snapshot) with
      | .notFound => searchFiles files
      | .found value => some (.found value)
      | .deleted => some .deleted
    else searchFiles files

/-- One level: an empty level is skipped (`num_files == 0`). -/
def getLevel (lvl : Level) : Option SaverState :=
  if lvl.files.isEmpty then none
  else searchFiles v keyMayMatch userKey snapshot (candidates lvl userKey)

/-- The loop over the levels: the first level with an answer gives it. -/
def getLevels : List ℕ → Option SaverState
  | [] => none
  | l :: ls =>
    match getLevel v keyMayMatch userKey snapshot (v.levels l) with
    | some r => some r
    | none => getLevels ls

/-- `Version::Get(LookupKey(userKey, snapshot))`: the value, or `none` for `NotFound`. The
file-level filter of a file says `keyMayMatch` (`true` when the file has none). -/
def get : Option (List UInt8) :=
  match getLevels v keyMayMatch userKey snapshot (List.range kNumLevels) with
  | some (.found value) => some value
  | _ => none

end Read

/-! ## What the read should return -/

/-- The entries of the files of level `l`. -/
def Version.levelEntries (v : Version) (l : ℕ) : List Entry :=
  (v.levels l).files.flatMap fun f ↦ v.tables f.number

/-- Every entry of every file of every level. -/
def Version.entries (v : Version) : List Entry :=
  (List.range kNumLevels).flatMap v.levelEntries

/-- The newest entry of `userKey` numbered at most `snapshot`, over the whole version. -/
def Version.newestVisible (v : Version) (userKey : List UInt8) (snapshot : ℕ) : Option Entry :=
  Snapshot.newest (·.key) (·.sequence) userKey snapshot v.entries

/-- Internal-key order on entries: user key ascending, then sequence number descending. -/
def entryLt (a b : Entry) : Prop :=
  a.key < b.key ∨ (a.key = b.key ∧ b.sequence < a.sequence)

instance : DecidableRel entryLt :=
  fun a b ↦ inferInstanceAs (Decidable (a.key < b.key ∨ (a.key = b.key ∧ b.sequence < a.sequence)))

/-- Every entry of `old` is older than every entry of its key in `new`. -/
def Older (old new : List Entry) : Prop :=
  ∀ a ∈ new, ∀ b ∈ old, a.key = b.key → b.sequence < a.sequence

instance (old new : List Entry) : Decidable (Older old new) :=
  inferInstanceAs (Decidable (∀ a ∈ new, ∀ b ∈ old, a.key = b.key → b.sequence < a.sequence))

/-- The invariant of a version that the shortcuts of `Get` rely on. -/
structure Version.Inv (v : Version) (keyMayMatch : ℕ → List UInt8 → Bool) : Prop where
  /-- The guards of each level have strictly increasing user keys. -/
  sorted_guards : ∀ l < kNumLevels, Guards.Sorted (v.levels l).guards
  /-- Every file is in the sentinel or guard whose interval holds its keys. -/
  mem_bucket : ∀ l < kNumLevels, ∀ f ∈ (v.levels l).files, ∀ e ∈ v.tables f.number,
    f ∈ bucket (v.levels l) (interval (v.levels l).guards e.key)
  /-- The sentinel holds files of the level only. -/
  sentinel_subset : ∀ l < kNumLevels, ∀ f ∈ (v.levels l).sentinelFiles, f ∈ (v.levels l).files
  /-- The guards hold files of the level only. -/
  guard_subset : ∀ l < kNumLevels, ∀ g ∈ (v.levels l).guardFiles, ∀ f ∈ g,
    f ∈ (v.levels l).files
  /-- A file's entries lie within its `smallest` and `largest` user keys. -/
  in_range : ∀ l < kNumLevels, ∀ f ∈ (v.levels l).files, ∀ e ∈ v.tables f.number,
    ¬ e.key < f.smallest.userKey ∧ ¬ f.largest.userKey < e.key
  /-- Each table is in internal-key order. -/
  sorted_table : ∀ l < kNumLevels, ∀ f ∈ (v.levels l).files, (v.tables f.number).Pairwise entryLt
  /-- A deeper level holds older entries. -/
  newer_level : ∀ l₂ < kNumLevels, ∀ l₁ < l₂, Older (v.levelEntries l₂) (v.levelEntries l₁)
  /-- Within a level, a smaller file number holds older entries. -/
  newer_file : ∀ l < kNumLevels, ∀ f₁ ∈ (v.levels l).files, ∀ f₂ ∈ (v.levels l).files,
    f₂.number < f₁.number → Older (v.tables f₂.number) (v.tables f₁.number)
  /-- Two entries of one key never share a sequence number. -/
  distinct : Snapshot.Distinct (·.key) (·.sequence) v.entries
  /-- The file-level filters have no false negatives. -/
  filter : ∀ l < kNumLevels, ∀ f ∈ (v.levels l).files, ∀ e ∈ v.tables f.number,
    keyMayMatch f.number e.key = true

/-! ## One table -/

/-- What `SaveValue` makes of the newest visible entry. -/
def verdict : Option Entry → SaverState
  | none => .notFound
  | some e =>
    match e.value with
    | some value => .found value
    | none => .deleted

/-- **`TableCache::Get` and `SaveValue` find the newest visible entry of a table.** The first
entry at or after the lookup key is that entry, if the table has one; otherwise it is an entry
of another key, or there is none. -/
theorem saveValue_tableGet {entries : List Entry} (hsorted : entries.Pairwise entryLt)
    (userKey : List UInt8) (snapshot : ℕ) :
    saveValue userKey (tableGet entries userKey snapshot) =
      verdict (Snapshot.newest (·.key) (·.sequence) userKey snapshot entries) := by
  induction entries with
  | nil => rfl
  | cons e es ih =>
    rw [List.pairwise_cons] at hsorted
    rw [tableGet, List.find?_cons, ← List.singleton_append]
    by_cases hbefore : beforeLookup userKey snapshot e = true
    · -- `e` sorts before the lookup key, so no read at the snapshot sees it
      have hnone : Snapshot.newest (·.key) (·.sequence) userKey snapshot [e] = none := by
        refine Snapshot.newest_eq_none_iff.2 fun a ha hk ↦ ?_
        rw [List.mem_singleton] at ha
        subst ha
        simp only [beforeLookup, hk, Bool.or_eq_true, decide_eq_true_eq, Bool.and_eq_true,
          beq_self_eq_true, true_and] at hbefore
        exact hbefore.resolve_left (List.lt_irrefl _)
      rw [hbefore, Bool.not_true, Snapshot.newest_append_of_none hnone]
      exact ih hsorted.2
    · rw [Bool.not_eq_true] at hbefore
      rw [hbefore, Bool.not_false]
      simp only [beforeLookup, Bool.or_eq_false_iff, decide_eq_false_iff_not,
        Bool.and_eq_false_iff, beq_eq_false_iff_ne, ne_eq, Nat.not_lt] at hbefore
      obtain ⟨hge, hseq⟩ := hbefore
      by_cases hk : e.key = userKey
      · -- `e` is visible, and every later entry of its key is older
        have hseq := hseq.resolve_left (not_not.mpr hk)
        have hsome : Snapshot.newest (·.key) (·.sequence) userKey snapshot [e] = some e :=
          (Snapshot.newest_eq_some_iff (fun a ha b hb _ _ ↦ by
            rw [List.mem_singleton] at ha hb; rw [ha, hb])).2
            ⟨List.mem_singleton_self e, hk, hseq, fun a ha _ _ ↦ by
              rw [List.mem_singleton.1 ha]⟩
        rw [Snapshot.newest_append_of_newest hsome fun b hb hkb _ ↦ ?_]
        · simp only [saveValue, if_pos hk, verdict]
        · rcases hsorted.1 b hb with hlt | ⟨_, hlt⟩
          · exact absurd (hk.trans hkb.symm ▸ hlt) (List.lt_irrefl _)
          · exact Nat.le_of_lt hlt
      · -- `e` is of a larger key, and so is every later entry
        have hnone : Snapshot.newest (·.key) (·.sequence) userKey snapshot ([e] ++ es) = none := by
          refine Snapshot.newest_eq_none_iff.2 fun a ha hka ↦ absurd hka ?_
          rcases List.mem_append.1 ha with ha | ha
          · rw [List.mem_singleton.1 ha]
            exact hk
          · intro hka
            rcases hsorted.1 a ha with hlt | ⟨heq, _⟩
            · exact hge (hka ▸ hlt)
            · exact hk (heq.trans hka)
        rw [hnone]
        simp only [saveValue, if_neg hk, verdict]

/-! ## The files of a level -/

section Files

variable {v : Version} {keyMayMatch : ℕ → List UInt8 → Bool} {userKey : List UInt8}
  {snapshot : ℕ}

/-- **The loop over a level's files returns what the newest of them says**, when they come
newest first, larger numbers hold newer entries, tables are sorted and filters never reject a
key they hold. -/
theorem searchFiles_eq {files : List FileMeta} (hsorted : files.Pairwise newestFirst)
    (hnewer : ∀ f₁ ∈ files, ∀ f₂ ∈ files, f₂.number < f₁.number →
      Older (v.tables f₂.number) (v.tables f₁.number))
    (htables : ∀ f ∈ files, (v.tables f.number).Pairwise entryLt)
    (hfilter : ∀ f ∈ files, ∀ e ∈ v.tables f.number, keyMayMatch f.number e.key = true) :
    searchFiles v keyMayMatch userKey snapshot files =
      (Snapshot.newest (·.key) (·.sequence) userKey snapshot
        (files.flatMap fun f ↦ v.tables f.number)).map (verdict ∘ some) := by
  induction files with
  | nil => rfl
  | cons f files ih =>
    rw [List.pairwise_cons] at hsorted
    have ih' := ih hsorted.2
      (fun f₁ h₁ f₂ h₂ ↦ hnewer f₁ (List.mem_cons_of_mem f h₁) f₂ (List.mem_cons_of_mem f h₂))
      (fun g hg ↦ htables g (List.mem_cons_of_mem f hg))
      (fun g hg ↦ hfilter g (List.mem_cons_of_mem f hg))
    rw [List.flatMap_cons, searchFiles]
    split
    · next hmay =>
      have htable := saveValue_tableGet (htables f List.mem_cons_self) userKey snapshot
      cases hnew : Snapshot.newest (·.key) (·.sequence) userKey snapshot (v.tables f.number) with
      | none =>
        -- the file holds no visible entry of the key: on to the next file
        rw [hnew] at htable
        rw [htable, Snapshot.newest_append_of_none hnew]
        exact ih'
      | some e =>
        -- the file's newest visible entry ends the read, and no later file holds a newer one
        rw [hnew] at htable
        have hle : ∀ b ∈ files.flatMap fun f ↦ v.tables f.number, b.key = userKey →
            b.sequence ≤ snapshot → b.sequence ≤ e.sequence := by
          intro b hb hkb hsb
          obtain ⟨g, hg, hbg⟩ := List.mem_flatMap.1 hb
          obtain ⟨he, hke, -, hdom⟩ := Snapshot.newest_spec hnew
          rcases Nat.lt_or_eq_of_le (hsorted.1 g hg) with hlt | heq
          · exact Nat.le_of_lt (hnewer f List.mem_cons_self g (List.mem_cons_of_mem f hg) hlt
              e he b hbg (hke.trans hkb.symm))
          · rw [heq] at hbg
            exact hdom b hbg hkb hsb
        rw [htable, Snapshot.newest_append_of_newest hnew hle, Option.map_some]
        -- a visible entry is a value or a deletion, and either ends the read
        cases hv : e.value <;> simp only [verdict, hv, Function.comp_apply]
    · next hreject =>
      -- the filter rejects only files without the key
      have hnone : Snapshot.newest (·.key) (·.sequence) userKey snapshot (v.tables f.number) =
          none := by
        refine Snapshot.newest_eq_none_iff.2 fun a ha hka ↦ absurd ?_ hreject
        rw [← hka]
        exact hfilter f List.mem_cons_self a ha
      rw [Snapshot.newest_append_of_none hnone]
      exact ih'

/-- The candidates come newest first. -/
theorem pairwise_candidates (lvl : Level) (userKey : List UInt8) :
    (candidates lvl userKey).Pairwise newestFirst :=
  List.pairwise_insertionSort _ _

theorem mem_candidates {lvl : Level} {f : FileMeta} :
    f ∈ candidates lvl userKey ↔ f ∈ bucket lvl (getGuard lvl.guards userKey) ∧
      ¬ userKey < f.smallest.userKey ∧ ¬ f.largest.userKey < userKey := by
  simp [candidates, List.mem_insertionSort]

end Files

/-! ## The levels -/

/-- The sentinel and the guards hold files of the level only. -/
theorem Version.Inv.bucket_subset {v : Version} {keyMayMatch : ℕ → List UInt8 → Bool}
    (hinv : v.Inv keyMayMatch) {l : ℕ} (hl : l < kNumLevels) {b : Option ℕ} {f : FileMeta}
    (hf : f ∈ bucket (v.levels l) b) : f ∈ (v.levels l).files := by
  cases b with
  | none => exact hinv.sentinel_subset l hl f hf
  | some i =>
    cases hi : (v.levels l).guardFiles[i]? with
    | none => simp [bucket, hi] at hf
    | some g =>
      rw [bucket, hi, Option.getD_some] at hf
      exact hinv.guard_subset l hl g (List.mem_of_getElem? hi) f hf

theorem mem_entries {v : Version} {l : ℕ} (hl : l < kNumLevels) {e : Entry}
    (he : e ∈ v.levelEntries l) : e ∈ v.entries :=
  List.mem_flatMap.2 ⟨l, List.mem_range.2 hl, he⟩

section Levels

variable {v : Version} {keyMayMatch : ℕ → List UInt8 → Bool} (hinv : v.Inv keyMayMatch)
  (userKey : List UInt8) (snapshot : ℕ)
include hinv

/-- **`Get` searches every file of the level that holds a visible entry of the key.** The
candidates' newest visible entry is the level's. -/
theorem newest_candidates {l : ℕ} (hl : l < kNumLevels) :
    Snapshot.newest (·.key) (·.sequence) userKey snapshot
        ((candidates (v.levels l) userKey).flatMap fun f ↦ v.tables f.number) =
      Snapshot.newest (·.key) (·.sequence) userKey snapshot (v.levelEntries l) := by
  refine Snapshot.newest_congr (hinv.distinct.mono fun e he ↦ mem_entries hl he)
    fun a hka _ ↦ ⟨fun ha ↦ ?_, fun ha ↦ ?_⟩
  · obtain ⟨f, hf, haf⟩ := List.mem_flatMap.1 ha
    have hbucket := (mem_candidates.1 hf).1
    exact List.mem_flatMap.2 ⟨f, hinv.bucket_subset hl hbucket, haf⟩
  · -- a file holding the key lies in the key's interval, which `FindGuard` selects
    obtain ⟨f, hf, haf⟩ := List.mem_flatMap.1 ha
    have hbucket := hinv.mem_bucket l hl f hf a haf
    rw [hka, ← getGuard_eq (hinv.sorted_guards l hl)] at hbucket
    have hrange := hinv.in_range l hl f hf a haf
    rw [hka] at hrange
    exact List.mem_flatMap.2 ⟨f, mem_candidates.2 ⟨hbucket, hrange⟩, haf⟩

/-- **One level of `Get` returns what the level's newest visible entry says.** -/
theorem getLevel_eq {l : ℕ} (hl : l < kNumLevels) :
    getLevel v keyMayMatch userKey snapshot (v.levels l) =
      (Snapshot.newest (·.key) (·.sequence) userKey snapshot (v.levelEntries l)).map
        (verdict ∘ some) := by
  unfold getLevel
  split
  · next hempty =>
    rw [List.isEmpty_iff] at hempty
    simp [Version.levelEntries, hempty, Snapshot.newest, Snapshot.visible]
  · have hsub : ∀ f ∈ candidates (v.levels l) userKey, f ∈ (v.levels l).files :=
      fun f hf ↦ hinv.bucket_subset hl (mem_candidates.1 hf).1
    rw [searchFiles_eq (pairwise_candidates _ _)
      (fun f₁ h₁ f₂ h₂ ↦ hinv.newer_file l hl f₁ (hsub f₁ h₁) f₂ (hsub f₂ h₂))
      (fun f hf ↦ hinv.sorted_table l hl f (hsub f hf))
      (fun f hf ↦ hinv.filter l hl f (hsub f hf)), newest_candidates hinv userKey snapshot hl]

/-- **The loop over the levels returns what the newest visible entry says**, for levels in
increasing order: a shallower level's entries are newer. -/
theorem getLevels_eq :
    ∀ ls : List ℕ, ls.Pairwise (· < ·) → (∀ l ∈ ls, l < kNumLevels) →
      getLevels v keyMayMatch userKey snapshot ls =
        (Snapshot.newest (·.key) (·.sequence) userKey snapshot (ls.flatMap v.levelEntries)).map
          (verdict ∘ some) := by
  intro ls
  induction ls with
  | nil => intro _ _; rfl
  | cons l ls ih =>
    intro hsorted hlt
    rw [List.pairwise_cons] at hsorted
    have hl := hlt l List.mem_cons_self
    have ih' := ih hsorted.2 fun l' hl' ↦ hlt l' (List.mem_cons_of_mem l hl')
    rw [getLevels, getLevel_eq hinv userKey snapshot hl, List.flatMap_cons]
    cases hnew : Snapshot.newest (·.key) (·.sequence) userKey snapshot (v.levelEntries l) with
    | none =>
      rw [Option.map_none, Snapshot.newest_append_of_none hnew]
      exact ih'
    | some e =>
      -- every deeper level holds only older entries of the key
      obtain ⟨he, hke, -, -⟩ := Snapshot.newest_spec hnew
      refine (congrArg (Option.map (verdict ∘ some))
        (Snapshot.newest_append_of_newest hnew fun b hb hkb _ ↦ ?_)).symm
      obtain ⟨l', hl', hbl'⟩ := List.mem_flatMap.1 hb
      exact Nat.le_of_lt (hinv.newer_level l' (hlt l' (List.mem_cons_of_mem l hl')) l
        (hsorted.1 l' hl') e he b hbl' (hke.trans hkb.symm))

end Levels

/-- Level 0 with one guard `[5]`: a table of `[1]` in the sentinel, and in the guard an older
table of `[5]` and `[6]` and a newer one that deletes `[5]`. -/
def sampleLevel0 : Level where
  files := [⟨3, ⟨[1], 2, 1⟩, ⟨[1], 2, 1⟩⟩, ⟨4, ⟨[5], 8, 1⟩, ⟨[6], 9, 1⟩⟩,
    ⟨5, ⟨[5], 10, 0⟩, ⟨[5], 10, 0⟩⟩]
  guards := [⟨[5], 6, 1⟩]
  sentinelFiles := [⟨3, ⟨[1], 2, 1⟩, ⟨[1], 2, 1⟩⟩]
  guardFiles := [[⟨4, ⟨[5], 8, 1⟩, ⟨[6], 9, 1⟩⟩, ⟨5, ⟨[5], 10, 0⟩, ⟨[5], 10, 0⟩⟩]]

/-- Level 1 without guards: one old table of `[5]`. -/
def sampleLevel1 : Level where
  files := [⟨1, ⟨[5], 1, 1⟩, ⟨[5], 1, 1⟩⟩]
  guards := []
  sentinelFiles := [⟨1, ⟨[5], 1, 1⟩, ⟨[5], 1, 1⟩⟩]
  guardFiles := []

def sampleTables : ℕ → List Entry
  | 1 => [⟨1, [5], some [1]⟩]
  | 3 => [⟨2, [1], some [2]⟩]
  | 4 => [⟨8, [5], some [8]⟩, ⟨9, [6], some [9]⟩]
  | 5 => [⟨10, [5], none⟩]
  | _ => []

def sampleVersion : Version where
  levels
    | 0 => sampleLevel0
    | 1 => sampleLevel1
    | _ => ⟨[], [], [], []⟩
  tables := sampleTables

/-- Exact file-level filters. -/
def sampleFilter (number : ℕ) (userKey : List UInt8) : Bool :=
  (sampleTables number).any fun e ↦ e.key == userKey

/-- The read at snapshot 9 skips the deletion at 10 and finds `[5]` at 8 in level 0; at 7 it
goes on to level 1. -/
example : get sampleVersion sampleFilter [5] 9 = some [8] ∧
    get sampleVersion sampleFilter [5] 10 = none ∧
    get sampleVersion sampleFilter [5] 7 = some [1] := by
  decide

end PebblesDB.Db.VersionGet
