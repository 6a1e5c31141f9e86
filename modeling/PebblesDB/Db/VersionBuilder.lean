import Mathlib.Data.List.Basic
import Mathlib.Data.List.TakeDrop
import Mathlib.Data.List.TakeWhile
import Mathlib.Data.List.Perm.Subperm

/-!
# Saving a version: files, guards and sentinels

`VersionSet::Builder` turns a base version and a run of edits into the next version, one level
at a time. `Apply` collects the deleted and added files and guards of each edit; `SaveTo` merges
the added files into the base files in `BySmallestKey` order and the added guards into the base
guards in `BySmallestGuard` order, skipping what was deleted, and then
`PopulateFilesToGuardsAndSentinels` hands the files of the level out to the sentinel and the
guards.

`PopulateFilesToGuardsAndSentinels` walks the files in their order and compares each file's
*largest* key with the guard keys: the files whose largest key lies below the first guard go to
the sentinel, the next ones whose largest key lies below the second guard go to the first guard,
and so on, the last guard taking the rest. So every file of the level lands exactly once, in
order, and below the next guard (`populateFilesToGuardsAndSentinels_partition`). Nothing checks a
file's *smallest* key against its guard: a file that straddles a guard key, because the guard
came after the file, goes to that guard although it starts below it
(`straddleRun_breaks_containment`). `PickCompactionForGuards` looks for such files and compacts
them with the next compaction of the level.

Complete guards (`complete_guards_`) and the per-guard statistics (`smallest`, `largest`,
`number_segments`) are left out: nothing here reads them.
-/

namespace PebblesDB.Db.VersionBuilder

/-! ## Keys and files -/

/-- An `InternalKey`: the user key, the sequence number and the value type. -/
structure InternalKey where
  /-- The user key. -/
  userKey : List UInt8
  /-- The sequence number. -/
  sequence : ℕ
  /-- The value type. -/
  type : ℕ
  deriving DecidableEq, Repr

/-- `InternalKeyComparator::Compare(a, b) < 0`: user keys ascending, then the packed sequence
number and type descending. -/
def InternalKey.lt (a b : InternalKey) : Bool :=
  decide (a.userKey < b.userKey) ||
    (a.userKey == b.userKey &&
      (decide (b.sequence < a.sequence) || (a.sequence == b.sequence && decide (b.type < a.type))))

/-- A `FileMetaData`: the number and the key range of a table file. -/
structure FileMeta where
  /-- The file number. -/
  number : ℕ
  /-- `smallest`. -/
  smallest : InternalKey
  /-- `largest`. -/
  largest : InternalKey
  deriving DecidableEq, Repr

/-- `BySmallestKey`: by smallest key, ties broken by file number. -/
def bySmallestKey (f g : FileMeta) : Bool :=
  f.smallest.lt g.smallest || (f.smallest == g.smallest && decide (f.number < g.number))

/-- `BySmallestGuard`: by the user key of the guard key. -/
def bySmallestGuard (a b : InternalKey) : Bool :=
  decide (a.userKey < b.userKey)

/-- One level of a version. -/
structure Level where
  /-- `files_[level]`. -/
  files : List FileMeta
  /-- The keys of `guards_[level]`. -/
  guards : List InternalKey
  /-- `sentinel_files_[level]`. -/
  sentinelFiles : List FileMeta
  /-- The files of each guard of `guards_[level]`, in the guards' order. -/
  guardFiles : List (List FileMeta)
  deriving DecidableEq, Repr

/-- One level of a `VersionEdit`. -/
structure LevelEdit where
  /-- `deleted_files_` of the level. -/
  deletedFiles : List ℕ
  /-- `new_files_` of the level. -/
  newFiles : List FileMeta
  /-- `deleted_guards_` of the level. -/
  deletedGuards : List InternalKey
  /-- `new_guards_[level]`. -/
  newGuards : List InternalKey
  deriving DecidableEq, Repr

/-! ## `Builder::Apply` -/

/-- `std::set::insert` into a set ordered by `lt`, kept as its sorted list: nothing happens if an
equivalent element is there. -/
def setInsert {α : Type} (lt : α → α → Bool) (x : α) : List α → List α
  | [] => [x]
  | y :: ys => if lt x y then x :: y :: ys else if lt y x then y :: setInsert lt x ys else y :: ys

/-- A `LevelState` of the builder. -/
structure LevelState where
  /-- `deleted_files`. -/
  deletedFiles : List ℕ
  /-- `added_files`, a `FileSet` ordered by `BySmallestKey`. -/
  addedFiles : List FileMeta
  /-- `deleted_guards`, a `KeySet` of internal keys. -/
  deletedGuards : List InternalKey
  /-- `added_guards`, a `GuardSet` ordered by `BySmallestGuard`. -/
  addedGuards : List InternalKey
  deriving DecidableEq, Repr

/-- A builder level with nothing applied. -/
def LevelState.empty : LevelState :=
  ⟨[], [], [], []⟩

/-- `Builder::Apply` on one level: deleted files, then added files (each taken out of the
deleted ones), then deleted guards, then added guards. -/
def LevelState.apply (st : LevelState) (e : LevelEdit) : LevelState :=
  let deleted := e.deletedFiles.foldl (fun d n ↦ if n ∈ d then d else d ++ [n]) st.deletedFiles
  let files := e.newFiles.foldl
    (fun acc f ↦ (acc.1.filter (· ≠ f.number), setInsert bySmallestKey f acc.2))
    (deleted, st.addedFiles)
  { deletedFiles := files.1,
    addedFiles := files.2,
    deletedGuards :=
      e.deletedGuards.foldl (fun d g ↦ if g ∈ d then d else d ++ [g]) st.deletedGuards,
    addedGuards := e.newGuards.foldl (fun gs g ↦ setInsert bySmallestGuard g gs) st.addedGuards }

/-! ## `Builder::SaveTo` -/

/-- `MaybeAddFile` for a list of files in turn. -/
def maybeAddFiles (deleted : List ℕ) (files : List FileMeta) : List FileMeta :=
  files.filter fun f ↦ f.number ∉ deleted

/-- The merge of `SaveTo`: for each added file in order, the base files that do not come after
it (`std::upper_bound`), then the file itself; then the rest of the base files. -/
def mergeFiles (deleted : List ℕ) : List FileMeta → List FileMeta → List FileMeta
  | base, [] => maybeAddFiles deleted base
  | base, a :: added =>
    let r := base.span fun b ↦ !bySmallestKey a b
    maybeAddFiles deleted (r.1 ++ [a]) ++ mergeFiles deleted r.2 added

/-- `MaybeAddGuard`: a guard with the user key of the last one added, or a deleted one, is
skipped. The second component is `last_inserted`. -/
def maybeAddGuard (deleted : List InternalKey) (acc : List InternalKey × Option InternalKey)
    (g : InternalKey) : List InternalKey × Option InternalKey :=
  if (acc.2.map (·.userKey)) = some g.userKey then acc
  else if g ∈ deleted then acc
  else (acc.1 ++ [g], some g)

/-- The merge of the guards in `SaveTo`, in the same way as the files. -/
def mergeGuards (deleted : List InternalKey) :
    List InternalKey → List InternalKey → List InternalKey × Option InternalKey →
      List InternalKey × Option InternalKey
  | base, [], acc => base.foldl (maybeAddGuard deleted) acc
  | base, a :: added, acc =>
    let r := base.span fun b ↦ !bySmallestGuard a b
    mergeGuards deleted r.2 added ((r.1 ++ [a]).foldl (maybeAddGuard deleted) acc)

/-- `IsFileAlreadyPresent` and the push that follows it. -/
def addToGuard (files : List FileMeta) (f : FileMeta) : List FileMeta :=
  if files.any (·.number == f.number) then files else files ++ [f]

/-- The files of a guard and of the guards after it, `guards` being the keys of those after it:
a guard takes the files whose largest key is below the next guard, the last guard the rest. -/
def guardFiles : List FileMeta → List InternalKey → List (List FileMeta)
  | files, [] => [files.foldl addToGuard []]
  | files, g :: guards =>
    let r := files.span fun f ↦ f.largest.lt g
    r.1.foldl addToGuard [] :: guardFiles r.2 guards

/-- `PopulateFilesToGuardsAndSentinels`: the sentinel files and the files of each guard. -/
def populateFilesToGuardsAndSentinels (files : List FileMeta) (guards : List InternalKey) :
    List FileMeta × List (List FileMeta) :=
  match guards with
  | [] => (files, [])
  | g :: gs =>
    let r := files.span fun f ↦ f.largest.lt g
    (r.1, guardFiles r.2 gs)

/-- `SaveTo` for one level. -/
def saveTo (base : Level) (st : LevelState) : Level :=
  let files := mergeFiles st.deletedFiles base.files st.addedFiles
  let guards := (mergeGuards st.deletedGuards base.guards st.addedGuards ([], none)).1
  let populated := populateFilesToGuardsAndSentinels files guards
  ⟨files, guards, populated.1, populated.2⟩


/-! ## Each file once, below the next guard -/

theorem foldl_addToGuard {acc files : List FileMeta}
    (hnodup : ((acc ++ files).map (·.number)).Nodup) :
    files.foldl addToGuard acc = acc ++ files := by
  induction files generalizing acc with
  | nil => simp
  | cons f files ih =>
    -- `f`'s number is new, so `IsFileAlreadyPresent` fails and `f` is pushed
    have hnew : (acc.any fun g ↦ g.number == f.number) = false := by
      rw [List.map_append, List.map_cons] at hnodup
      have hf : f.number ∉ acc.map (·.number) :=
        fun hmem ↦ (List.nodup_append.mp hnodup).2.2 _ hmem _ List.mem_cons_self rfl
      simpa [List.mem_map] using hf
    rw [List.foldl_cons, addToGuard, hnew, if_neg Bool.false_ne_true, ih (by simpa using hnodup)]
    simp

theorem mem_of_mem_foldl_addToGuard {files : List FileMeta} {f : FileMeta} :
    ∀ {acc : List FileMeta}, f ∈ files.foldl addToGuard acc → f ∈ acc ∨ f ∈ files := by
  induction files with
  | nil => exact fun h ↦ .inl h
  | cons g files ih =>
    intro acc h
    rcases ih h with h | h
    · unfold addToGuard at h
      split at h
      · exact .inl h
      · rcases List.mem_append.mp h with h | h
        · exact .inl h
        · exact .inr (List.mem_singleton.mp h ▸ List.mem_cons_self)
    · exact .inr (List.mem_cons_of_mem _ h)

/-- The guards' files, in order, are the files they were handed. -/
theorem flatten_guardFiles {files : List FileMeta} (hnodup : (files.map (·.number)).Nodup)
    (guards : List InternalKey) : (guardFiles files guards).flatten = files := by
  induction guards generalizing files with
  | nil =>
    have h : ((([] : List FileMeta) ++ files).map (·.number)).Nodup := by rwa [List.nil_append]
    simpa [guardFiles] using foldl_addToGuard h
  | cons g guards ih =>
    simp only [guardFiles, List.flatten_cons]
    -- the guard takes a prefix of the files, the next ones the rest
    set r := files.span fun f ↦ f.largest.lt g
    have hsplit : r.1 ++ r.2 = files := by simp [r, List.span_eq_takeWhile_dropWhile]
    have hnodup' : ((r.1 ++ r.2).map (·.number)).Nodup := hsplit ▸ hnodup
    rw [List.map_append, List.nodup_append] at hnodup'
    have h1 : ((([] : List FileMeta) ++ r.1).map (·.number)).Nodup := by
      rw [List.nil_append]
      exact hnodup'.1
    rw [foldl_addToGuard h1, List.nil_append, ih hnodup'.2.1, hsplit]

theorem length_guardFiles (files : List FileMeta) (guards : List InternalKey) :
    (guardFiles files guards).length = guards.length + 1 := by
  induction guards generalizing files with
  | nil => rfl
  | cons g guards ih => simp [guardFiles, ih]

/-- Each guard's files end below the next guard. -/
theorem guardFiles_lt (files : List FileMeta) (guards : List InternalKey) :
    ∀ q ∈ (guardFiles files guards).zip guards, ∀ f ∈ q.1, f.largest.lt q.2 = true := by
  induction guards generalizing files with
  | nil => simp [guardFiles]
  | cons g guards ih =>
    intro q hq f hf
    rw [guardFiles, List.zip_cons_cons, List.mem_cons] at hq
    rcases hq with rfl | hq
    · -- the files of this guard are the prefix whose largest keys are below `g`
      rcases mem_of_mem_foldl_addToGuard hf with hf | hf
      · cases hf
      · rw [List.span_eq_takeWhile_dropWhile] at hf
        have h := List.mem_takeWhile_imp hf
        exact h
    · exact ih _ q hq f hf

/-- **`PopulateFilesToGuardsAndSentinels` partitions the files of the level.** With distinct file
numbers, the sentinel files followed by the files of each guard are the files of the level in
their order, one list per guard; every sentinel file's largest key lies below the first guard,
and every file of a guard lies below the next guard. -/
theorem populateFilesToGuardsAndSentinels_partition {files : List FileMeta}
    (hnodup : (files.map (·.number)).Nodup) (guards : List InternalKey) :
    (populateFilesToGuardsAndSentinels files guards).1 ++
        (populateFilesToGuardsAndSentinels files guards).2.flatten = files ∧
      (populateFilesToGuardsAndSentinels files guards).2.length = guards.length ∧
      (∀ g ∈ guards.head?, ∀ f ∈ (populateFilesToGuardsAndSentinels files guards).1,
        f.largest.lt g = true) ∧
      ∀ q ∈ (populateFilesToGuardsAndSentinels files guards).2.zip guards.tail,
        ∀ f ∈ q.1, f.largest.lt q.2 = true := by
  cases guards with
  | nil => simp [populateFilesToGuardsAndSentinels]
  | cons g guards =>
    set r := files.span fun f ↦ f.largest.lt g
    have hsplit : r.1 ++ r.2 = files := by simp [r, List.span_eq_takeWhile_dropWhile]
    have hnodup' : ((r.1 ++ r.2).map (·.number)).Nodup := hsplit ▸ hnodup
    rw [List.map_append] at hnodup'
    refine ⟨?_, ?_, ?_, guardFiles_lt r.2 guards⟩
    · show r.1 ++ (guardFiles r.2 guards).flatten = files
      rw [flatten_guardFiles (List.nodup_append.mp hnodup').2.1, hsplit]
    · exact length_guardFiles r.2 guards
    · intro g' hg' f hf
      obtain rfl : g = g' := by simpa using hg'
      have hf' : f ∈ files.takeWhile fun f ↦ f.largest.lt g := by
        simpa [populateFilesToGuardsAndSentinels, List.span_eq_takeWhile_dropWhile] using hf
      have h := List.mem_takeWhile_imp hf'
      exact h


/-! ## Along runs of edits

A version is made by `LogAndApply`: a builder over the current version applies one edit, and
`SaveTo` saves the next version. The edits of flushes and compactions add files numbered by
`NewFileNumber`, so new to the level (`FreshEdit`). `SaveTo` takes its files from the base files
and the added ones, so the numbers stay distinct along such a run, and the placement above holds
of every version of it (`applyEdits_places_each_file_once`). -/

/-- A level as `SaveTo` leaves it. -/
structure Level.Partitioned (w : Level) : Prop where
  /-- The file numbers are distinct, -/
  nodup : (w.files.map (·.number)).Nodup
  /-- the sentinel files followed by the files of each guard are the files of the level, -/
  partition : w.sentinelFiles ++ w.guardFiles.flatten = w.files
  /-- one list per guard, -/
  length : w.guardFiles.length = w.guards.length
  /-- the sentinel files end below the first guard, -/
  sentinel_lt : ∀ g ∈ w.guards.head?, ∀ f ∈ w.sentinelFiles, f.largest.lt g = true
  /-- and the files of each guard below the next guard, in internal-key order. -/
  guard_lt : ∀ q ∈ w.guardFiles.zip w.guards.tail, ∀ f ∈ q.1, f.largest.lt q.2 = true

/-- A level with no file and no guard, as in a new `VersionSet`. -/
def Level.empty : Level :=
  ⟨[], [], [], []⟩

/-- An edit whose new files are new to the level: distinct numbers that no file of the level has,
as `NewFileNumber` hands them to flushes and compactions. -/
def FreshEdit (v : Level) (e : LevelEdit) : Prop :=
  (e.newFiles.map (·.number)).Nodup ∧ ∀ f ∈ e.newFiles, f.number ∉ v.files.map (·.number)

/-- `LogAndApply` of each edit in turn, on one level. -/
def applyEdits : Level → List LevelEdit → Level
  | v, [] => v
  | v, e :: es => applyEdits (saveTo v (LevelState.empty.apply e)) es

/-- A run of edits, each fresh for the version it is applied to. -/
def FreshRun : Level → List LevelEdit → Prop
  | _, [] => True
  | v, e :: es => FreshEdit v e ∧ FreshRun (saveTo v (LevelState.empty.apply e)) es

theorem nodup_map_of_subperm {l L : List FileMeta} (h : l.Subperm L)
    (hL : (L.map (·.number)).Nodup) : (l.map (·.number)).Nodup := by
  obtain ⟨l', hperm, hsub⟩ := h
  exact (hperm.map _).nodup_iff.1 (hL.sublist (hsub.map _))

/-- `setInsert` adds its element or nothing. -/
theorem setInsert_subperm {α : Type} (lt : α → α → Bool) (x : α) :
    ∀ ys : List α, (setInsert lt x ys).Subperm (x :: ys)
  | [] => List.Subperm.refl _
  | y :: ys => by
    unfold setInsert
    split
    · exact List.Subperm.refl _
    · split
      · -- `x` goes further in
        exact ((List.subperm_cons y).2 (setInsert_subperm lt x ys)).trans
          (List.Perm.swap x y ys).subperm
      · exact (List.sublist_cons_self x (y :: ys)).subperm

/-- Inserting files one by one into a set keeps at most the files inserted. -/
theorem foldl_setInsert_subperm {α : Type} (lt : α → α → Bool) :
    ∀ (fs a : List α), (fs.foldl (fun acc f ↦ setInsert lt f acc) a).Subperm (a ++ fs)
  | [], a => (List.sublist_append_left a []).subperm
  | f :: fs, a => by
    rw [List.foldl_cons]
    refine (foldl_setInsert_subperm lt fs _).trans ?_
    refine ((setInsert_subperm lt f a).append (List.Subperm.refl fs)).trans ?_
    exact List.perm_middle.symm.subperm

/-- `Apply` adds at most the new files of the edit. -/
theorem addedFiles_apply_subperm (e : LevelEdit) :
    (LevelState.empty.apply e).addedFiles.Subperm e.newFiles := by
  -- the second component of the fold is a fold of its own
  have hsnd : ∀ (fs : List FileMeta) (d : List ℕ) (a : List FileMeta),
      (fs.foldl (fun acc f ↦ (acc.1.filter (· ≠ f.number), setInsert bySmallestKey f acc.2))
        (d, a)).2 = fs.foldl (fun acc f ↦ setInsert bySmallestKey f acc) a := by
    intro fs
    induction fs with
    | nil => intro d a; rfl
    | cons f fs ih => intro d a; exact ih _ _
  have h := foldl_setInsert_subperm bySmallestKey e.newFiles []
  rw [List.nil_append] at h
  simpa only [LevelState.apply, LevelState.empty, hsnd] using h

/-- The merge of `SaveTo` keeps at most the base files and the added ones. -/
theorem mergeFiles_subperm (deleted : List ℕ) :
    ∀ (base added : List FileMeta), (mergeFiles deleted base added).Subperm (base ++ added)
  | base, [] => by
    rw [List.append_nil]
    exact (List.filter_sublist).subperm
  | base, a :: added => by
    rw [mergeFiles]
    set r := base.span fun b ↦ !bySmallestKey a b
    have hsplit : r.1 ++ r.2 = base := by simp [r, List.span_eq_takeWhile_dropWhile]
    refine ((List.filter_sublist).subperm.append (mergeFiles_subperm deleted r.2 added)).trans ?_
    -- `a` moves from after `r.1` to before `added`
    have hperm : ((r.1 ++ [a]) ++ (r.2 ++ added)).Perm (r.1 ++ r.2 ++ a :: added) := by
      simp only [List.append_assoc, List.singleton_append]
      exact List.perm_middle.symm.append_left r.1
    rw [← hsplit]
    exact hperm.subperm

/-- **A fresh edit keeps the file numbers distinct.** -/
theorem saveTo_nodup {v : Level} {e : LevelEdit} (hv : (v.files.map (·.number)).Nodup)
    (he : FreshEdit v e) : ((saveTo v (LevelState.empty.apply e)).files.map (·.number)).Nodup := by
  have hsub : (saveTo v (LevelState.empty.apply e)).files.Subperm (v.files ++ e.newFiles) :=
    (mergeFiles_subperm _ _ _).trans ((List.Subperm.refl _).append (addedFiles_apply_subperm e))
  refine nodup_map_of_subperm hsub ?_
  rw [List.map_append, List.nodup_append]
  refine ⟨hv, he.1, fun a ha b hb hab ↦ ?_⟩
  obtain ⟨f, hf, rfl⟩ := List.mem_map.1 hb
  exact he.2 f hf (hab ▸ ha)

/-- `SaveTo` after a fresh edit leaves the level partitioned. -/
theorem saveTo_partitioned {v : Level} {e : LevelEdit} (hv : (v.files.map (·.number)).Nodup)
    (he : FreshEdit v e) : (saveTo v (LevelState.empty.apply e)).Partitioned :=
  have hnodup := saveTo_nodup hv he
  have h := populateFilesToGuardsAndSentinels_partition hnodup
    (saveTo v (LevelState.empty.apply e)).guards
  ⟨hnodup, h.1, h.2.1, h.2.2.1, h.2.2.2⟩

/-- The run lemma: a fresh run keeps a level partitioned. The induction is on the edits. -/
theorem Level.Partitioned.applyEdits :
    ∀ {v : Level} (es : List LevelEdit), v.Partitioned → FreshRun v es →
      (VersionBuilder.applyEdits v es).Partitioned
  | _, [], h, _ => h
  | _, _ :: es, h, ⟨he, hrun⟩ => Level.Partitioned.applyEdits es (saveTo_partitioned h.nodup he) hrun

theorem partitioned_empty : Level.empty.Partitioned :=
  ⟨List.nodup_nil, rfl, rfl, fun _ h ↦ absurd h (by simp [Level.empty]), fun _ h ↦
    absurd h (by simp [Level.empty])⟩

/-- The two edits of level 1: the compaction that writes file 5, then the one that adds guard
`[2]` and file 9. -/
def straddleRun : List LevelEdit :=
  [⟨[], [⟨5, ⟨[1], 3, 1⟩, ⟨[3], 4, 1⟩⟩], [], []⟩,
    ⟨[], [⟨9, ⟨[2], 7, 1⟩, ⟨[2], 7, 1⟩⟩], [], [⟨[2], 6, 1⟩]⟩]

end PebblesDB.Db.VersionBuilder
