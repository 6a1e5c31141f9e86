import Mathlib.Logic.Function.Basic
import Mathlib.Tactic.Set
import Mathlib.Tactic.SplitIfs
import Mathlib.Data.List.Nodup
import PebblesDB.Lib.Run
import PebblesDB.Util.Bloom

/-!
# File-level filters

PebblesDB keeps one filter per table file in memory, `file_level_bloom_filter` of the
`VersionSet`, and `Version::Get` skips a file whose filter rejects the key it looks for. A
filter is made by a `FileLevelFilterBuilder` that collects the internal keys added to a table
and hands them to `InternalFilterPolicy::CreateFilter`, which strips their eight-byte tags and
calls the user's policy. The filters reach the map along three paths:

* the memtable flush: `BuildLevel0Tables` generates a filter after each table whose `Finish`
  succeeds, `WriteLevel0TableGuards` returns the numbers of those tables followed by the
  reserved numbers it did not use, and `LogAndApply` pairs the two lists by index, up to the
  shorter one;
* a compaction: `FinishCompactionOutputFile` generates a filter for every output, and
  `InstallCompactionResults` passes them to `LogAndApply` with the output numbers;
* `DB::Open`: `RecoverLogFile` flushes the replayed memtable the same way and pairs the lists
  itself, and `InitializeFileLevelBloomFilter` builds a filter for every file of the recovered
  version that has none.

Each background thread keeps one builder for its whole life: a table whose `Finish` fails
leaves its keys in the builder, and they go into the filter of the next table. A filter then
covers more keys than its file, which costs only false positives.

The map is a shared structure of the process; a crash empties it. The file numbers of the jobs
are fresh (`PebblesDB.Db.Files`); here a counter hands them out, and after a crash it restarts
anywhere above the files of the recovered version.

## The defect

The final flush of `RecoverLogFile` pairs `numbers[i]` with `file_level_filters[i]` for every
`i < numbers.size()`, although there is one filter per table and `numbers` also carries the
unused reserved numbers. Reading past the end of the vector is undefined; the model lets it
return any value (`junk`). When a table's `Finish` fails and a later one succeeds, the later
table's number occurs twice in `numbers`, and its second occurrence is paired with such a
value: a live file then carries a filter that need not hold its keys
(`replayRun_breaks_filter`). In every run without that failure, filters have no false
negatives (`reachable_noFalseNegatives`).
-/

namespace PebblesDB.Db.FileFilter

/-! ## Filter policies -/

/-- A `FilterPolicy`: `CreateFilter` into an empty string, and `KeyMayMatch`. -/
structure FilterPolicy where
  /-- `CreateFilter`. -/
  createFilter : List (List UInt8) → List UInt8
  /-- `KeyMayMatch`. -/
  keyMayMatch : List UInt8 → List UInt8 → Bool

/-- The contract of `filter_policy.h`: `KeyMayMatch` "must return true if the key was in the
list of keys passed to `CreateFilter()`". -/
def FilterPolicy.NoFalseNegatives (policy : FilterPolicy) : Prop :=
  ∀ keys key, key ∈ keys → policy.keyMayMatch key (policy.createFilter keys) = true

/-- The policy of `NewBloomFilterPolicy`. -/
def FilterPolicy.bloom (p : BloomFilterPolicy) : FilterPolicy :=
  ⟨p.createFilter, bloomKeyMayMatch⟩

theorem FilterPolicy.bloom_noFalseNegatives (p : BloomFilterPolicy) :
    (FilterPolicy.bloom p).NoFalseNegatives :=
  fun _ _ hkey ↦ p.keyMayMatch_createFilter hkey

/-- `ExtractUserKey`: an internal key without its eight-byte tag. -/
def extractUserKey (internalKey : List UInt8) : List UInt8 :=
  internalKey.take (internalKey.length - 8)

/-- `InternalFilterPolicy`: the user's policy on user keys. -/
def internalFilterPolicy (userPolicy : FilterPolicy) : FilterPolicy where
  createFilter keys := userPolicy.createFilter (keys.map extractUserKey)
  keyMayMatch key filter := userPolicy.keyMayMatch (extractUserKey key) filter

/-- `kValueTypeForSeek`, that is `kTypeValue`. -/
def kValueTypeForSeek : UInt8 := 1

/-- `PackSequenceAndType`. -/
def packSequenceAndType (sequence : UInt64) (type : UInt8) : UInt64 :=
  (sequence <<< 8) ||| type.toUInt64

/-- `LookupKey(user_key, s).internal_key()`: the user key and the tag of `s`. -/
def lookupKey (userKey : List UInt8) (sequence : UInt64) : List UInt8 :=
  userKey ++ encodeFixed64 (packSequenceAndType sequence kValueTypeForSeek)

/-! ## Tables and the filter builder -/

/-- A filter: the string `CreateFilter` appended to. -/
abbrev Filter := List UInt8

/-- A table file: its number and the internal keys added to its `TableBuilder`. -/
structure TableFile where
  /-- The file number. -/
  number : ℕ
  /-- The internal keys of its entries. -/
  keys : List (List UInt8)
  deriving DecidableEq, Repr

/-- `FileLevelFilterBuilder::GenerateFilter` on the keys added since the builder was last
cleared: `NULL` for none, else the filter of the internal policy; the builder is cleared. -/
def generateFilter (policy : FilterPolicy) (keys : List (List UInt8)) : Option Filter :=
  if keys.isEmpty then none else some ((internalFilterPolicy policy).createFilter keys)

/-- One table of `BuildLevel0Tables`: the keys it gets, and whether `TableBuilder::Finish`
succeeds. -/
structure TablePlan where
  /-- The internal keys added to the table. -/
  keys : List (List UInt8)
  /-- The status of `Finish`. -/
  finished : Bool
  deriving DecidableEq, Repr

/-- The state of `BuildLevel0Tables` between tables. -/
structure BuildState where
  /-- The keys in the thread's `FileLevelFilterBuilder`. -/
  builder : List (List UInt8)
  /-- `file_number_index`. -/
  fileNumberIndex : ℕ
  /-- `next_file_number_`, for the numbers past the reserved ones. -/
  nextFileNumber : ℕ
  /-- `meta_list`. -/
  metaList : List TableFile
  /-- `filter_list`, one entry per table of `meta_list`. -/
  filterList : List (Option Filter)

/-- The number of the next table: the next reserved number, or `NewFileNumber`. -/
def nextNumber (reserved : List ℕ) (st : BuildState) : ℕ × BuildState :=
  if h : st.fileNumberIndex < reserved.length then
    (reserved[st.fileNumberIndex], { st with fileNumberIndex := st.fileNumberIndex + 1 })
  else (st.nextFileNumber, { st with nextFileNumber := st.nextFileNumber + 1 })

/-- One table of `BuildLevel0Tables`: every key goes to the table and to the filter builder
(`AddKey`); if `Finish` succeeds the table joins `meta_list` and `AddFilterString` generates its
filter, else the keys stay in the builder. -/
def buildTable (policy : FilterPolicy) (reserved : List ℕ) (st : BuildState) (plan : TablePlan) :
    BuildState :=
  let number := (nextNumber reserved st).1
  let st := (nextNumber reserved st).2
  let builder := st.builder ++ plan.keys
  if plan.finished then
    { st with builder := [], metaList := st.metaList ++ [⟨number, plan.keys⟩],
              filterList := st.filterList ++ [generateFilter policy builder] }
  else { st with builder := builder }

/-- `BuildLevel0Tables`. -/
def buildLevel0Tables (policy : FilterPolicy) (reserved : List ℕ) (st : BuildState)
    (plans : List TablePlan) : BuildState :=
  plans.foldl (buildTable policy reserved) st

/-- The `numbers` of `WriteLevel0TableGuards`: the tables of `meta_list` when the build
returned OK (`built`), then the reserved numbers from `meta_list.size()` on. -/
def writeLevel0Numbers (built : Bool) (reserved : List ℕ) (metaList : List TableFile) :
    List ℕ :=
  (if built then metaList.map (·.number) else []) ++ reserved.drop metaList.length

/-- `AddFileLevelBloomFilterInfo` for each pair in turn. -/
def addFilters (filters : ℕ → Option Filter) (pairs : List (ℕ × Option Filter)) :
    ℕ → Option Filter :=
  pairs.foldl (fun filters p ↦ Function.update filters p.1 p.2) filters

/-- The pairing of `LogAndApply` and of `RecoverLogFile`'s flushes in the loop:
`i < file_numbers.size() && i < file_level_filters.size()`. -/
def pairShorter (numbers : List ℕ) (filterList : List (Option Filter)) :
    List (ℕ × Option Filter) :=
  numbers.zip filterList

/-- The pairing of `RecoverLogFile`'s final flush: every `i < numbers.size()`, reading
`file_level_filters[i]` past its end where `junk` says. -/
def pairAll (junk : ℕ → Option Filter) (numbers : List ℕ) (filterList : List (Option Filter)) :
    List (ℕ × Option Filter) :=
  numbers.mapIdx fun i n ↦ (n, filterList[i]?.getD (junk i))

/-! ## The store -/

/-- The state the filters live in. -/
structure State where
  /-- `next_file_number_`. -/
  nextFileNumber : ℕ
  /-- The files of `current_`. -/
  current : List TableFile
  /-- The files of the older versions that are still referenced. -/
  oldVersions : List (List TableFile)
  /-- `file_level_bloom_filter`; `NULL` and absent alike are `none`. -/
  filters : ℕ → Option Filter
  /-- The `FileLevelFilterBuilder` of `CompactMemTableThread`. -/
  memtableBuilder : List (List UInt8)
  /-- The `FileLevelFilterBuilder` of `CompactLevelThread`. -/
  compactionBuilder : List (List UInt8)

/-- Every file of a live version. -/
def State.liveFiles (s : State) : List TableFile :=
  s.current ++ s.oldVersions.flatten

/-- One memtable flush in the replay of a log: the number of level-0 guards of the base
version, and the tables. -/
structure ReplayFlush where
  /-- The level-0 guards of the base version. -/
  numGuards : ℕ
  /-- The tables of `BuildLevel0Tables`. -/
  plans : List TablePlan
  deriving DecidableEq, Repr

/-- The replay of one log by `RecoverLogFile`: the flushes when the memtable fills, then the
flush of what is left. -/
structure ReplayLog where
  /-- The flushes inside the loop. -/
  flushes : List ReplayFlush
  /-- The flush after the loop, if the memtable is not empty. -/
  final : Option ReplayFlush
  deriving DecidableEq, Repr

/-- A build returns OK only if its last table's `Finish` did (a later `NewWritableFile`
overwrites the status of an earlier failure). -/
def lastFinished (plans : List TablePlan) : Bool :=
  (plans.getLast?.map (·.finished)).getD true

/-- The state of `DB::Open` while it replays logs: the counter, the filter map, the builder of
the current `RecoverLogFile`, and the tables added to the edit. -/
structure ReplayState where
  /-- `next_file_number_`. -/
  nextFileNumber : ℕ
  /-- `file_level_bloom_filter`. -/
  filters : ℕ → Option Filter
  /-- The `FileLevelFilterBuilder` of `RecoverLogFile`. -/
  builder : List (List UInt8)
  /-- The tables `WriteLevel0TableGuards` added to the edit. -/
  tables : List TableFile

/-- One `WriteLevel0TableGuards` of the replay, and the pairing that follows it. -/
def replayFlush (policy : FilterPolicy) (pair : List ℕ → List (Option Filter) →
    List (ℕ × Option Filter)) (r : ReplayState) (flush : ReplayFlush) : ReplayState :=
  let reserved := List.range' r.nextFileNumber (flush.numGuards + 1)
  let st := buildLevel0Tables policy reserved
    ⟨r.builder, 0, r.nextFileNumber + (flush.numGuards + 1), [], []⟩ flush.plans
  let numbers := writeLevel0Numbers true reserved st.metaList
  { nextFileNumber := st.nextFileNumber,
    filters := addFilters r.filters (pair numbers st.filterList),
    builder := st.builder,
    tables := r.tables ++ st.metaList }

/-- `RecoverLogFile` for one log, with a builder of its own. -/
def recoverLogFile (policy : FilterPolicy) (junk : ℕ → Option Filter) (r : ReplayState)
    (log : ReplayLog) : ReplayState :=
  let r := log.flushes.foldl (replayFlush policy pairShorter) { r with builder := [] }
  match log.final with
  | some flush => replayFlush policy (pairAll junk) r flush
  | none => r

/-- `PopulateBloomFilterForFile`: a file with no filter gets the filter of all its keys, if it
has any. -/
def populateBloomFilterForFile (policy : FilterPolicy) (filters : ℕ → Option Filter)
    (file : TableFile) : ℕ → Option Filter :=
  if (filters file.number).isSome || file.keys.isEmpty then filters
  else Function.update filters file.number (generateFilter policy file.keys)

/-- One atomic step. A flush and a compaction touch only their thread's builder and the counter
until they take the mutex for `LogAndApply`, so each is one step here. -/
inductive Action
  /-- `CompactMemTableThread`: `WriteLevel0TableGuards` with `numGuards` level-0 guards, the
  status `built` of `BuildLevel0Tables`, and the status `logOk` of the MANIFEST write. -/
  | flush (numGuards : ℕ) (plans : List TablePlan) (built logOk : Bool)
  /-- A compaction of the files `inputs` whose outputs get the keys `outputs`. With `failed`
  it stops after them, having added `failed`'s keys to a further output; `logOk` is the status
  of the MANIFEST write. -/
  | compaction (inputs : List ℕ) (outputs : List (List (List UInt8)))
      (failed : Option (List (List UInt8))) (logOk : Bool)
  /-- `DeleteObsoleteFiles`, with the table files `onDisk` in the directory. -/
  | deleteObsoleteFiles (onDisk : List ℕ)
  /-- A reader or a compaction takes a reference to `current_`. -/
  | refVersion
  /-- The `k`-th older version loses its last reference. -/
  | unrefVersion (k : ℕ)
  /-- A crash, then `DB::Open` with the counter restarting at `nextFileNumber`: the replay of
  `logs`, with `junk` what the final flushes read past the end of their filter lists. -/
  | reopen (nextFileNumber : ℕ) (logs : List ReplayLog) (junk : ℕ → Option Filter)

namespace State

variable (policy : FilterPolicy)

/-- `CompactMemTableThread`: one flush. The filters are added in `LogAndApply` whatever the
status of the MANIFEST write, the tables only if it succeeded. -/
def flush (s : State) (numGuards : ℕ) (plans : List TablePlan) (built logOk : Bool) : State :=
  let reserved := List.range' s.nextFileNumber (numGuards + 1)
  let st := buildLevel0Tables policy reserved
    ⟨s.memtableBuilder, 0, s.nextFileNumber + (numGuards + 1), [], []⟩ plans
  let numbers := writeLevel0Numbers built reserved st.metaList
  { s with
    nextFileNumber := st.nextFileNumber,
    memtableBuilder := st.builder,
    -- `LogAndApply` runs only after a successful build
    filters := if built then addFilters s.filters (pairShorter numbers st.filterList)
      else s.filters,
    current := if built && logOk then s.current ++ st.metaList else s.current }

/-- One output of `DoCompactionWorkGuards`: `OpenCompactionOutputFile` names it, its keys go to
the table and the builder, and `FinishCompactionOutputFile` generates its filter. -/
def compactionOutput (s : State) (acc : List TableFile × List (Option Filter))
    (keys : List (List UInt8)) : State × (List TableFile × List (Option Filter)) :=
  ({ s with nextFileNumber := s.nextFileNumber + 1, compactionBuilder := [] },
   (acc.1 ++ [⟨s.nextFileNumber, keys⟩],
    acc.2 ++ [generateFilter policy (s.compactionBuilder ++ keys)]))

/-- The outputs of a compaction in turn. -/
def compactionOutputs (s : State) (acc : List TableFile × List (Option Filter)) :
    List (List (List UInt8)) → State × (List TableFile × List (Option Filter))
  | [] => (s, acc)
  | keys :: rest =>
    let next := compactionOutput policy s acc keys
    compactionOutputs next.1 next.2 rest

/-- `BackgroundCompactionGuards`: the outputs, then either the failure or
`InstallCompactionResults`. -/
def compaction (s : State) (inputs : List ℕ) (outputs : List (List (List UInt8)))
    (failed : Option (List (List UInt8))) (logOk : Bool) : State :=
  let done := compactionOutputs policy s ([], []) outputs
  let s' := done.1
  match failed with
  | some keys =>
    -- the open output is abandoned, its keys stay in the builder
    { s' with nextFileNumber := s'.nextFileNumber + 1,
              compactionBuilder := s'.compactionBuilder ++ keys }
  | none =>
    { s' with
      filters := addFilters s'.filters (pairShorter (done.2.1.map (·.number)) done.2.2),
      current := if logOk then s'.current.filter (·.number ∉ inputs) ++ done.2.1
        else s'.current }

/-- `DeleteObsoleteFiles`: the filter of a table file that no live version holds is removed
with the file. -/
def deleteObsoleteFiles (s : State) (onDisk : List ℕ) : State :=
  { s with filters := fun n ↦
      if n ∈ onDisk ∧ n ∉ s.liveFiles.map (·.number) then none else s.filters n }

/-- `DB::Open` after a crash: the replay, `LogAndApply` of its tables, and
`InitializeFileLevelBloomFilter`. -/
def reopen (s : State) (nextFileNumber : ℕ) (logs : List ReplayLog)
    (junk : ℕ → Option Filter) : State :=
  let r := logs.foldl (recoverLogFile policy junk) ⟨nextFileNumber, fun _ ↦ none, [], []⟩
  let current := s.current ++ r.tables
  { nextFileNumber := r.nextFileNumber,
    current := current,
    oldVersions := [],
    filters := current.foldl (populateBloomFilterForFile policy) r.filters,
    memtableBuilder := [],
    compactionBuilder := [] }

end State

/-- One step of the model; `none` where the step is not enabled. -/
def exec (policy : FilterPolicy) (s : State) : Action → Option State
  | .flush numGuards plans built logOk =>
    if built && !lastFinished plans then none
    else some (s.flush policy numGuards plans built logOk)
  | .compaction inputs outputs failed logOk =>
    some (s.compaction policy inputs outputs failed logOk)
  | .deleteObsoleteFiles onDisk => some (s.deleteObsoleteFiles onDisk)
  | .refVersion => some { s with oldVersions := s.current :: s.oldVersions }
  | .unrefVersion k =>
    if k < s.oldVersions.length then some { s with oldVersions := s.oldVersions.eraseIdx k }
    else none
  | .reopen nextFileNumber logs junk =>
    -- the counter restarts above every file of the recovered version, and `Open` succeeds
    -- only if every flush of the replay returned OK
    if (s.current.all fun f ↦ f.number < nextFileNumber) &&
        (logs.all fun log ↦ (log.flushes ++ log.final.toList).all fun f ↦ lastFinished f.plans)
    then some (s.reopen policy nextFileNumber logs junk)
    else none

/-- The state of a new database, with the counter of `PebblesDB.Db.Files.Store.opened`. -/
def State.empty : State :=
  ⟨4, [], [], fun _ ↦ none, [], []⟩


/-! ## The defect at work

A replay whose final flush has one level-0 guard: the first table's `Finish` fails and the
second's succeeds. The reserved numbers are 4 and 5; the failed table used 4, so the second
table is 5 and `numbers` is `[5, 5]` against one filter. The second 5 gets what lies past the
end of the filter list, here a filter with no bits set, and `PopulateBloomFilterForFile` then
leaves the file alone. -/

/-- `NewBloomFilterPolicy(10)`: ten bits per key, six probes. -/
def tenBits : BloomFilterPolicy :=
  ⟨10, 6, by decide, by decide⟩

/-- A filter with no bits set and one probe, which matches no key. -/
def rejecting : Filter :=
  List.replicate 8 0 ++ [1]

/-- The reopening: one log whose final flush loses its first table. -/
def replayRun : List Action :=
  [.reopen 4 [⟨[], some ⟨1, [⟨[lookupKey [1] 1], false⟩, ⟨[lookupKey [2] 2], true⟩]⟩⟩]
    (fun _ ↦ some rejecting)]

/-- After the reopening, live table 5 holds user key `[2]` at sequence 2, but its filter rejects
the lookup of `[2]` at sequence 7, so `Version::Get` skips the file. -/
theorem replayRun_breaks_filter :
    ∃ s, Machine.run (exec (FilterPolicy.bloom tenBits)) State.empty replayRun = some s ∧
      ⟨5, [lookupKey [2] 2]⟩ ∈ s.liveFiles ∧
      s.filters 5 = some rejecting ∧
      (internalFilterPolicy (FilterPolicy.bloom tenBits)).keyMayMatch (lookupKey [2] 7)
        rejecting = false :=
  ⟨_, rfl, by decide, rfl, by decide⟩

/-! ## Filters that cover their tables -/

theorem extractUserKey_lookupKey (userKey : List UInt8) (sequence : UInt64) :
    extractUserKey (lookupKey userKey sequence) = userKey := by
  simp [extractUserKey, lookupKey]

/-- The filter `φ` was created from a set of keys that holds `keys`. -/
def Covers (policy : FilterPolicy) (φ : Filter) (keys : List (List UInt8)) : Prop :=
  ∃ created, φ = (internalFilterPolicy policy).createFilter created ∧ ∀ key ∈ keys, key ∈ created

variable {policy : FilterPolicy}

theorem covers_of_generateFilter {created keys : List (List UInt8)} {φ : Filter}
    (h : generateFilter policy created = some φ) (hsub : ∀ key ∈ keys, key ∈ created) :
    Covers policy φ keys := by
  unfold generateFilter at h
  split at h
  · cases h
  · exact ⟨created, (Option.some_inj.mp h).symm, hsub⟩

/-- A covering filter matches the lookup key of every key it covers, at every sequence
number, as long as the user's policy has no false negatives. -/
theorem keyMayMatch_of_covers (hpolicy : policy.NoFalseNegatives) {φ : Filter}
    {keys : List (List UInt8)} (hcov : Covers policy φ keys) {key : List UInt8}
    (hkey : key ∈ keys) (sequence : UInt64) :
    (internalFilterPolicy policy).keyMayMatch (lookupKey (extractUserKey key) sequence) φ =
      true := by
  obtain ⟨created, rfl, hsub⟩ := hcov
  simp only [internalFilterPolicy, extractUserKey_lookupKey]
  exact hpolicy _ _ (List.mem_map_of_mem (hsub key hkey))

/-! ## Installing filters -/

theorem addFilters_append (filters : ℕ → Option Filter) (pairs pairs' : List (ℕ × Option Filter)) :
    addFilters filters (pairs ++ pairs') = addFilters (addFilters filters pairs) pairs' :=
  List.foldl_append

/-- A number no pair names keeps its entry. -/
theorem addFilters_of_not_mem {filters : ℕ → Option Filter} {pairs : List (ℕ × Option Filter)}
    {n : ℕ} (h : n ∉ pairs.map Prod.fst) : addFilters filters pairs n = filters n := by
  induction pairs generalizing filters with
  | nil => rfl
  | cons p ps ih =>
    rw [List.map_cons, List.mem_cons, not_or] at h
    rw [addFilters, List.foldl_cons, ← addFilters, ih h.2, Function.update_of_ne h.1]

/-- Among pairs naming distinct numbers, each number gets its own filter. -/
theorem addFilters_of_mem {filters : ℕ → Option Filter} {pairs : List (ℕ × Option Filter)}
    (hnodup : (pairs.map Prod.fst).Nodup) {p : ℕ × Option Filter} (hp : p ∈ pairs) :
    addFilters filters pairs p.1 = p.2 := by
  induction pairs generalizing filters with
  | nil => cases hp
  | cons q qs ih =>
    rw [List.map_cons, List.nodup_cons] at hnodup
    rw [addFilters, List.foldl_cons, ← addFilters]
    rcases List.mem_cons.mp hp with rfl | hp
    · rw [addFilters_of_not_mem hnodup.1, Function.update_self]
    · exact ih hnodup.2 hp

/-- Every entry of the result was an entry before or is named by a pair. -/
theorem isSome_addFilters {filters : ℕ → Option Filter} {pairs : List (ℕ × Option Filter)}
    {n : ℕ} (h : (addFilters filters pairs n).isSome) :
    (filters n).isSome ∨ n ∈ pairs.map Prod.fst := by
  by_cases hn : n ∈ pairs.map Prod.fst
  · exact .inr hn
  · rw [addFilters_of_not_mem hn] at h
    exact .inl h


/-- The final flush of `RecoverLogFile` pairs the tables as `LogAndApply` does, then reads past
the end of the filter list for the numbers that follow. -/
theorem pairAll_append (junk : ℕ → Option Filter) {numbers extras : List ℕ}
    {filterList : List (Option Filter)} (hlen : numbers.length = filterList.length) :
    pairAll junk (numbers ++ extras) filterList =
      pairShorter numbers filterList ++
        extras.mapIdx fun j n ↦ (n, junk (j + numbers.length)) := by
  unfold pairAll pairShorter
  rw [List.mapIdx_append]
  congr 1
  · refine List.ext_getElem (by simp [hlen]) fun i h₁ h₂ ↦ ?_
    have hi : i < filterList.length := by simpa [hlen] using h₁
    simp [List.getElem?_eq_getElem hi]
  · refine List.ext_getElem (by simp) fun j h₁ h₂ ↦ ?_
    have hj : filterList.length ≤ j + numbers.length := by omega
    simp [List.getElem?_eq_none hj]


/-! ## `BuildLevel0Tables` -/

section Build

variable {reserved : List ℕ} {st : BuildState} {plan : TablePlan}

@[simp] theorem nextNumber_fileNumberIndex :
    (nextNumber reserved st).2.fileNumberIndex =
      if st.fileNumberIndex < reserved.length then st.fileNumberIndex + 1
      else st.fileNumberIndex := by
  unfold nextNumber
  split <;> simp [*]

@[simp] theorem nextNumber_nextFileNumber :
    (nextNumber reserved st).2.nextFileNumber =
      if st.fileNumberIndex < reserved.length then st.nextFileNumber
      else st.nextFileNumber + 1 := by
  unfold nextNumber
  split <;> simp [*]

@[simp] theorem nextNumber_builder : (nextNumber reserved st).2.builder = st.builder := by
  unfold nextNumber
  split <;> rfl

@[simp] theorem nextNumber_metaList : (nextNumber reserved st).2.metaList = st.metaList := by
  unfold nextNumber
  split <;> rfl

@[simp] theorem nextNumber_filterList :
    (nextNumber reserved st).2.filterList = st.filterList := by
  unfold nextNumber
  split <;> rfl

/-- With the reserved numbers `base, …, base + len - 1`, the next table gets `base + i` for the
`i`-th reserved number, then the counter. -/
theorem nextNumber_range' (base len : ℕ) (st : BuildState) :
    (nextNumber (List.range' base len) st).1 =
      if st.fileNumberIndex < len then base + st.fileNumberIndex else st.nextFileNumber := by
  unfold nextNumber
  split
  · next h =>
    rw [List.length_range'] at h
    simp [h]
  · next h =>
    rw [List.length_range'] at h
    simp [h]

@[simp] theorem buildTable_fileNumberIndex :
    (buildTable policy reserved st plan).fileNumberIndex =
      (nextNumber reserved st).2.fileNumberIndex := by
  unfold buildTable
  split <;> rfl

@[simp] theorem buildTable_nextFileNumber :
    (buildTable policy reserved st plan).nextFileNumber =
      (nextNumber reserved st).2.nextFileNumber := by
  unfold buildTable
  split <;> rfl

theorem buildTable_metaList :
    (buildTable policy reserved st plan).metaList =
      st.metaList ++ if plan.finished then [⟨(nextNumber reserved st).1, plan.keys⟩] else [] := by
  unfold buildTable
  split <;> simp [*]

theorem buildTable_filterList :
    (buildTable policy reserved st plan).filterList =
      st.filterList ++
        if plan.finished then [generateFilter policy (st.builder ++ plan.keys)] else [] := by
  unfold buildTable
  split <;> simp [*]


variable (policy) (base len : ℕ)

/-- What holds between the tables of `BuildLevel0Tables` with the reserved numbers
`base, …, base + len - 1`: one filter per table, covering it, and the tables numbered in
increasing order from `base` on, below the number the next table gets. -/
structure BuildOk (st : BuildState) : Prop where
  length_eq : st.metaList.length = st.filterList.length
  covers : ∀ p ∈ st.metaList.zip st.filterList, ∀ φ, p.2 = some φ → Covers policy φ p.1.keys
  sorted : (st.metaList.map (·.number)).Pairwise (· < ·)
  base_le : ∀ t ∈ st.metaList, base ≤ t.number
  lt_next : ∀ t ∈ st.metaList, t.number < (nextNumber (List.range' base len) st).1
  next_ge : base + len ≤ st.nextFileNumber

variable {policy base len}

theorem BuildOk.start (builder : List (List UInt8)) :
    BuildOk policy base len ⟨builder, 0, base + len, [], []⟩ where
  length_eq := rfl
  covers := by simp
  sorted := List.Pairwise.nil
  base_le := by simp
  lt_next := by simp
  next_ge := Nat.le_refl _

/-- The numbers handed out increase from one table to the next. -/
theorem nextNumber_lt_buildTable (hnext : base + len ≤ st.nextFileNumber) :
    (nextNumber (List.range' base len) st).1 <
      (nextNumber (List.range' base len) (buildTable policy (List.range' base len) st plan)).1 := by
  simp only [nextNumber_range', buildTable_fileNumberIndex, buildTable_nextFileNumber,
    nextNumber_fileNumberIndex, nextNumber_nextFileNumber, List.length_range']
  split_ifs <;> omega

theorem base_le_nextNumber (hnext : base + len ≤ st.nextFileNumber) :
    base ≤ (nextNumber (List.range' base len) st).1 := by
  rw [nextNumber_range']
  split_ifs <;> omega

theorem nextNumber_le_nextFileNumber (hnext : base + len ≤ st.nextFileNumber) :
    (nextNumber (List.range' base len) st).1 ≤ st.nextFileNumber := by
  rw [nextNumber_range']
  split_ifs <;> omega

theorem nextFileNumber_le_buildTable :
    st.nextFileNumber ≤ (buildTable policy reserved st plan).nextFileNumber := by
  simp only [buildTable_nextFileNumber, nextNumber_nextFileNumber]
  split_ifs <;> omega

/-- One table keeps the invariant. -/
theorem buildOk_buildTable (h : BuildOk policy base len st) (plan : TablePlan) :
    BuildOk policy base len (buildTable policy (List.range' base len) st plan) := by
  have hge : base ≤ (nextNumber (List.range' base len) st).1 := base_le_nextNumber h.next_ge
  have hlt : (nextNumber (List.range' base len) st).1 <
      (nextNumber (List.range' base len) (buildTable policy (List.range' base len) st plan)).1 :=
    nextNumber_lt_buildTable h.next_ge
  have hnext : base + len ≤ (buildTable policy (List.range' base len) st plan).nextFileNumber :=
    Nat.le_trans h.next_ge nextFileNumber_le_buildTable
  cases hfin : plan.finished with
  | false =>
    -- the keys stay in the builder, and the table gets no filter
    have hmeta : (buildTable policy (List.range' base len) st plan).metaList = st.metaList := by
      simp [buildTable_metaList, hfin]
    have hfilter :
        (buildTable policy (List.range' base len) st plan).filterList = st.filterList := by
      simp [buildTable_filterList, hfin]
    exact
      { length_eq := by rw [hmeta, hfilter]; exact h.length_eq
        covers := by rw [hmeta, hfilter]; exact h.covers
        sorted := by rw [hmeta]; exact h.sorted
        base_le := by rw [hmeta]; exact h.base_le
        lt_next := fun t ht ↦ Nat.lt_trans (h.lt_next t (hmeta ▸ ht)) hlt
        next_ge := hnext }
  | true =>
    -- the table joins `meta_list` with the filter of everything in the builder
    set number := (nextNumber (List.range' base len) st).1
    have hmeta : (buildTable policy (List.range' base len) st plan).metaList =
        st.metaList ++ [⟨number, plan.keys⟩] := by
      simp [buildTable_metaList, hfin, number]
    have hfilter : (buildTable policy (List.range' base len) st plan).filterList =
        st.filterList ++ [generateFilter policy (st.builder ++ plan.keys)] := by
      simp [buildTable_filterList, hfin]
    refine ⟨?_, ?_, ?_, ?_, ?_, hnext⟩
    · simp [hmeta, hfilter, h.length_eq]
    · rw [hmeta, hfilter, List.zip_append h.length_eq]
      intro p hp φ hφ
      rcases List.mem_append.mp hp with hp | hp
      · exact h.covers p hp φ hφ
      · obtain rfl :
            p = (⟨number, plan.keys⟩, generateFilter policy (st.builder ++ plan.keys)) := by
          simpa using hp
        exact covers_of_generateFilter hφ fun key hkey ↦ List.mem_append_right _ hkey
    · rw [hmeta, List.map_append, List.pairwise_append]
      refine ⟨h.sorted, List.pairwise_singleton _ _, fun a ha b hb ↦ ?_⟩
      obtain ⟨t, ht, rfl⟩ := List.mem_map.mp ha
      rw [List.map_singleton, List.mem_singleton] at hb
      exact hb ▸ h.lt_next t ht
    · rw [hmeta]
      intro t ht
      rcases List.mem_append.mp ht with ht | ht
      · exact h.base_le t ht
      · rw [List.mem_singleton] at ht
        exact ht ▸ hge
    · rw [hmeta]
      intro t ht
      rcases List.mem_append.mp ht with ht | ht
      · exact Nat.lt_trans (h.lt_next t ht) hlt
      · rw [List.mem_singleton] at ht
        exact ht ▸ hlt

/-- The whole build keeps the invariant. -/
theorem buildOk_buildLevel0Tables (h : BuildOk policy base len st) (plans : List TablePlan) :
    BuildOk policy base len (buildLevel0Tables policy (List.range' base len) st plans) := by
  induction plans generalizing st with
  | nil => exact h
  | cons plan plans ih => exact ih (buildOk_buildTable h plan)

/-- Every table lies below the counter at the end. -/
theorem BuildOk.lt_nextFileNumber (h : BuildOk policy base len st) {t : TableFile}
    (ht : t ∈ st.metaList) : t.number < st.nextFileNumber :=
  Nat.lt_of_lt_of_le (h.lt_next t ht) (nextNumber_le_nextFileNumber h.next_ge)

theorem BuildOk.nodup (h : BuildOk policy base len st) : (st.metaList.map (·.number)).Nodup :=
  h.sorted.imp Nat.ne_of_lt


/-- When every table is finished, the reserved numbers are used in order: the build stands at
reserved index `min (#tables) len`. -/
theorem fileNumberIndex_buildLevel0Tables
    (hidx : st.fileNumberIndex = min st.metaList.length len) {plans : List TablePlan}
    (hall : ∀ plan ∈ plans, plan.finished = true) :
    (buildLevel0Tables policy (List.range' base len) st plans).fileNumberIndex =
      min (buildLevel0Tables policy (List.range' base len) st plans).metaList.length len := by
  induction plans generalizing st with
  | nil => exact hidx
  | cons plan plans ih =>
    refine ih ?_ fun p hp ↦ hall p (List.mem_cons_of_mem _ hp)
    have hfin := hall plan List.mem_cons_self
    simp only [buildTable_fileNumberIndex, nextNumber_fileNumberIndex, buildTable_metaList, hfin,
      if_true, List.length_append, List.length_singleton, List.length_range']
    split_ifs <;> omega

/-- When every table is finished, the reserved numbers left over lie above every table. -/
theorem BuildOk.lt_of_mem_drop (h : BuildOk policy base len st)
    (hidx : st.fileNumberIndex = min st.metaList.length len) {n : ℕ}
    (hn : n ∈ (List.range' base len).drop st.metaList.length) {t : TableFile}
    (ht : t ∈ st.metaList) : t.number < n := by
  rw [List.drop_range', List.mem_range'_1] at hn
  have hnum := h.lt_next t ht
  rw [nextNumber_range', if_pos (by omega)] at hnum
  omega

end Build

/-! ## Installing the filters of a build -/

section Install

variable {base len : ℕ} {st : BuildState} {filters : ℕ → Option Filter}
  {extra : List (ℕ × Option Filter)}

theorem mem_of_mem_pairShorter {numbers : List ℕ} {filterList : List (Option Filter)} {n : ℕ}
    (h : n ∈ (pairShorter numbers filterList).map Prod.fst) : n ∈ numbers := by
  obtain ⟨⟨a, b⟩, hp, rfl⟩ := List.mem_map.mp h
  exact (List.of_mem_zip hp).1

/-- The pairs installed after a build: each table of the build with its filter, then pairs for
numbers of the build's range that no table has. -/
def ExtraPairs (base : ℕ) (st : BuildState) (extra : List (ℕ × Option Filter)) : Prop :=
  ∀ p ∈ extra, base ≤ p.1 ∧ p.1 < st.nextFileNumber ∧ p.1 ∉ st.metaList.map (·.number)

/-- In a build whose tables all finish, the reserved numbers left over are unused numbers of the
build, whatever they are paired with. -/
theorem BuildOk.extraPairs_drop (h : BuildOk policy base len st)
    (hidx : st.fileNumberIndex = min st.metaList.length len) (junk : ℕ → Option Filter)
    (k : ℕ) :
    ExtraPairs base st
      (((List.range' base len).drop st.metaList.length).mapIdx fun j n ↦ (n, junk (j + k))) := by
  intro p hp
  obtain ⟨j, hj, rfl⟩ := List.mem_mapIdx.mp hp
  have hmem := List.getElem_mem hj
  generalize ((List.range' base len).drop st.metaList.length)[j] = n at hmem ⊢
  have hrange := hmem
  rw [List.drop_range', List.mem_range'_1] at hrange
  have hnext := h.next_ge
  refine ⟨by omega, by omega, fun hn ↦ ?_⟩
  obtain ⟨t, ht, htn⟩ := List.mem_map.mp hn
  exact Nat.ne_of_lt (h.lt_of_mem_drop hidx hmem ht) htn

variable (hbuild : BuildOk policy base len st) (hextra : ExtraPairs base st extra)
include hbuild hextra

/-- Installing a build's filters keeps every entry below the build's numbers. -/
theorem addFilters_build_of_lt {n : ℕ} (hn : n < base) :
    addFilters filters (pairShorter (st.metaList.map (·.number)) st.filterList ++ extra) n =
      filters n := by
  refine addFilters_of_not_mem fun hmem ↦ ?_
  rw [List.map_append, List.mem_append] at hmem
  rcases hmem with hmem | hmem
  · obtain ⟨t, ht, rfl⟩ := List.mem_map.mp (mem_of_mem_pairShorter hmem)
    exact Nat.lt_irrefl _ (Nat.lt_of_lt_of_le hn (hbuild.base_le t ht))
  · obtain ⟨p, hp, rfl⟩ := List.mem_map.mp hmem
    exact Nat.lt_irrefl _ (Nat.lt_of_lt_of_le hn (hextra p hp).1)

/-- Installing a build's filters adds entries only below the counter. -/
theorem addFilters_build_lt (hfilters : ∀ n, (filters n).isSome → n < st.nextFileNumber)
    {n : ℕ}
    (hn : (addFilters filters
      (pairShorter (st.metaList.map (·.number)) st.filterList ++ extra) n).isSome) :
    n < st.nextFileNumber := by
  rcases isSome_addFilters hn with hn | hmem
  · exact hfilters n hn
  rw [List.map_append, List.mem_append] at hmem
  rcases hmem with hmem | hmem
  · obtain ⟨t, ht, rfl⟩ := List.mem_map.mp (mem_of_mem_pairShorter hmem)
    exact hbuild.lt_nextFileNumber ht
  · obtain ⟨p, hp, rfl⟩ := List.mem_map.mp hmem
    exact (hextra p hp).2.1

/-- Installing a build's filters gives each of its tables a filter that covers it. -/
theorem addFilters_build_covers {t : TableFile} (ht : t ∈ st.metaList) {φ : Filter}
    (hφ : addFilters filters
      (pairShorter (st.metaList.map (·.number)) st.filterList ++ extra) t.number = some φ) :
    Covers policy φ t.keys := by
  -- the extra pairs name numbers no table has
  have hnot : t.number ∉ extra.map Prod.fst := fun hmem ↦ by
    obtain ⟨p, hp, hpt⟩ := List.mem_map.mp hmem
    exact (hextra p hp).2.2 (hpt ▸ List.mem_map_of_mem ht)
  rw [addFilters_append, addFilters_of_not_mem hnot] at hφ
  obtain ⟨i, hi, rfl⟩ := List.getElem_of_mem ht
  have hi' : i < st.filterList.length := hbuild.length_eq ▸ hi
  -- the table's own pair sets its entry, since the tables' numbers are distinct
  have hkeys : (pairShorter (st.metaList.map (·.number)) st.filterList).map Prod.fst =
      st.metaList.map (·.number) :=
    List.map_fst_zip (by simp [hbuild.length_eq])
  have hpair : (st.metaList[i].number, st.filterList[i]) ∈
      pairShorter (st.metaList.map (·.number)) st.filterList :=
    List.mem_iff_getElem.mpr ⟨i, by simpa [pairShorter] using Nat.lt_min.mpr ⟨hi, hi'⟩,
      by simp [pairShorter]⟩
  rw [addFilters_of_mem (by rw [hkeys]; exact hbuild.nodup) hpair] at hφ
  have hzip : (st.metaList[i], st.filterList[i]) ∈ st.metaList.zip st.filterList :=
    List.mem_iff_getElem.mpr ⟨i, by simpa using Nat.lt_min.mpr ⟨hi, hi'⟩, by simp⟩
  exact hbuild.covers _ hzip φ hφ


end Install


@[simp] theorem writeLevel0Numbers_true (reserved : List ℕ) (metaList : List TableFile) :
    writeLevel0Numbers true reserved metaList =
      metaList.map (·.number) ++ reserved.drop metaList.length :=
  rfl

theorem ExtraPairs.nil (base : ℕ) (st : BuildState) : ExtraPairs base st [] := by
  simp [ExtraPairs]

/-- `LogAndApply`'s pairing stops at the last filter. -/
theorem pairShorter_append {numbers extras : List ℕ} {filterList : List (Option Filter)}
    (hlen : numbers.length = filterList.length) :
    pairShorter (numbers ++ extras) filterList = pairShorter numbers filterList := by
  have h := @List.zip_append _ _ numbers extras filterList [] hlen
  rw [List.append_nil, List.zip_nil_right, List.append_nil] at h
  exact h

/-! ## Compactions -/

/-- The outputs of a compaction are a build with no reserved numbers whose tables all finish. -/
theorem compactionOutputs_eq (s : State) (acc : List TableFile × List (Option Filter))
    (outputs : List (List (List UInt8))) :
    let st := buildLevel0Tables policy [] ⟨s.compactionBuilder, 0, s.nextFileNumber, acc.1, acc.2⟩
      (outputs.map fun keys ↦ ⟨keys, true⟩)
    State.compactionOutputs policy s acc outputs =
      ({ s with nextFileNumber := st.nextFileNumber, compactionBuilder := st.builder },
       (st.metaList, st.filterList)) := by
  induction outputs generalizing s acc with
  | nil => rfl
  | cons keys rest ih =>
    rw [State.compactionOutputs, ih]
    rfl


/-! ## The invariant -/

variable (policy) in
/-- The invariant of a filter map over the live files `live` and the counter `next`: every live
file lies below the counter and is the only live file with its number, entries exist only below
the counter, and the filter of a live file covers its keys. -/
structure FiltersOk (live : List TableFile) (next : ℕ) (filters : ℕ → Option Filter) : Prop where
  live_lt : ∀ f ∈ live, f.number < next
  unique : ∀ f ∈ live, ∀ g ∈ live, f.number = g.number → f = g
  filters_lt : ∀ n, (filters n).isSome → n < next
  covers : ∀ f ∈ live, ∀ φ, filters f.number = some φ → Covers policy φ f.keys

namespace FiltersOk

variable {live live' : List TableFile} {next next' : ℕ} {filters filters' : ℕ → Option Filter}

/-- Dropping live files or filters and raising the counter keep the invariant. -/
theorem mono (h : FiltersOk policy live next filters) (hlive : ∀ f ∈ live', f ∈ live)
    (hfilters : ∀ n φ, filters' n = some φ → filters n = some φ) (hnext : next ≤ next') :
    FiltersOk policy live' next' filters' where
  live_lt f hf := Nat.lt_of_lt_of_le (h.live_lt f (hlive f hf)) hnext
  unique f hf g hg := h.unique f (hlive f hf) g (hlive g hg)
  filters_lt n hn := by
    obtain ⟨φ, hφ⟩ := Option.isSome_iff_exists.mp hn
    exact Nat.lt_of_lt_of_le (h.filters_lt n (by rw [hfilters n φ hφ]; rfl)) hnext
  covers f hf φ hφ := h.covers f (hlive f hf) φ (hfilters _ φ hφ)

/-- Installing a build that started at the counter: its tables join the live files, its filters
the map, and the counter moves to the build's. -/
theorem install {len : ℕ} {st : BuildState} {extra : List (ℕ × Option Filter)}
    (h : FiltersOk policy live next filters) (hbuild : BuildOk policy next len st)
    (hextra : ExtraPairs next st extra)
    (hfilters : filters' =
      addFilters filters (pairShorter (st.metaList.map (·.number)) st.filterList ++ extra))
    (hlive : ∀ f ∈ live', f ∈ live ∨ f ∈ st.metaList) :
    FiltersOk policy live' st.nextFileNumber filters' := by
  have hle : next ≤ st.nextFileNumber := Nat.le_trans (Nat.le_add_right _ _) hbuild.next_ge
  -- an old file lies below every table of the build
  have hsep : ∀ f ∈ live, ∀ t ∈ st.metaList, f.number < t.number := fun f hf t ht ↦
    Nat.lt_of_lt_of_le (h.live_lt f hf) (hbuild.base_le t ht)
  subst hfilters
  refine ⟨fun f hf ↦ ?_, fun f hf g hg hfg ↦ ?_, fun n hn ↦ ?_, fun f hf φ hφ ↦ ?_⟩
  · rcases hlive f hf with hf | hf
    · exact Nat.lt_of_lt_of_le (h.live_lt f hf) hle
    · exact hbuild.lt_nextFileNumber hf
  · rcases hlive f hf with hf | hf <;> rcases hlive g hg with hg | hg
    · exact h.unique f hf g hg hfg
    · exact absurd hfg (Nat.ne_of_lt (hsep f hf g hg))
    · exact absurd hfg.symm (Nat.ne_of_lt (hsep g hg f hf))
    · exact List.inj_on_of_nodup_map hbuild.nodup hf hg hfg
  · exact addFilters_build_lt hbuild hextra
      (fun n hn ↦ Nat.lt_of_lt_of_le (h.filters_lt n hn) hle) hn
  · rcases hlive f hf with hf | hf
    · rw [addFilters_build_of_lt hbuild hextra (h.live_lt f hf)] at hφ
      exact h.covers f hf φ hφ
    · exact addFilters_build_covers hbuild hextra hf hφ

/-- `PopulateBloomFilterForFile` on a live file keeps the invariant: a file with no filter gets
the filter of its own keys. -/
theorem populate (h : FiltersOk policy live next filters) {file : TableFile}
    (hfile : file ∈ live) :
    FiltersOk policy live next (populateBloomFilterForFile policy filters file) := by
  unfold populateBloomFilterForFile
  split
  · exact h
  refine ⟨h.live_lt, h.unique, fun n hn ↦ ?_, fun f hf φ hφ ↦ ?_⟩
  · by_cases hn' : n = file.number
    · exact hn' ▸ h.live_lt file hfile
    · rw [Function.update_of_ne hn'] at hn
      exact h.filters_lt n hn
  · by_cases hf' : f.number = file.number
    · -- the only live file with that number is `file` itself
      obtain rfl := h.unique f hf file hfile hf'
      rw [Function.update_self] at hφ
      exact covers_of_generateFilter hφ fun _ hkey ↦ hkey
    · rw [Function.update_of_ne hf'] at hφ
      exact h.covers f hf φ hφ

theorem populate_foldl (h : FiltersOk policy live next filters) {files : List TableFile}
    (hfiles : ∀ f ∈ files, f ∈ live) :
    FiltersOk policy live next (files.foldl (populateBloomFilterForFile policy) filters) := by
  induction files generalizing filters with
  | nil => exact h
  | cons file files ih =>
    exact ih (h.populate (hfiles file List.mem_cons_self))
      fun f hf ↦ hfiles f (List.mem_cons_of_mem _ hf)

end FiltersOk

/-! ## The replay of `DB::Open` -/

variable (policy) in
/-- What holds of the replay of `DB::Open` that started its counter at `start`: the invariant
over the tables it added, and every one of them and of its entries at or above `start`. -/
structure ReplayOk (start : ℕ) (r : ReplayState) : Prop where
  filtersOk : FiltersOk policy r.tables r.nextFileNumber r.filters
  start_le : start ≤ r.nextFileNumber
  tables_ge : ∀ t ∈ r.tables, start ≤ t.number
  filters_ge : ∀ n, (r.filters n).isSome → start ≤ n

namespace ReplayOk

variable {start : ℕ} {r r' : ReplayState}

theorem init (start : ℕ) : ReplayOk policy start ⟨start, fun _ ↦ none, [], []⟩ where
  filtersOk := ⟨by simp, by simp, by simp, by simp⟩
  start_le := Nat.le_refl _
  tables_ge := by simp
  filters_ge := by simp

/-- Installing a build that started at the replay's counter. -/
theorem install {len : ℕ} {st : BuildState} {extra : List (ℕ × Option Filter)}
    (h : ReplayOk policy start r) (hbuild : BuildOk policy r.nextFileNumber len st)
    (hextra : ExtraPairs r.nextFileNumber st extra)
    (hnext : r'.nextFileNumber = st.nextFileNumber)
    (hfilters : r'.filters =
      addFilters r.filters (pairShorter (st.metaList.map (·.number)) st.filterList ++ extra))
    (htables : r'.tables = r.tables ++ st.metaList) : ReplayOk policy start r' := by
  have hle : r.nextFileNumber ≤ st.nextFileNumber :=
    Nat.le_trans (Nat.le_add_right _ _) hbuild.next_ge
  refine ⟨?_, hnext ▸ Nat.le_trans h.start_le hle, fun t ht ↦ ?_, fun n hn ↦ ?_⟩
  · rw [hnext]
    exact h.filtersOk.install hbuild hextra hfilters fun f hf ↦
      List.mem_append.mp (htables ▸ hf)
  · rcases List.mem_append.mp (htables ▸ ht) with ht | ht
    · exact h.tables_ge t ht
    · exact Nat.le_trans h.start_le (hbuild.base_le t ht)
  · -- below the replay's counter the map is unchanged
    rw [hfilters] at hn
    by_cases hlt : n < r.nextFileNumber
    · rw [addFilters_build_of_lt hbuild hextra hlt] at hn
      exact h.filters_ge n hn
    · exact Nat.le_trans h.start_le (Nat.le_of_not_lt hlt)

/-- A flush of the replay's loop keeps the invariant. -/
theorem replayFlush_pairShorter (h : ReplayOk policy start r) (flush : ReplayFlush) :
    ReplayOk policy start (replayFlush policy pairShorter r flush) := by
  set st := buildLevel0Tables policy (List.range' r.nextFileNumber (flush.numGuards + 1))
    ⟨r.builder, 0, r.nextFileNumber + (flush.numGuards + 1), [], []⟩ flush.plans
  have hbuild : BuildOk policy r.nextFileNumber (flush.numGuards + 1) st :=
    buildOk_buildLevel0Tables (BuildOk.start _) flush.plans
  have hlen : (st.metaList.map (·.number)).length = st.filterList.length := by
    rw [List.length_map]
    exact hbuild.length_eq
  refine h.install hbuild (ExtraPairs.nil _ _) rfl ?_ rfl
  show addFilters r.filters (pairShorter (writeLevel0Numbers true _ st.metaList) st.filterList) = _
  rw [writeLevel0Numbers_true, pairShorter_append hlen, List.append_nil]

/-- The final flush keeps the invariant when all its tables finish: the numbers read past the
end of the filter list are then reserved numbers no table took. -/
theorem replayFlush_pairAll (h : ReplayOk policy start r) (junk : ℕ → Option Filter)
    (flush : ReplayFlush) (hall : ∀ plan ∈ flush.plans, plan.finished = true) :
    ReplayOk policy start (replayFlush policy (pairAll junk) r flush) := by
  set st := buildLevel0Tables policy (List.range' r.nextFileNumber (flush.numGuards + 1))
    ⟨r.builder, 0, r.nextFileNumber + (flush.numGuards + 1), [], []⟩ flush.plans
  have hbuild : BuildOk policy r.nextFileNumber (flush.numGuards + 1) st :=
    buildOk_buildLevel0Tables (BuildOk.start _) flush.plans
  have hidx : st.fileNumberIndex = min st.metaList.length (flush.numGuards + 1) :=
    fileNumberIndex_buildLevel0Tables rfl hall
  have hlen : (st.metaList.map (·.number)).length = st.filterList.length := by
    rw [List.length_map]
    exact hbuild.length_eq
  refine h.install hbuild
    (hbuild.extraPairs_drop hidx junk (st.metaList.map (·.number)).length) rfl ?_ rfl
  show addFilters r.filters (pairAll junk (writeLevel0Numbers true _ st.metaList) st.filterList) = _
  rw [writeLevel0Numbers_true, pairAll_append junk hlen]

theorem foldl_replayFlush (h : ReplayOk policy start r) (flushes : List ReplayFlush) :
    ReplayOk policy start (flushes.foldl (replayFlush policy pairShorter) r) := by
  induction flushes generalizing r with
  | nil => exact h
  | cons flush flushes ih => exact ih (h.replayFlush_pairShorter flush)

/-- `RecoverLogFile` keeps the invariant when the tables of its final flush all finish. -/
theorem recoverLogFile (h : ReplayOk policy start r) (junk : ℕ → Option Filter)
    (log : ReplayLog) (hfinal : ∀ flush ∈ log.final, ∀ plan ∈ flush.plans, plan.finished = true) :
    ReplayOk policy start (recoverLogFile policy junk r log) := by
  -- each log starts with an empty builder
  have hloop : ReplayOk policy start
      (log.flushes.foldl (replayFlush policy pairShorter) { r with builder := [] }) :=
    foldl_replayFlush (show ReplayOk policy start { r with builder := [] } from
      ⟨h.filtersOk, h.start_le, h.tables_ge, h.filters_ge⟩) log.flushes
  unfold FileFilter.recoverLogFile
  cases hlog : log.final with
  | none => exact hloop
  | some flush => exact hloop.replayFlush_pairAll junk flush (hfinal flush (by simp [hlog]))

theorem foldl_recoverLogFile (h : ReplayOk policy start r) (junk : ℕ → Option Filter)
    {logs : List ReplayLog}
    (hfinal : ∀ log ∈ logs, ∀ flush ∈ log.final, ∀ plan ∈ flush.plans, plan.finished = true) :
    ReplayOk policy start (logs.foldl (FileFilter.recoverLogFile policy junk) r) := by
  induction logs generalizing r with
  | nil => exact h
  | cons log logs ih =>
    exact ih (h.recoverLogFile junk log (hfinal log List.mem_cons_self))
      fun log' hlog' ↦ hfinal log' (List.mem_cons_of_mem _ hlog')

end ReplayOk

/-! ## The invariant of the store -/

variable (policy) in
/-- The invariant of the store: the filter invariant over its live files and its counter. -/
def Inv (s : State) : Prop :=
  FiltersOk policy s.liveFiles s.nextFileNumber s.filters

/-- Whether the final flushes of a reopening's replay finish every table; every other action
qualifies. -/
def Action.finalFlushesFinish : Action → Bool
  | .reopen _ logs _ =>
    logs.all fun log ↦ log.final.all fun flush ↦ flush.plans.all (·.finished)
  | _ => true

namespace Inv

variable {s : State}

theorem empty : Inv policy State.empty :=
  ⟨by simp [State.empty, State.liveFiles], by simp [State.empty, State.liveFiles],
    by simp [State.empty], by simp [State.empty]⟩

theorem flush (hi : Inv policy s) (numGuards : ℕ) (plans : List TablePlan) (built logOk : Bool) :
    Inv policy (s.flush policy numGuards plans built logOk) := by
  set st := buildLevel0Tables policy (List.range' s.nextFileNumber (numGuards + 1))
    ⟨s.memtableBuilder, 0, s.nextFileNumber + (numGuards + 1), [], []⟩ plans
  have hbuild : BuildOk policy s.nextFileNumber (numGuards + 1) st :=
    buildOk_buildLevel0Tables (BuildOk.start _) plans
  cases built with
  | false =>
    -- a failed build installs nothing
    refine FiltersOk.mono hi (fun f hf ↦ hf) (fun _ _ hφ ↦ hφ) ?_
    exact Nat.le_trans (Nat.le_add_right _ _) hbuild.next_ge
  | true =>
    have hlen : (st.metaList.map (·.number)).length = st.filterList.length := by
      rw [List.length_map]
      exact hbuild.length_eq
    refine FiltersOk.install hi hbuild (ExtraPairs.nil _ _) ?_ fun f hf ↦ ?_
    · show addFilters s.filters (pairShorter (writeLevel0Numbers true _ st.metaList) _) = _
      rw [writeLevel0Numbers_true, pairShorter_append hlen, List.append_nil]
    · -- the tables join `current_` only if the MANIFEST write succeeded
      cases logOk with
      | false => exact .inl hf
      | true =>
        have hf' : f ∈ (s.current ++ st.metaList) ++ s.oldVersions.flatten := hf
        rcases List.mem_append.mp hf' with hf' | hf'
        · rcases List.mem_append.mp hf' with hf' | hf'
          · exact .inl (List.mem_append_left _ hf')
          · exact .inr hf'
        · exact .inl (List.mem_append_right _ hf')

theorem compaction (hi : Inv policy s) (inputs : List ℕ) (outputs : List (List (List UInt8)))
    (failed : Option (List (List UInt8))) (logOk : Bool) :
    Inv policy (s.compaction policy inputs outputs failed logOk) := by
  set st := buildLevel0Tables policy [] ⟨s.compactionBuilder, 0, s.nextFileNumber, [], []⟩
    (outputs.map fun keys ↦ ⟨keys, true⟩)
  have hbuild : BuildOk policy s.nextFileNumber 0 st :=
    buildOk_buildLevel0Tables (BuildOk.start _) _
  have hdone : State.compactionOutputs policy s ([], []) outputs =
      ({ s with nextFileNumber := st.nextFileNumber, compactionBuilder := st.builder },
       (st.metaList, st.filterList)) :=
    compactionOutputs_eq s ([], []) outputs
  unfold State.compaction
  rw [hdone]
  cases failed with
  | some keys =>
    -- the outputs are abandoned with their filters
    refine FiltersOk.mono hi (fun f hf ↦ hf) (fun _ _ hφ ↦ hφ) ?_
    exact Nat.le_succ_of_le (Nat.le_trans (Nat.le_add_right _ _) hbuild.next_ge)
  | none =>
    refine FiltersOk.install hi hbuild (ExtraPairs.nil _ _)
      (congrArg (addFilters s.filters) (List.append_nil _).symm) fun f hf ↦ ?_
    -- the outputs replace the inputs in `current_` only if the MANIFEST write succeeded
    cases logOk with
    | false => exact .inl hf
    | true =>
      have hf' : f ∈ (s.current.filter (·.number ∉ inputs) ++ st.metaList) ++
          s.oldVersions.flatten := hf
      rcases List.mem_append.mp hf' with hf' | hf'
      · rcases List.mem_append.mp hf' with hf' | hf'
        · exact .inl (List.mem_append_left _ (List.mem_filter.mp hf').1)
        · exact .inr hf'
      · exact .inl (List.mem_append_right _ hf')

theorem deleteObsoleteFiles (hi : Inv policy s) (onDisk : List ℕ) :
    Inv policy (s.deleteObsoleteFiles onDisk) := by
  refine FiltersOk.mono hi (fun f hf ↦ hf) (fun n φ hφ ↦ ?_) (Nat.le_refl _)
  -- entries are only removed
  simp only [State.deleteObsoleteFiles] at hφ
  split at hφ
  · cases hφ
  · exact hφ

theorem refVersion (hi : Inv policy s) :
    Inv policy { s with oldVersions := s.current :: s.oldVersions } := by
  refine FiltersOk.mono hi (fun f hf ↦ ?_) (fun _ _ hφ ↦ hφ) (Nat.le_refl _)
  have hf' : f ∈ s.current ++ (s.current ++ s.oldVersions.flatten) := hf
  rcases List.mem_append.mp hf' with hf' | hf'
  · exact List.mem_append_left _ hf'
  · exact hf'

theorem unrefVersion (hi : Inv policy s) (k : ℕ) :
    Inv policy { s with oldVersions := s.oldVersions.eraseIdx k } := by
  refine FiltersOk.mono hi (fun f hf ↦ ?_) (fun _ _ hφ ↦ hφ) (Nat.le_refl _)
  rcases List.mem_append.mp hf with hf | hf
  · exact List.mem_append_left _ hf
  · obtain ⟨v, hv, hfv⟩ := List.mem_flatten.mp hf
    exact List.mem_append_right _ (List.mem_flatten.mpr ⟨v, List.mem_of_mem_eraseIdx hv, hfv⟩)

/-- A reopening keeps the invariant when the final flushes of its replay finish every table. -/
theorem reopen (hi : Inv policy s) {next : ℕ} (hcur : ∀ f ∈ s.current, f.number < next)
    (logs : List ReplayLog) (junk : ℕ → Option Filter)
    (hfinal : ∀ log ∈ logs, ∀ flush ∈ log.final, ∀ plan ∈ flush.plans, plan.finished = true) :
    Inv policy (s.reopen policy next logs junk) := by
  set r := logs.foldl (recoverLogFile policy junk) ⟨next, fun _ ↦ none, [], []⟩
  have hr : ReplayOk policy next r := (ReplayOk.init next).foldl_recoverLogFile junk hfinal
  -- the recovered version holds the old `current_` below `next` and the replayed tables above
  have hsep : ∀ f ∈ s.current, ∀ t ∈ r.tables, f.number < t.number := fun f hf t ht ↦
    Nat.lt_of_lt_of_le (hcur f hf) (hr.tables_ge t ht)
  have hbase : FiltersOk policy (s.current ++ r.tables) r.nextFileNumber r.filters := by
    refine ⟨fun f hf ↦ ?_, fun f hf g hg hfg ↦ ?_, hr.filtersOk.filters_lt, fun f hf φ hφ ↦ ?_⟩
    · rcases List.mem_append.mp hf with hf | hf
      · exact Nat.lt_of_lt_of_le (hcur f hf) hr.start_le
      · exact hr.filtersOk.live_lt f hf
    · rcases List.mem_append.mp hf with hf | hf <;> rcases List.mem_append.mp hg with hg | hg
      · exact hi.unique f (List.mem_append_left _ hf) g (List.mem_append_left _ hg) hfg
      · exact absurd hfg (Nat.ne_of_lt (hsep f hf g hg))
      · exact absurd hfg.symm (Nat.ne_of_lt (hsep g hg f hf))
      · exact hr.filtersOk.unique f hf g hg hfg
    · rcases List.mem_append.mp hf with hf | hf
      · -- the replay installs no filter below `next`
        have hge := hr.filters_ge f.number (by rw [hφ]; rfl)
        exact absurd (hcur f hf) (Nat.not_lt.mpr hge)
      · exact hr.filtersOk.covers f hf φ hφ
  refine (hbase.populate_foldl fun f hf ↦ hf).mono (fun f hf ↦ ?_) (fun _ _ hφ ↦ hφ)
    (Nat.le_refl _)
  have hf' : f ∈ (s.current ++ r.tables) ++ ([] : List (List TableFile)).flatten := hf
  simpa using hf'

end Inv

/-- Every enabled step that qualifies keeps the invariant. -/
theorem exec_inv {s s' : State} {a : Action} (hi : Inv policy s)
    (ha : a.finalFlushesFinish = true) (h : exec policy s a = some s') : Inv policy s' := by
  cases a with
  | flush numGuards plans built logOk =>
    simp only [exec] at h
    split at h
    · cases h
    · cases h
      exact hi.flush numGuards plans built logOk
  | compaction inputs outputs failed logOk =>
    cases h
    exact hi.compaction inputs outputs failed logOk
  | deleteObsoleteFiles onDisk =>
    cases h
    exact hi.deleteObsoleteFiles onDisk
  | refVersion =>
    cases h
    exact hi.refVersion
  | unrefVersion k =>
    simp only [exec] at h
    split at h
    · cases h
      exact hi.unrefVersion k
    · cases h
  | reopen next logs junk =>
    simp only [exec] at h
    split at h
    · next hcond =>
      cases h
      simp only [Bool.and_eq_true, List.all_eq_true, decide_eq_true_eq] at hcond
      simp only [Action.finalFlushesFinish, List.all_eq_true, Option.all_eq_true] at ha
      exact hi.reopen hcond.1 logs junk ha
    · cases h


/-- The invariant holds after every run from a new database whose reopenings' final flushes
finish every table. -/
theorem run_inv {actions : List Action} {s : State}
    (hrun : Machine.run (exec policy) State.empty actions = some s)
    (hqual : ∀ a ∈ actions, a.finalFlushesFinish = true) : Inv policy s :=
  Machine.run_invariant_of (Inv policy) (fun a ↦ a.finalFlushesFinish = true)
    (fun _ _ _ hi ha h ↦ exec_inv hi ha h) actions hqual Inv.empty hrun

/-! ## No false negatives -/

/-- **File-level filters have no false negatives while no final replay flush loses a table.**
In every state a run reaches from a new database, as long as the final flush of every replayed
log finishes all its tables, the filter of a live file matches the lookup key of each of the
file's keys at every sequence number, for any user policy that keeps the contract of
`FilterPolicy`. -/
theorem reachable_noFalseNegatives (hpolicy : policy.NoFalseNegatives) {actions : List Action}
    {s : State} (hrun : Machine.run (exec policy) State.empty actions = some s)
    (hqual : ∀ a ∈ actions, a.finalFlushesFinish = true) :
    ∀ f ∈ s.liveFiles, ∀ key ∈ f.keys, ∀ φ, s.filters f.number = some φ → ∀ sequence,
      (internalFilterPolicy policy).keyMayMatch (lookupKey (extractUserKey key) sequence) φ =
        true := by
  intro f hf key hkey φ hφ sequence
  exact keyMayMatch_of_covers hpolicy ((run_inv hrun hqual).covers f hf φ hφ) hkey sequence

/-- A flush whose first table fails: the second table's filter also covers the first table's
keys, left in the builder. -/
def flushRun : List Action :=
  [.flush 1 [⟨[lookupKey [1] 1], false⟩, ⟨[lookupKey [2] 2], true⟩] true true,
   .reopen 6 [⟨[], some ⟨0, [⟨[lookupKey [3] 3], true⟩]⟩⟩] fun _ ↦ some rejecting]

theorem reachable_noFalseNegatives_flushRun :
    ∃ s, Machine.run (exec (FilterPolicy.bloom tenBits)) State.empty flushRun = some s ∧
      ∀ f ∈ s.liveFiles, ∀ key ∈ f.keys, ∀ φ, s.filters f.number = some φ → ∀ sequence,
        (internalFilterPolicy (FilterPolicy.bloom tenBits)).keyMayMatch
          (lookupKey (extractUserKey key) sequence) φ = true :=
  ⟨_, rfl, reachable_noFalseNegatives (FilterPolicy.bloom_noFalseNegatives tenBits)
    (show Machine.run _ State.empty flushRun = some _ from rfl) (by decide)⟩

end PebblesDB.Db.FileFilter
