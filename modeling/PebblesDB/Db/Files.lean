import Mathlib.Data.List.Basic
import Mathlib.Logic.Function.Basic
import PebblesDB.Lib.Run

/-!
# File numbers and obsolete files

Every file of a database is named by a number from one counter, `next_file_number_` of the
`VersionSet` (`db/version_set.h`): tables, logs and MANIFESTs alike. This module models the
counter together with everything that holds file numbers: the live versions, the
`pending_outputs_` of `DBImpl` that protect the tables a flush or a compaction is still
writing, the files in the directory, and the MANIFEST that `VersionSet::Recover` replays after
a crash. The steps are the callers of `NewFileNumber`: the memtable switch and
`GetReplayTimestamp` (which hand a number back with `ReuseFileNumber`), the flush of the
memtable thread (`WriteLevel0TableGuards` reserves a number per level-0 guard and one more,
`BuildLevel0Tables` takes them in order and allocates more once they run out), the compaction
thread's `OpenCompactionOutputFile`, `LogAndApply` (split where it releases the mutex to write
the MANIFEST), `DeleteObsoleteFiles`, and a crash followed by `DB::Open`.

## The invariant

`Inv` holds in every reachable state (`reachable_inv`):

* every number in use lies below `next_file_number_`, because each one was handed out by
  `NewFileNumber` and the counter never goes back (`ReuseFileNumber` only undoes the
  allocation just made);
* every number a flush or a compaction has allocated stays in `pending_outputs_` until the
  job ends, because a job erases only numbers it allocated and the two background threads
  never allocate the same number;
* every edit of the MANIFEST records a next-file number above the files it adds and its logs,
  and these numbers grow along the MANIFEST, so recovery starts the counter above every file
  of the recovered version;
* as long as no background error was recorded, replaying the MANIFEST gives the files of
  `current_`; a `LogAndApply` that fails may still have left its record in the file, which is
  why `DeleteObsoleteFiles` stops after a background error.

From it follow the safety properties: every live number, and after a crash every number of the
recovered state and every replayed log, lies below the counter (`live_numbers_lt_nextFileNumber`),
and `DeleteObsoleteFiles` never deletes a table that a live version holds or that a job in
progress will add to its edit (`deleteObsoleteFiles_keeps_needed`).

Which files a flush or a compaction produces, and their contents, are the environment's
choice; only their numbers are modelled. Table files are identified with their numbers and the
MANIFEST with its records.
-/

namespace PebblesDB.Db.Files

/-- A `VersionEdit`, reduced to the file numbers it carries. -/
structure Edit where
  /-- `log_number_`. -/
  logNumber : ℕ
  /-- `prev_log_number_`. -/
  prevLogNumber : ℕ
  /-- `next_file_number_`. -/
  nextFile : ℕ
  /-- The numbers of `new_files_`. -/
  newFiles : List ℕ
  /-- The numbers of `deleted_files_`. -/
  deletedFiles : List ℕ
  deriving DecidableEq, Repr

/-- An edit whose numbers lie below the next-file number it records: what recovery needs of
every record of the MANIFEST. -/
structure Edit.Below (e : Edit) : Prop where
  newFiles : ∀ n ∈ e.newFiles, n < e.nextFile
  logNumber : e.logNumber < e.nextFile
  prevLogNumber : e.prevLogNumber < e.nextFile

/-- The two background threads that write tables (`num_bg_compaction_threads_` is 1). -/
inductive Thread
  /-- `CompactMemTableThread`: flushes of the immutable memtable. -/
  | memtable
  /-- `CompactLevelThread`: compactions. -/
  | level
  deriving DecidableEq, Repr

/-- A flush or a compaction in progress. -/
structure Job where
  /-- `reserved_file_numbers` of `WriteLevel0TableGuards`; empty for a compaction. -/
  reserved : List ℕ
  /-- `file_number_index` of `BuildLevel0Tables`. -/
  fileNumberIndex : ℕ
  /-- The numbers of the tables the job adds to its edit: `meta_list`, or the outputs of the
  `CompactionState`. -/
  outputs : List ℕ
  /-- The files its edit deletes: the inputs of a compaction. -/
  inputs : List ℕ
  /-- Every number the job has taken from the counter, reserved or fresh (not a field of the
  source: the record the invariant needs of what the job owns). -/
  allocated : List ℕ
  deriving DecidableEq, Repr

/-- The numbers a job erases from `pending_outputs_` when it ends. A flush erases the `numbers`
of `WriteLevel0TableGuards`: its tables when `BuildLevel0Tables` returned OK (`built`), and the
reserved numbers from `meta_list.size()` on; a compaction erases its outputs
(`CleanupCompaction`). -/
def Job.eraseList (x : Job) : Thread → Bool → List ℕ
  | .memtable, built => (if built then x.outputs else []) ++ x.reserved.drop x.outputs.length
  | .level, _ => x.outputs

theorem Job.mem_eraseList {x : Job} {t : Thread} {built : Bool} {n : ℕ}
    (h : n ∈ x.eraseList t built) : n ∈ x.reserved ++ x.outputs := by
  cases t with
  | memtable =>
    rcases List.mem_append.mp h with h | h
    · cases built
      · cases h
      · exact List.mem_append_right _ h
    · exact List.mem_append_left _ (List.mem_of_mem_drop h)
  | level => exact List.mem_append_right _ h

/-- How the unlocked MANIFEST write of `LogAndApply` ends. -/
inductive WriteOutcome
  /-- `AddRecord` and `Sync` succeed. -/
  | ok
  /-- The write fails after the record has reached the file (a failed `Sync`). -/
  | recorded
  /-- The write fails and the record is not in the file. -/
  | lost
  deriving DecidableEq, Repr

/-- The state the file numbers live in. -/
structure Store where
  /-- `next_file_number_`. -/
  nextFileNumber : ℕ
  /-- `manifest_file_number_`. -/
  manifestFileNumber : ℕ
  /-- `log_number_`. -/
  logNumber : ℕ
  /-- `prev_log_number_`. -/
  prevLogNumber : ℕ
  /-- `logfile_number_` of `DBImpl`: the log writers append to. -/
  logfileNumber : ℕ
  /-- The files of `current_`. -/
  current : List ℕ
  /-- The files of the older versions that are still referenced. -/
  oldVersions : List (List ℕ)
  /-- `pending_outputs_`. -/
  pendingOutputs : List ℕ
  /-- The table files in the directory. -/
  tableFiles : List ℕ
  /-- The log files in the directory. -/
  logFiles : List ℕ
  /-- The files of the snapshot record that starts the MANIFEST (`WriteSnapshot`). -/
  snapshot : List ℕ
  /-- The edit records of the MANIFEST after the snapshot. -/
  edits : List Edit
  /-- The job of each background thread, if it has one. -/
  jobs : Thread → Option Job
  /-- The `LogAndApply` that has released the mutex to write its record: the thread and the
  edit. -/
  applying : Option (Thread × Edit)
  /-- Whether `bg_error_` holds an error. -/
  bgError : Bool

/-- `VersionSet::MarkFileNumberUsed`: the counter after `number` is marked used. -/
def markFileNumberUsed (next number : ℕ) : ℕ :=
  if next ≤ number then number + 1 else next

theorem le_markFileNumberUsed (next number : ℕ) : next ≤ markFileNumberUsed next number := by
  unfold markFileNumberUsed
  split <;> omega

theorem lt_markFileNumberUsed (next number : ℕ) : number < markFileNumberUsed next number := by
  unfold markFileNumberUsed
  split <;> omega

namespace Store

/-- The state right after `DB::Open` creates a database: `NewDB` wrote MANIFEST 1 with next
file 2, `Recover` made 2 the MANIFEST number, and `Open` named log 3 and wrote MANIFEST 2. -/
def opened : Store where
  nextFileNumber := 4
  manifestFileNumber := 2
  logNumber := 3
  prevLogNumber := 0
  logfileNumber := 3
  current := []
  oldVersions := []
  pendingOutputs := []
  tableFiles := []
  logFiles := [3]
  snapshot := []
  edits := [⟨3, 0, 4, [], []⟩]
  jobs := fun _ ↦ none
  applying := none
  bgError := false

/-- `VersionSet::NewFileNumber`: the number, and the counter past it. -/
def newFileNumber (s : Store) : ℕ × Store :=
  (s.nextFileNumber, { s with nextFileNumber := s.nextFileNumber + 1 })

/-- `VersionSet::ReuseFileNumber`. -/
def reuseFileNumber (s : Store) (fileNumber : ℕ) : Store :=
  if s.nextFileNumber = fileNumber + 1 then { s with nextFileNumber := fileNumber } else s

/-- The file numbers the database still refers to: `manifest_file_number_`, `log_number_`,
`prev_log_number_`, the files of every live version and `pending_outputs_`. -/
def liveNumbers (s : Store) : List ℕ :=
  [s.manifestFileNumber, s.logNumber, s.prevLogNumber] ++ s.current ++ s.oldVersions.flatten ++
    s.pendingOutputs

/-- `RecordBackgroundError`. -/
def recordBackgroundError (s : Store) : Store :=
  { s with bgError := true }

/-- End the job of thread `t`: erase its numbers from `pending_outputs_` and forget it. -/
def finishJob (s : Store) (t : Thread) (built : Bool) : Store :=
  match s.jobs t with
  | some x => { s with pendingOutputs := s.pendingOutputs.filter (· ∉ x.eraseList t built),
                       jobs := Function.update s.jobs t none }
  | none => s

/-- `DBImpl::DeleteObsoleteFiles`: keep the tables of `pending_outputs_` and of the live
versions (`AddLiveFiles`), and the logs from `LogNumber()` on and `PrevLogNumber()`. -/
def deleteObsoleteFiles (s : Store) : Store :=
  -- after a background error a new version may or may not have been committed
  if s.bgError then s
  else
    { s with
      tableFiles := s.tableFiles.filter fun n ↦
        n ∈ s.pendingOutputs ∨ n ∈ s.current ∨ ∃ v ∈ s.oldVersions, n ∈ v,
      logFiles := s.logFiles.filter fun n ↦ s.logNumber ≤ n ∨ n = s.prevLogNumber }

/-- The memtable switch of `SequenceWriteBegin`: `NewFileNumber` names the new log, which
becomes `logfile_number_`. -/
def switchLog (s : Store) : Store :=
  let (n, s') := s.newFileNumber
  { s' with logfileNumber := n, logFiles := s'.logFiles ++ [n] }

/-- `NewFileNumber` followed at once by `ReuseFileNumber`, under the mutex: the failed log
creation of `SequenceWriteBegin`, and `GetReplayTimestamp`. -/
def allocateAndReuse (s : Store) : Store :=
  let (n, s') := s.newFileNumber
  s'.reuseFileNumber n

/-- `WriteLevel0TableGuards` up to `BuildLevel0Tables`: `NewFileNumber` for each of the
`numGuards` level-0 guards of the base version and once more, each number into
`pending_outputs_`. -/
def writeLevel0TableGuards (s : Store) (numGuards : ℕ) : Store :=
  let reserved := List.range' s.nextFileNumber (numGuards + 1)
  { s with nextFileNumber := s.nextFileNumber + (numGuards + 1),
           pendingOutputs := s.pendingOutputs ++ reserved,
           jobs := Function.update s.jobs .memtable (some ⟨reserved, 0, [], [], reserved⟩) }

/-- A compaction of the files `inputs` starts on the compaction thread. -/
def startCompaction (s : Store) (inputs : List ℕ) : Store :=
  { s with jobs := Function.update s.jobs .level (some ⟨[], 0, [], inputs, []⟩) }

/-- The number of the next table of the flush `x` (`BuildLevel0Tables`): the next reserved
number, or once they run out `NewFileNumber` under the re-acquired mutex, inserted into
`pending_outputs_`. -/
def flushFileNumber (s : Store) (x : Job) : ℕ × Store :=
  if h : x.fileNumberIndex < x.reserved.length then (x.reserved[x.fileNumberIndex], s)
  else
    let (n, s') := s.newFileNumber
    (n, { s' with pendingOutputs := s'.pendingOutputs ++ [n] })

/-- One table of `BuildLevel0Tables` for the flush `x`: `finished` is the status of
`TableBuilder::Finish` (only then is the table pushed to `meta_list`) and `kept` whether
`FinishFileCompletion` keeps the file. -/
def buildLevel0Table (s : Store) (x : Job) (finished kept : Bool) : Store :=
  let (n, s') := s.flushFileNumber x
  let x' := { x with fileNumberIndex := x.fileNumberIndex + 1,
                     outputs := if finished then x.outputs ++ [n] else x.outputs,
                     allocated := if x.fileNumberIndex < x.reserved.length then x.allocated
                       else x.allocated ++ [n] }
  { s' with tableFiles := if finished && kept then s'.tableFiles ++ [n] else s'.tableFiles,
            jobs := Function.update s'.jobs .memtable (some x') }

/-- `DBImpl::OpenCompactionOutputFile` for the compaction `x`. -/
def openCompactionOutputFile (s : Store) (x : Job) : Store :=
  let (n, s') := s.newFileNumber
  { s' with pendingOutputs := s'.pendingOutputs ++ [n], tableFiles := s'.tableFiles ++ [n],
            jobs := Function.update s'.jobs .level
              (some { x with outputs := x.outputs ++ [n], allocated := x.allocated ++ [n] }) }

/-- The edit `LogAndApply` writes for the job `x` of thread `t`: a flush sets `logfile_number_`
and `PrevLogNumber` 0 itself, a compaction leaves both to `LogAndApply`; both get the
counter. -/
def jobEdit (s : Store) (t : Thread) (x : Job) : Edit where
  logNumber := match t with
    | .memtable => s.logfileNumber
    | .level => s.logNumber
  prevLogNumber := match t with
    | .memtable => 0
    | .level => s.prevLogNumber
  nextFile := s.nextFileNumber
  newFiles := x.outputs
  deletedFiles := x.inputs

/-- `LogAndApply` for the job `x` of thread `t`, up to the unlocked MANIFEST write. -/
def applyBegin (s : Store) (t : Thread) (x : Job) : Store :=
  { s with applying := some (t, s.jobEdit t x) }

/-- Install an edit committed to the MANIFEST (`AppendVersion`, then `log_number_` and
`prev_log_number_`). -/
def install (s : Store) (e : Edit) : Store :=
  { s with edits := s.edits ++ [e],
           current := s.current.filter (· ∉ e.deletedFiles) ++ e.newFiles,
           logNumber := e.logNumber, prevLogNumber := e.prevLogNumber }

/-- The rest of `LogAndApply` for the edit `e` of thread `t`, then the end of the job: a
failure is recorded as a background error. -/
def applyEnd (s : Store) (t : Thread) (e : Edit) : WriteOutcome → Store
  | .ok => { s.install e with applying := none }.finishJob t true
  | .recorded =>
    { s with edits := s.edits ++ [e], applying := none }.recordBackgroundError.finishJob t true
  | .lost => { s with applying := none }.recordBackgroundError.finishJob t true

/-- A job of thread `t` that fails before its edit commits (a failed build, a shutdown, a failed
compaction): the error is recorded and the job ends. -/
def abandon (s : Store) (t : Thread) (built : Bool) : Store :=
  s.recordBackgroundError.finishJob t built

/-- A reader or a compaction takes a reference to `current_`. -/
def refVersion (s : Store) : Store :=
  { s with oldVersions := s.current :: s.oldVersions }

/-- The `k`-th older version loses its last reference. -/
def unrefVersion (s : Store) (k : ℕ) : Store :=
  { s with oldVersions := s.oldVersions.eraseIdx k }

end Store

/-- The files of the version `VersionSet::Recover` builds from a MANIFEST: the snapshot, then
each edit's deletions and additions in turn. -/
def recoverFiles (snapshot : List ℕ) (edits : List Edit) : List ℕ :=
  edits.foldl (fun files e ↦ files.filter (· ∉ e.deletedFiles) ++ e.newFiles) snapshot

/-- The loop of `DBImpl::Recover` over the logs to replay, from the counter and the tables so
far: `RecoverLogFile` takes `reserved n` numbers for the level-0 tables of log `n`, of which
those `keep` holds became tables, and then `MarkFileNumberUsed(n)`. -/
def replayLogs (reserved : ℕ → ℕ) (keep : ℕ → Bool) : List ℕ → ℕ × List ℕ → ℕ × List ℕ
  | [], acc => acc
  | n :: logs, acc =>
    replayLogs reserved keep logs
      (markFileNumberUsed (acc.1 + reserved n) n,
        acc.2 ++ (List.range' acc.1 (reserved n)).filter keep)

namespace Store

/-- `VersionSet::Recover` on the MANIFEST whose last edit is `last`: the counter, the
MANIFEST number and the log numbers of `last`, and the files of every edit in turn. The
in-memory state of the crashed process is gone. -/
def recoverVersionSet (s : Store) (last : Edit) : Store :=
  { s with
    nextFileNumber := last.nextFile + 1,
    manifestFileNumber := last.nextFile,
    logNumber := last.logNumber,
    prevLogNumber := last.prevLogNumber,
    current := recoverFiles s.snapshot s.edits,
    oldVersions := [], pendingOutputs := [], jobs := fun _ ↦ none, applying := none,
    bgError := false }

/-- The logs `DBImpl::Recover` replays: from `LogNumber()` on and `PrevLogNumber()`, sorted. -/
def replayedLogs (s : Store) : List ℕ :=
  (s.logFiles.filter fun n ↦ s.logNumber ≤ n ∨ n = s.prevLogNumber).mergeSort

/-- `DBImpl::Recover`: the state after the log replay, and the tables the replay wrote. -/
def recover (s : Store) (last : Edit) (reserved : ℕ → ℕ) (keep : ℕ → Bool) : Store × List ℕ :=
  let r := s.recoverVersionSet last
  let replay := replayLogs reserved keep r.replayedLogs (r.nextFileNumber, [])
  ({ r with nextFileNumber := replay.1 }, replay.2)

/-- `DB::Open` after a crash: `Recover`, a new log named by `NewFileNumber`, and `LogAndApply`
of the replay's tables and the new log, which creates a new MANIFEST made of a snapshot of the
recovered version and that one edit; then `DeleteObsoleteFiles`, and `pending_outputs_` is
cleared. -/
def reopen (s : Store) (last : Edit) (reserved : ℕ → ℕ) (keep : ℕ → Bool) : Store :=
  let r := (s.recover last reserved keep).1
  let newTables := (s.recover last reserved keep).2
  let (newLog, r') := r.newFileNumber
  let e : Edit := ⟨newLog, r.prevLogNumber, r'.nextFileNumber, newTables, []⟩
  ({ r' with logfileNumber := newLog, logNumber := newLog, logFiles := r.logFiles ++ [newLog],
             tableFiles := r.tableFiles ++ newTables, current := r.current ++ newTables,
             snapshot := r.current, edits := [e] }).deleteObsoleteFiles

end Store

/-- One atomic step. -/
inductive Action
  /-- The memtable switch of `SequenceWriteBegin`. -/
  | switchLog
  /-- `NewFileNumber` and `ReuseFileNumber` under the mutex. -/
  | allocateAndReuse
  /-- `WriteLevel0TableGuards` for a base version with `numGuards` level-0 guards. -/
  | startFlush (numGuards : ℕ)
  /-- A compaction of the files `inputs` of `current_`. -/
  | startCompaction (inputs : List ℕ)
  /-- The next table of the flush. -/
  | buildLevel0Table (finished kept : Bool)
  /-- The next output table of the compaction. -/
  | openCompactionOutputFile
  /-- `LogAndApply` for the job of thread `t`, up to the unlocked MANIFEST write. -/
  | applyBegin (t : Thread)
  /-- The rest of `LogAndApply` and the end of its job. -/
  | applyEnd (outcome : WriteOutcome)
  /-- The job of thread `t` fails before `LogAndApply`; `built` is the status that
  `BuildLevel0Tables` returned. -/
  | abandon (t : Thread) (built : Bool)
  /-- `DeleteObsoleteFiles`. -/
  | deleteObsoleteFiles
  /-- A reader or a compaction takes a reference to `current_`. -/
  | refVersion
  /-- The `k`-th older version loses its last reference. -/
  | unrefVersion (k : ℕ)
  /-- A crash, then `DB::Open`; the replay of log `n` reserves `reserved n` numbers, and the
  numbers `keep` holds became tables. -/
  | reopen (reserved : ℕ → ℕ) (keep : ℕ → Bool)

open Store

/-- One step of the model; `none` where the step is not enabled. -/
def exec (s : Store) : Action → Option Store
  | .switchLog => some s.switchLog
  | .allocateAndReuse => some s.allocateAndReuse
  | .startFlush numGuards =>
    if (s.jobs .memtable).isSome then none else some (s.writeLevel0TableGuards numGuards)
  | .startCompaction inputs =>
    if (s.jobs .level).isSome || !inputs.all (· ∈ s.current) then none
    else some (s.startCompaction inputs)
  | .buildLevel0Table finished kept =>
    -- a job inside `LogAndApply` builds nothing
    if s.applying.map Prod.fst = some .memtable then none
    else (s.jobs .memtable).map fun x ↦ s.buildLevel0Table x finished kept
  | .openCompactionOutputFile =>
    if s.applying.map Prod.fst = some .level then none
    else (s.jobs .level).map fun x ↦ s.openCompactionOutputFile x
  | .applyBegin t =>
    -- `while (*wt) cv->Wait()`: one `LogAndApply` at a time
    if s.applying.isSome then none else (s.jobs t).map fun x ↦ s.applyBegin t x
  | .applyEnd outcome => s.applying.map fun p ↦ s.applyEnd p.1 p.2 outcome
  | .abandon t built =>
    if s.applying.map Prod.fst = some t then none
    else (s.jobs t).map fun _ ↦ s.abandon t built
  | .deleteObsoleteFiles => some s.deleteObsoleteFiles
  | .refVersion => some s.refVersion
  | .unrefVersion k => if k < s.oldVersions.length then some (s.unrefVersion k) else none
  | .reopen reserved keep =>
    -- `DBImpl::Recover` fails with "missing files" unless every file of the recovered
    -- version has a file of its number in the directory
    s.edits.getLast?.bind fun last ↦
      if (recoverFiles s.snapshot s.edits).all (· ∈ s.tableFiles ++ s.logFiles) then
        some (s.reopen last reserved keep)
      else none

/-! ## The numbers below the counter -/

/-- Every number `s` holds, live or in the directory, lies below `b`. -/
structure NumbersBelow (s : Store) (b : ℕ) : Prop where
  manifestFileNumber : s.manifestFileNumber < b
  logNumber : s.logNumber < b
  prevLogNumber : s.prevLogNumber < b
  logfileNumber : s.logfileNumber < b
  current : ∀ n ∈ s.current, n < b
  oldVersions : ∀ v ∈ s.oldVersions, ∀ n ∈ v, n < b
  pendingOutputs : ∀ n ∈ s.pendingOutputs, n < b
  tableFiles : ∀ n ∈ s.tableFiles, n < b
  logFiles : ∀ n ∈ s.logFiles, n < b

section Below

variable {s : Store} {b b' : ℕ}

theorem NumbersBelow.mono (h : NumbersBelow s b) (hb : b ≤ b') : NumbersBelow s b' where
  manifestFileNumber := Nat.lt_of_lt_of_le h.manifestFileNumber hb
  logNumber := Nat.lt_of_lt_of_le h.logNumber hb
  prevLogNumber := Nat.lt_of_lt_of_le h.prevLogNumber hb
  logfileNumber := Nat.lt_of_lt_of_le h.logfileNumber hb
  current n hn := Nat.lt_of_lt_of_le (h.current n hn) hb
  oldVersions v hv n hn := Nat.lt_of_lt_of_le (h.oldVersions v hv n hn) hb
  pendingOutputs n hn := Nat.lt_of_lt_of_le (h.pendingOutputs n hn) hb
  tableFiles n hn := Nat.lt_of_lt_of_le (h.tableFiles n hn) hb
  logFiles n hn := Nat.lt_of_lt_of_le (h.logFiles n hn) hb

theorem NumbersBelow.liveNumbers_lt (h : NumbersBelow s b) : ∀ n ∈ s.liveNumbers, n < b := by
  intro n hn
  simp only [liveNumbers, List.mem_append, List.mem_cons, List.mem_flatten,
    List.not_mem_nil, or_false] at hn
  rcases hn with (((rfl | rfl | rfl) | hn) | ⟨v, hv, hn⟩) | hn
  · exact h.manifestFileNumber
  · exact h.logNumber
  · exact h.prevLogNumber
  · exact h.current n hn
  · exact h.oldVersions v hv n hn
  · exact h.pendingOutputs n hn

end Below

/-- A list whose numbers lie below `b` stays so with one more number below `b`. -/
theorem lt_of_mem_append_singleton {l : List ℕ} {m b : ℕ} (h : ∀ n ∈ l, n < b) (hm : m < b) :
    ∀ n ∈ l ++ [m], n < b := by
  intro n hn
  rcases List.mem_append.mp hn with hn | hn
  · exact h n hn
  · exact (List.mem_singleton.mp hn) ▸ hm

/-! ## What the jobs own -/

/-- The numbers of the jobs `jobs` are protected by `pending`: every number a job allocated is
in it, its reserved numbers and its tables are numbers it allocated, and two threads never
allocate the same number. -/
structure JobsOwn (jobs : Thread → Option Job) (pending : List ℕ) : Prop where
  allocated_pending : ∀ t x, jobs t = some x → ∀ n ∈ x.allocated, n ∈ pending
  owned_allocated : ∀ t x, jobs t = some x → ∀ n ∈ x.reserved ++ x.outputs, n ∈ x.allocated
  allocated_disjoint : ∀ t u x y, t ≠ u → jobs t = some x → jobs u = some y →
    ∀ n ∈ x.allocated, n ∉ y.allocated

section Jobs

variable {jobs : Thread → Option Job} {pending pending' : List ℕ} {t : Thread} {x : Job}

/-- A job of `Function.update jobs t o` is the new one at `t`, or one of `jobs` elsewhere. -/
theorem eq_some_of_update {o : Option Job} {u : Thread} {y : Job}
    (h : Function.update jobs t o u = some y) :
    (u = t ∧ o = some y) ∨ (u ≠ t ∧ jobs u = some y) := by
  by_cases hu : u = t
  · subst hu
    exact .inl ⟨rfl, by rwa [Function.update_self] at h⟩
  · exact .inr ⟨hu, by rwa [Function.update_of_ne hu] at h⟩

theorem JobsOwn.empty : JobsOwn (fun _ ↦ none) pending where
  allocated_pending _ _ h := nomatch h
  owned_allocated _ _ h := nomatch h
  allocated_disjoint _ _ _ _ _ h := nomatch h

theorem JobsOwn.mono (h : JobsOwn jobs pending) (hsub : ∀ n ∈ pending, n ∈ pending') :
    JobsOwn jobs pending' where
  allocated_pending u y hy n hn := hsub n (h.allocated_pending u y hy n hn)
  owned_allocated := h.owned_allocated
  allocated_disjoint := h.allocated_disjoint

/-- Replacing the job of thread `t` by `x` keeps the jobs protected, if `x`'s numbers are
pending and no other thread allocated one of them. -/
theorem JobsOwn.update (h : JobsOwn jobs pending) (hsub : ∀ n ∈ pending, n ∈ pending')
    (hx : ∀ n ∈ x.allocated, n ∈ pending')
    (howned : ∀ n ∈ x.reserved ++ x.outputs, n ∈ x.allocated)
    (hdisj : ∀ u y, u ≠ t → jobs u = some y → ∀ n ∈ x.allocated, n ∉ y.allocated) :
    JobsOwn (Function.update jobs t (some x)) pending' where
  allocated_pending u y hy := by
    rcases eq_some_of_update hy with ⟨-, hxy⟩ | ⟨-, hy⟩
    · cases hxy
      exact hx
    · exact fun n hn ↦ hsub n (h.allocated_pending u y hy n hn)
  owned_allocated u y hy := by
    rcases eq_some_of_update hy with ⟨-, hxy⟩ | ⟨-, hy⟩
    · cases hxy
      exact howned
    · exact h.owned_allocated u y hy
  allocated_disjoint u v y z huv hy hz := by
    rcases eq_some_of_update hy with ⟨rfl, hxy⟩ | ⟨hu, hy'⟩ <;>
      rcases eq_some_of_update hz with ⟨rfl, hxz⟩ | ⟨hv, hz'⟩
    · exact absurd rfl huv
    · cases hxy
      exact hdisj v z (Ne.symm huv) hz'
    · cases hxz
      exact fun n hn hn' ↦ hdisj u y hu hy' n hn' hn
    · exact h.allocated_disjoint u v y z huv hy' hz'

/-- Ending the job `x` of thread `t` and erasing numbers it allocated keeps the other job's
numbers pending. -/
theorem JobsOwn.finish (h : JobsOwn jobs pending) (hjx : jobs t = some x) {l : List ℕ}
    (hl : ∀ n ∈ l, n ∈ x.allocated) :
    JobsOwn (Function.update jobs t none) (pending.filter (· ∉ l)) where
  allocated_pending u y hy n hn := by
    rcases eq_some_of_update hy with ⟨-, h'⟩ | ⟨hu, hy⟩
    · cases h'
    · -- `x` allocated everything in `l`, and `y` shares no number with `x`
      have hnl : n ∉ l := fun hnl ↦
        h.allocated_disjoint t u x y (Ne.symm hu) hjx hy n (hl n hnl) hn
      simpa [hnl] using h.allocated_pending u y hy n hn
  owned_allocated u y hy := by
    rcases eq_some_of_update hy with ⟨-, h'⟩ | ⟨-, hy⟩
    · cases h'
    · exact h.owned_allocated u y hy
  allocated_disjoint u v y z huv hy hz := by
    rcases eq_some_of_update hy with ⟨-, h'⟩ | ⟨-, hy⟩
    · cases h'
    rcases eq_some_of_update hz with ⟨-, h'⟩ | ⟨-, hz⟩
    · cases h'
    exact h.allocated_disjoint u v y z huv hy hz

end Jobs

/-! ## Recovery -/

theorem mem_recoverFiles {snapshot : List ℕ} {edits : List Edit} {n : ℕ}
    (h : n ∈ recoverFiles snapshot edits) : n ∈ snapshot ∨ ∃ e ∈ edits, n ∈ e.newFiles := by
  induction edits generalizing snapshot with
  | nil => exact .inl h
  | cons e edits ih =>
    rcases ih h with h | ⟨e', he', hn⟩
    · rcases List.mem_append.mp h with h | h
      · exact .inl (List.mem_of_mem_filter h)
      · exact .inr ⟨e, List.mem_cons_self, h⟩
    · exact .inr ⟨e', List.mem_cons_of_mem _ he', hn⟩

theorem recoverFiles_append_singleton (snapshot : List ℕ) (edits : List Edit) (e : Edit) :
    recoverFiles snapshot (edits ++ [e]) =
      (recoverFiles snapshot edits).filter (· ∉ e.deletedFiles) ++ e.newFiles := by
  simp only [recoverFiles, List.foldl_append, List.foldl_cons, List.foldl_nil]

section Replay

variable {reserved : ℕ → ℕ} {keep : ℕ → Bool}

theorem le_replayLogs (logs : List ℕ) (acc : ℕ × List ℕ) :
    acc.1 ≤ (replayLogs reserved keep logs acc).1 := by
  induction logs generalizing acc with
  | nil => exact Nat.le_refl _
  | cons n logs ih =>
    rw [replayLogs]
    calc acc.1 ≤ acc.1 + reserved n := Nat.le_add_right _ _
      _ ≤ markFileNumberUsed (acc.1 + reserved n) n := le_markFileNumberUsed _ _
      _ ≤ _ := ih (_, _)

/-- Every replayed log ends below the counter: `MarkFileNumberUsed` after `RecoverLogFile`. -/
theorem lt_replayLogs {logs : List ℕ} {n : ℕ} (h : n ∈ logs) (acc : ℕ × List ℕ) :
    n < (replayLogs reserved keep logs acc).1 := by
  induction logs generalizing acc with
  | nil => cases h
  | cons m logs ih =>
    rw [replayLogs]
    rcases List.mem_cons.mp h with rfl | h
    · exact Nat.lt_of_lt_of_le (lt_markFileNumberUsed _ _) (le_replayLogs _ (_, _))
    · exact ih h _

/-- The tables of the replay are the tables before it, or numbers it took from the counter. -/
theorem mem_replayLogs {logs : List ℕ} {acc : ℕ × List ℕ} {m : ℕ}
    (h : m ∈ (replayLogs reserved keep logs acc).2) :
    m ∈ acc.2 ∨ acc.1 ≤ m ∧ m < (replayLogs reserved keep logs acc).1 := by
  induction logs generalizing acc with
  | nil => exact .inl h
  | cons n logs ih =>
    rw [replayLogs] at h ⊢
    -- the counter after this log lies above its tables, and below the end of the replay
    have hnext : acc.1 + reserved n ≤ markFileNumberUsed (acc.1 + reserved n) n :=
      le_markFileNumberUsed _ _
    have hend := @le_replayLogs reserved keep logs
      (markFileNumberUsed (acc.1 + reserved n) n,
        acc.2 ++ (List.range' acc.1 (reserved n)).filter keep)
    dsimp only at hend
    rcases ih h with h | ⟨hle, hlt⟩
    · rcases List.mem_append.mp h with h | h
      · exact .inl h
      · have hm := List.mem_range'_1.mp (List.mem_of_mem_filter h)
        exact .inr ⟨hm.1, by omega⟩
    · dsimp only at hle
      exact .inr ⟨by omega, hlt⟩

end Replay

/-! ## The invariant -/

/-- The invariant of the file numbers. -/
structure Inv (s : Store) : Prop where
  below : NumbersBelow s s.nextFileNumber
  jobsOwn : JobsOwn s.jobs s.pendingOutputs
  edits_ne : s.edits ≠ []
  edits_below : ∀ e ∈ s.edits, e.Below ∧ e.nextFile ≤ s.nextFileNumber
  edits_sorted : s.edits.Pairwise fun a b ↦ a.nextFile ≤ b.nextFile
  snapshot_below : ∀ n ∈ s.snapshot, ∀ e ∈ s.edits, n < e.nextFile
  applying_below : ∀ t e, s.applying = some (t, e) →
    e.Below ∧ e.nextFile ≤ s.nextFileNumber ∧ ∀ e' ∈ s.edits, e'.nextFile ≤ e.nextFile
  recovers_current : s.bgError = false → recoverFiles s.snapshot s.edits = s.current

namespace Inv

variable {s : Store} {t : Thread} {x : Job} {e : Edit}

theorem opened : Inv Store.opened where
  below := by constructor <;> decide
  jobsOwn := JobsOwn.empty
  edits_ne := List.cons_ne_nil _ _
  edits_below e he := by
    rw [List.mem_singleton.mp he]
    exact ⟨⟨nofun, by decide, by decide⟩, Nat.le_refl _⟩
  edits_sorted := List.pairwise_singleton _ _
  snapshot_below _ h := nomatch h
  applying_below _ _ h := nomatch h
  recovers_current _ := rfl

/-! ### The counter grows -/

theorem edits_below_le (hi : Inv s) {b : ℕ} (hb : s.nextFileNumber ≤ b) :
    ∀ e ∈ s.edits, e.Below ∧ e.nextFile ≤ b :=
  fun e he ↦ ⟨(hi.edits_below e he).1, Nat.le_trans (hi.edits_below e he).2 hb⟩

theorem applying_below_le (hi : Inv s) {b : ℕ} (hb : s.nextFileNumber ≤ b) :
    ∀ t e, s.applying = some (t, e) →
      e.Below ∧ e.nextFile ≤ b ∧ ∀ e' ∈ s.edits, e'.nextFile ≤ e.nextFile := by
  intro t e h
  obtain ⟨hbelow, hnext, hlast⟩ := hi.applying_below t e h
  exact ⟨hbelow, Nat.le_trans hnext hb, hlast⟩

/-- A job that takes the fresh number `s.nextFileNumber` keeps the jobs protected once that
number is pending. -/
theorem jobsOwn_fresh (hi : Inv s) (hx : s.jobs t = some x) {x' : Job}
    (hall : x'.allocated = x.allocated ++ [s.nextFileNumber])
    (howned : ∀ n ∈ x'.reserved ++ x'.outputs, n ∈ x'.allocated) :
    JobsOwn (Function.update s.jobs t (some x')) (s.pendingOutputs ++ [s.nextFileNumber]) := by
  refine hi.jobsOwn.update (fun n hn ↦ List.mem_append_left _ hn) ?_ howned ?_
  · intro n hn
    rw [hall] at hn
    rcases List.mem_append.mp hn with hn | hn
    · exact List.mem_append_left _ (hi.jobsOwn.allocated_pending t x hx n hn)
    · exact List.mem_append_right _ hn
  · intro u y hu hy n hn hn'
    rw [hall] at hn
    rcases List.mem_append.mp hn with hn | hn
    · exact hi.jobsOwn.allocated_disjoint t u x y (Ne.symm hu) hx hy n hn hn'
    · -- `y`'s numbers are pending, hence below the counter
      have hlt := hi.below.pendingOutputs n (hi.jobsOwn.allocated_pending u y hy n hn')
      rw [List.mem_singleton.mp hn] at hlt
      exact Nat.lt_irrefl _ hlt

/-- One more table number below the counter in a list that may or may not receive it. -/
theorem lt_of_mem_ite {c : Bool} {l : List ℕ} {m b : ℕ} (h : ∀ n ∈ l, n < b) (hm : m < b) :
    ∀ n ∈ (if c then l ++ [m] else l), n < b := by
  cases c
  · exact h
  · exact lt_of_mem_append_singleton h hm

theorem mem_of_mem_ite {c : Bool} {l l' : List ℕ} {m : ℕ} (h : ∀ n ∈ l, n ∈ l') (hm : m ∈ l') :
    ∀ n ∈ (if c then l ++ [m] else l), n ∈ l' := by
  cases c
  · exact h
  · intro n hn
    rcases List.mem_append.mp hn with hn | hn
    · exact h n hn
    · exact (List.mem_singleton.mp hn) ▸ hm

/-! ### One lemma per step -/

theorem switchLog (hi : Inv s) : Inv s.switchLog :=
  { hi with
    below := { hi.below.mono (Nat.le_succ _) with
      logfileNumber := Nat.lt_succ_self _
      logFiles := lt_of_mem_append_singleton
        (fun n hn ↦ Nat.lt_succ_of_lt (hi.below.logFiles n hn)) (Nat.lt_succ_self _) }
    edits_below := hi.edits_below_le (Nat.le_succ _)
    applying_below := hi.applying_below_le (Nat.le_succ _) }

theorem allocateAndReuse_eq (s : Store) : s.allocateAndReuse = s := by
  simp [Store.allocateAndReuse, Store.newFileNumber, Store.reuseFileNumber]

theorem writeLevel0TableGuards (hi : Inv s) (numGuards : ℕ) :
    Inv (s.writeLevel0TableGuards numGuards) := by
  -- the reserved numbers lie between the old counter and the new one
  have hres : ∀ n ∈ List.range' s.nextFileNumber (numGuards + 1),
      s.nextFileNumber ≤ n ∧ n < s.nextFileNumber + (numGuards + 1) :=
    fun n hn ↦ List.mem_range'_1.mp hn
  have hle : s.nextFileNumber ≤ s.nextFileNumber + (numGuards + 1) := Nat.le_add_right _ _
  exact { hi with
    below := { hi.below.mono hle with
      pendingOutputs := fun n hn ↦ by
        rcases List.mem_append.mp hn with hn | hn
        · exact Nat.lt_of_lt_of_le (hi.below.pendingOutputs n hn) hle
        · exact (hres n hn).2 }
    jobsOwn := hi.jobsOwn.update (fun n hn ↦ List.mem_append_left _ hn)
      (fun n hn ↦ List.mem_append_right _ hn) (fun n hn ↦ by simpa using hn)
      (fun u y _ hy n hn hn' ↦ by
        have hlt := hi.below.pendingOutputs n (hi.jobsOwn.allocated_pending u y hy n hn')
        have hge := (hres n hn).1
        omega)
    edits_below := hi.edits_below_le hle
    applying_below := hi.applying_below_le hle }

theorem startCompaction (hi : Inv s) (inputs : List ℕ) : Inv (s.startCompaction inputs) :=
  { hi with
    below := { hi.below with }
    jobsOwn := hi.jobsOwn.update (fun _ hn ↦ hn) (fun _ hn ↦ nomatch hn)
      (fun _ hn ↦ by simp at hn) (fun _ _ _ _ _ hn ↦ nomatch hn) }

theorem buildLevel0Table_of_lt (s : Store) (x : Job) (finished kept : Bool)
    (h : x.fileNumberIndex < x.reserved.length) :
    s.buildLevel0Table x finished kept =
      { s with
        tableFiles := if finished && kept then s.tableFiles ++ [x.reserved[x.fileNumberIndex]]
          else s.tableFiles,
        jobs := Function.update s.jobs .memtable (some { x with
          fileNumberIndex := x.fileNumberIndex + 1,
          outputs := if finished then x.outputs ++ [x.reserved[x.fileNumberIndex]]
            else x.outputs }) } := by
  simp [Store.buildLevel0Table, Store.flushFileNumber, h]

theorem buildLevel0Table_of_le (s : Store) (x : Job) (finished kept : Bool)
    (h : x.reserved.length ≤ x.fileNumberIndex) :
    s.buildLevel0Table x finished kept =
      { s with
        nextFileNumber := s.nextFileNumber + 1,
        pendingOutputs := s.pendingOutputs ++ [s.nextFileNumber],
        tableFiles := if finished && kept then s.tableFiles ++ [s.nextFileNumber]
          else s.tableFiles,
        jobs := Function.update s.jobs .memtable (some { x with
          fileNumberIndex := x.fileNumberIndex + 1,
          outputs := if finished then x.outputs ++ [s.nextFileNumber] else x.outputs,
          allocated := x.allocated ++ [s.nextFileNumber] }) } := by
  have h' : ¬ x.fileNumberIndex < x.reserved.length := Nat.not_lt.mpr h
  simp [Store.buildLevel0Table, Store.flushFileNumber, Store.newFileNumber, h']

theorem buildLevel0Table (hi : Inv s) (hx : s.jobs .memtable = some x) (finished kept : Bool) :
    Inv (s.buildLevel0Table x finished kept) := by
  have hown := hi.jobsOwn.owned_allocated _ x hx
  by_cases h : x.fileNumberIndex < x.reserved.length
  · -- the next reserved number: allocated already, hence pending and below the counter
    have hres : x.reserved[x.fileNumberIndex] ∈ x.allocated :=
      hown _ (List.mem_append_left _ (List.getElem_mem h))
    have hlt := hi.below.pendingOutputs _ (hi.jobsOwn.allocated_pending _ x hx _ hres)
    rw [buildLevel0Table_of_lt s x finished kept h]
    exact { hi with
      below := { hi.below with tableFiles := lt_of_mem_ite hi.below.tableFiles hlt }
      jobsOwn := hi.jobsOwn.update (fun _ hn ↦ hn) (hi.jobsOwn.allocated_pending _ x hx)
        (by
          intro n hn
          rcases List.mem_append.mp hn with hn | hn
          · exact hown n (List.mem_append_left _ hn)
          · exact mem_of_mem_ite (fun n hn ↦ hown n (List.mem_append_right _ hn)) hres n hn)
        (fun u y hu hy ↦ hi.jobsOwn.allocated_disjoint _ u x y (Ne.symm hu) hx hy) }
  · -- a fresh number from the counter
    rw [buildLevel0Table_of_le s x finished kept (Nat.le_of_not_lt h)]
    exact { hi with
      below := { hi.below.mono (Nat.le_succ _) with
        pendingOutputs := lt_of_mem_append_singleton
          (fun n hn ↦ Nat.lt_succ_of_lt (hi.below.pendingOutputs n hn)) (Nat.lt_succ_self _)
        tableFiles := lt_of_mem_ite
          (fun n hn ↦ Nat.lt_succ_of_lt (hi.below.tableFiles n hn)) (Nat.lt_succ_self _) }
      jobsOwn := hi.jobsOwn_fresh hx rfl (by
        intro n hn
        rcases List.mem_append.mp hn with hn | hn
        · exact List.mem_append_left _ (hown n (List.mem_append_left _ hn))
        · exact mem_of_mem_ite
            (fun n hn ↦ List.mem_append_left _ (hown n (List.mem_append_right _ hn)))
            (List.mem_append_right _ (List.mem_singleton_self _)) n hn)
      edits_below := hi.edits_below_le (Nat.le_succ _)
      applying_below := hi.applying_below_le (Nat.le_succ _) }

theorem openCompactionOutputFile (hi : Inv s) (hx : s.jobs .level = some x) :
    Inv (s.openCompactionOutputFile x) := by
  have hown := hi.jobsOwn.owned_allocated _ x hx
  exact { hi with
    below := { hi.below.mono (Nat.le_succ _) with
      pendingOutputs := lt_of_mem_append_singleton
        (fun n hn ↦ Nat.lt_succ_of_lt (hi.below.pendingOutputs n hn)) (Nat.lt_succ_self _)
      tableFiles := lt_of_mem_append_singleton
        (fun n hn ↦ Nat.lt_succ_of_lt (hi.below.tableFiles n hn)) (Nat.lt_succ_self _) }
    jobsOwn := hi.jobsOwn_fresh hx rfl (by
      intro n hn
      simp only [List.mem_append, List.mem_singleton] at hn ⊢
      rcases hn with hn | hn | rfl
      · exact .inl (hown n (List.mem_append_left _ hn))
      · exact .inl (hown n (List.mem_append_right _ hn))
      · exact .inr rfl)
    edits_below := hi.edits_below_le (Nat.le_succ _)
    applying_below := hi.applying_below_le (Nat.le_succ _) }

/-- The edit `LogAndApply` writes lies below the counter it records. -/
theorem jobEdit_below (hi : Inv s) (hx : s.jobs t = some x) : (s.jobEdit t x).Below where
  newFiles n hn := hi.below.pendingOutputs n (hi.jobsOwn.allocated_pending t x hx n
    (hi.jobsOwn.owned_allocated t x hx n (List.mem_append_right _ hn)))
  logNumber := by
    cases t
    · exact hi.below.logfileNumber
    · exact hi.below.logNumber
  prevLogNumber := by
    cases t
    · exact Nat.lt_of_le_of_lt (Nat.zero_le _) hi.below.logNumber
    · exact hi.below.prevLogNumber

theorem applyBegin (hi : Inv s) (hx : s.jobs t = some x) : Inv (s.applyBegin t x) :=
  { hi with
    below := { hi.below with }
    applying_below := by
      intro u e h
      cases h
      exact ⟨hi.jobEdit_below hx, Nat.le_refl _, fun e' he' ↦ (hi.edits_below e' he').2⟩ }

theorem finishJob (hi : Inv s) (t : Thread) (built : Bool) : Inv (s.finishJob t built) := by
  unfold Store.finishJob
  split
  · rename_i x hx
    exact { hi with
      below := { hi.below with
        pendingOutputs := fun n hn ↦ hi.below.pendingOutputs n (List.mem_of_mem_filter hn) }
      jobsOwn := hi.jobsOwn.finish hx
        (fun n hn ↦ hi.jobsOwn.owned_allocated t x hx n (Job.mem_eraseList hn)) }
  · exact hi

theorem recordBackgroundError (hi : Inv s) : Inv s.recordBackgroundError :=
  { hi with below := { hi.below with }, recovers_current := nofun }

/-! ### Appending the edit of `LogAndApply` to the MANIFEST -/

section Append

variable (hi : Inv s) (happ : s.applying = some (t, e))
include hi happ

theorem edits_below_append : ∀ e' ∈ s.edits ++ [e], e'.Below ∧ e'.nextFile ≤ s.nextFileNumber := by
  obtain ⟨hbelow, hnext, -⟩ := hi.applying_below t e happ
  intro e' he'
  rcases List.mem_append.mp he' with he' | he'
  · exact hi.edits_below e' he'
  · rw [List.mem_singleton.mp he']
    exact ⟨hbelow, hnext⟩

theorem edits_sorted_append : (s.edits ++ [e]).Pairwise fun a b ↦ a.nextFile ≤ b.nextFile := by
  obtain ⟨-, -, hlast⟩ := hi.applying_below t e happ
  refine List.pairwise_append.mpr ⟨hi.edits_sorted, List.pairwise_singleton _ _, ?_⟩
  intro a ha b hb
  rw [List.mem_singleton.mp hb]
  exact hlast a ha

theorem snapshot_below_append : ∀ n ∈ s.snapshot, ∀ e' ∈ s.edits ++ [e], n < e'.nextFile := by
  obtain ⟨-, -, hlast⟩ := hi.applying_below t e happ
  intro n hn e' he'
  rcases List.mem_append.mp he' with he' | he'
  · exact hi.snapshot_below n hn e' he'
  · -- the snapshot lies below the first edit, which lies below the new one
    rw [List.mem_singleton.mp he']
    obtain ⟨e₀, he₀⟩ := List.exists_mem_of_ne_nil _ hi.edits_ne
    exact Nat.lt_of_lt_of_le (hi.snapshot_below n hn e₀ he₀) (hlast e₀ he₀)

theorem install : Inv { s.install e with applying := none } := by
  obtain ⟨hbelow, hnext, -⟩ := hi.applying_below t e happ
  exact { hi with
    below := { hi.below with
      logNumber := Nat.lt_of_lt_of_le hbelow.logNumber hnext
      prevLogNumber := Nat.lt_of_lt_of_le hbelow.prevLogNumber hnext
      current := fun n hn ↦ by
        rcases List.mem_append.mp hn with hn | hn
        · exact hi.below.current n (List.mem_of_mem_filter hn)
        · exact Nat.lt_of_lt_of_le (hbelow.newFiles n hn) hnext }
    edits_ne := List.append_ne_nil_of_right_ne_nil _ (List.cons_ne_nil _ _)
    edits_below := hi.edits_below_append happ
    edits_sorted := hi.edits_sorted_append happ
    snapshot_below := hi.snapshot_below_append happ
    applying_below := nofun
    recovers_current := fun hbg ↦ by
      simp only [Store.install]
      rw [recoverFiles_append_singleton, hi.recovers_current hbg] }

theorem record :
    Inv { s with edits := s.edits ++ [e], applying := none }.recordBackgroundError :=
  { hi with
    below := { hi.below with }
    edits_ne := List.append_ne_nil_of_right_ne_nil _ (List.cons_ne_nil _ _)
    edits_below := hi.edits_below_append happ
    edits_sorted := hi.edits_sorted_append happ
    snapshot_below := hi.snapshot_below_append happ
    applying_below := nofun
    recovers_current := nofun }

theorem applyEnd (outcome : WriteOutcome) : Inv (s.applyEnd t e outcome) := by
  cases outcome with
  | ok => exact (hi.install happ).finishJob t true
  | recorded => exact (hi.record happ).finishJob t true
  | lost =>
    have hcleared : Inv { s with applying := none } :=
      { hi with below := { hi.below with }, applying_below := nofun }
    exact hcleared.recordBackgroundError.finishJob t true

end Append

theorem abandon (hi : Inv s) (t : Thread) (built : Bool) : Inv (s.abandon t built) :=
  hi.recordBackgroundError.finishJob t built

theorem deleteObsoleteFiles (hi : Inv s) : Inv s.deleteObsoleteFiles := by
  unfold Store.deleteObsoleteFiles
  split
  · exact hi
  · exact { hi with
      below := { hi.below with
        tableFiles := fun n hn ↦ hi.below.tableFiles n (List.mem_of_mem_filter hn)
        logFiles := fun n hn ↦ hi.below.logFiles n (List.mem_of_mem_filter hn) } }

theorem refVersion (hi : Inv s) : Inv s.refVersion :=
  { hi with
    below := { hi.below with
      oldVersions := fun v hv ↦ by
        rcases List.mem_cons.mp hv with rfl | hv
        · exact hi.below.current
        · exact hi.below.oldVersions v hv } }

theorem unrefVersion (hi : Inv s) (k : ℕ) : Inv (s.unrefVersion k) :=
  { hi with
    below := { hi.below with
      oldVersions := fun v hv ↦ hi.below.oldVersions v (List.mem_of_mem_eraseIdx hv) } }

end Inv

/-! ## Recovery -/

namespace Store

theorem deleteObsoleteFiles_of_not_bgError (s : Store) (h : s.bgError = false) :
    s.deleteObsoleteFiles =
      { s with
        tableFiles := s.tableFiles.filter fun n ↦
          n ∈ s.pendingOutputs ∨ n ∈ s.current ∨ ∃ v ∈ s.oldVersions, n ∈ v,
        logFiles := s.logFiles.filter fun n ↦ s.logNumber ≤ n ∨ n = s.prevLogNumber } := by
  simp only [deleteObsoleteFiles, h, Bool.false_eq_true, if_false]

/-- The counter after `DBImpl::Recover` lies above the last edit's next-file number, which
`VersionSet::Recover` made the MANIFEST number. -/
theorem nextFile_lt_recover (s : Store) (last : Edit) (reserved : ℕ → ℕ) (keep : ℕ → Bool) :
    last.nextFile < (s.recover last reserved keep).1.nextFileNumber :=
  Nat.lt_of_lt_of_le (Nat.lt_succ_self _) (le_replayLogs _ (_, _))

/-- The tables of the replay lie below the counter after it. -/
theorem lt_recover_of_mem {s : Store} {last : Edit} {reserved : ℕ → ℕ} {keep : ℕ → Bool} {n : ℕ}
    (h : n ∈ (s.recover last reserved keep).2) :
    n < (s.recover last reserved keep).1.nextFileNumber :=
  (mem_replayLogs h).elim (fun h ↦ nomatch h) (·.2)

end Store

namespace Inv

variable {s : Store} {last : Edit} {reserved : ℕ → ℕ} {keep : ℕ → Bool}

/-- The last edit of the MANIFEST records the largest next-file number. -/
theorem nextFile_le_last (hi : Inv s) (hlast : s.edits.getLast? = some last) :
    ∀ e ∈ s.edits, e.nextFile ≤ last.nextFile := by
  obtain ⟨init, hinit⟩ := List.getLast?_eq_some_iff.mp hlast
  have hsorted := hi.edits_sorted
  rw [hinit, List.pairwise_append] at hsorted
  intro e he
  rw [hinit, List.mem_append, List.mem_singleton] at he
  rcases he with he | rfl
  · exact hsorted.2.2 e he last (List.mem_singleton_self _)
  · exact Nat.le_refl _

/-- Every file of the version `VersionSet::Recover` rebuilds lies below the last edit's
next-file number. -/
theorem recoverFiles_lt (hi : Inv s) (hlast : s.edits.getLast? = some last) :
    ∀ n ∈ recoverFiles s.snapshot s.edits, n < last.nextFile := by
  intro n hn
  have hmem := List.mem_of_getLast? hlast
  rcases mem_recoverFiles hn with hn | ⟨e, he, hn⟩
  · exact hi.snapshot_below n hn last hmem
  · exact Nat.lt_of_lt_of_le ((hi.edits_below e he).1.newFiles n hn)
      (hi.nextFile_le_last hlast e he)

/-- After `DBImpl::Recover` every log in the directory lies below the counter: a replayed log
was marked used, and any other log is older than the last edit's log number. -/
theorem recover_logFiles_lt (hi : Inv s) (hlast : s.edits.getLast? = some last) :
    ∀ n ∈ s.logFiles, n < (s.recover last reserved keep).1.nextFileNumber := by
  intro n hn
  by_cases hreplay : last.logNumber ≤ n ∨ n = last.prevLogNumber
  · show n < (replayLogs reserved keep (s.recoverVersionSet last).replayedLogs
      ((s.recoverVersionSet last).nextFileNumber, [])).1
    refine lt_replayLogs ?_ _
    simp only [Store.replayedLogs, Store.recoverVersionSet, List.mem_mergeSort, List.mem_filter]
    exact ⟨hn, decide_eq_true hreplay⟩
  · have hlog := (hi.edits_below last (List.mem_of_getLast? hlast)).1.logNumber
    have hold : n < last.logNumber := by omega
    exact Nat.lt_trans (Nat.lt_trans hold hlog) (Store.nextFile_lt_recover s last reserved keep)

/-- After `DBImpl::Recover`, the counter lies above the MANIFEST number, the log numbers, every
file of the recovered version and every replayed log. -/
theorem recover_lt (hi : Inv s) (hlast : s.edits.getLast? = some last) :
    ∀ n ∈ (s.recover last reserved keep).1.liveNumbers ++
        (s.recover last reserved keep).1.replayedLogs,
      n < (s.recover last reserved keep).1.nextFileNumber := by
  have hgt := Store.nextFile_lt_recover s last reserved keep
  have hlastBelow := (hi.edits_below last (List.mem_of_getLast? hlast)).1
  intro n hn
  rcases List.mem_append.mp hn with hn | hn
  · simp only [Store.liveNumbers, Store.recover, Store.recoverVersionSet, List.flatten_nil,
      List.append_nil, List.mem_append, List.mem_cons, List.not_mem_nil, or_false] at hn
    rcases hn with (rfl | rfl | rfl) | hn
    · exact hgt
    · exact Nat.lt_trans hlastBelow.logNumber hgt
    · exact Nat.lt_trans hlastBelow.prevLogNumber hgt
    · exact Nat.lt_trans (hi.recoverFiles_lt hlast n hn) hgt
  · simp only [Store.replayedLogs, List.mem_mergeSort, List.mem_filter] at hn
    exact hi.recover_logFiles_lt hlast n hn.1

theorem reopen (hi : Inv s) (hlast : s.edits.getLast? = some last) (reserved : ℕ → ℕ)
    (keep : ℕ → Bool) : Inv (s.reopen last reserved keep) := by
  dsimp only [Store.reopen, Store.newFileNumber]
  rw [Store.deleteObsoleteFiles_of_not_bgError _ rfl]
  -- the state after `DBImpl::Recover`, its counter and the tables of the replay
  set r := (s.recover last reserved keep).1 with hr
  set tables := (s.recover last reserved keep).2 with htables
  have hgt : last.nextFile < r.nextFileNumber := Store.nextFile_lt_recover s last reserved keep
  have hlastBelow := (hi.edits_below last (List.mem_of_getLast? hlast)).1
  have hprev : r.prevLogNumber < r.nextFileNumber := Nat.lt_trans hlastBelow.prevLogNumber hgt
  have hcur : ∀ n ∈ r.current, n < last.nextFile := hi.recoverFiles_lt hlast
  have htab : ∀ n ∈ tables, n < r.nextFileNumber := fun n hn ↦ Store.lt_recover_of_mem hn
  -- the files of the new `current_`, all below the new counter
  have hnew : ∀ n ∈ r.current ++ tables, n < r.nextFileNumber + 1 := by
    intro n hn
    rcases List.mem_append.mp hn with hn | hn
    · exact Nat.lt_succ_of_lt (Nat.lt_trans (hcur n hn) hgt)
    · exact Nat.lt_succ_of_lt (htab n hn)
  exact {
    below := {
      manifestFileNumber := Nat.lt_succ_of_lt hgt
      logNumber := Nat.lt_succ_self _
      prevLogNumber := Nat.lt_succ_of_lt hprev
      logfileNumber := Nat.lt_succ_self _
      current := hnew
      oldVersions := nofun
      pendingOutputs := nofun
      tableFiles := fun n hn ↦ by
        -- with nothing pending and no older version, only the new `current_` is kept
        have hkept := (List.mem_filter.mp hn).2
        have hpending : r.pendingOutputs = [] := rfl
        have hold : r.oldVersions = [] := rfl
        simp only [hpending, hold, decide_eq_true_eq, List.not_mem_nil, false_or, false_and,
          exists_false, or_false] at hkept
        exact hnew n hkept
      logFiles := fun n hn ↦ by
        rcases List.mem_append.mp (List.mem_of_mem_filter hn) with hn | hn
        · exact Nat.lt_succ_of_lt (hi.recover_logFiles_lt hlast n hn)
        · exact (List.mem_singleton.mp hn) ▸ Nat.lt_succ_self _ }
    jobsOwn := JobsOwn.empty
    edits_ne := List.cons_ne_nil _ _
    edits_below := fun e he ↦ by
      rw [List.mem_singleton.mp he]
      exact ⟨⟨fun n hn ↦ Nat.lt_succ_of_lt (htab n hn), Nat.lt_succ_self _,
        Nat.lt_succ_of_lt hprev⟩, Nat.le_refl _⟩
    edits_sorted := List.pairwise_singleton _ _
    snapshot_below := fun n hn e he ↦ by
      rw [List.mem_singleton.mp he]
      exact Nat.lt_succ_of_lt (Nat.lt_trans (hcur n hn) hgt)
    applying_below := nofun
    recovers_current := fun _ ↦ by simp [recoverFiles] }

/-! ### Every reachable state -/

theorem exec_inv {s s' : Store} {a : Action} (hi : Inv s) (h : exec s a = some s') : Inv s' := by
  cases a with
  | switchLog =>
    cases h
    exact hi.switchLog
  | allocateAndReuse =>
    cases h
    rw [allocateAndReuse_eq]
    exact hi
  | startFlush numGuards =>
    simp only [exec] at h
    split at h
    · cases h
    · cases h
      exact hi.writeLevel0TableGuards numGuards
  | startCompaction inputs =>
    simp only [exec] at h
    split at h
    · cases h
    · cases h
      exact hi.startCompaction inputs
  | buildLevel0Table finished kept =>
    simp only [exec] at h
    split at h
    · cases h
    · obtain ⟨x, hx, rfl⟩ := Option.map_eq_some_iff.mp h
      exact hi.buildLevel0Table hx finished kept
  | openCompactionOutputFile =>
    simp only [exec] at h
    split at h
    · cases h
    · obtain ⟨x, hx, rfl⟩ := Option.map_eq_some_iff.mp h
      exact hi.openCompactionOutputFile hx
  | applyBegin t =>
    simp only [exec] at h
    split at h
    · cases h
    · obtain ⟨x, hx, rfl⟩ := Option.map_eq_some_iff.mp h
      exact hi.applyBegin hx
  | applyEnd outcome =>
    simp only [exec] at h
    obtain ⟨⟨t, e⟩, happ, rfl⟩ := Option.map_eq_some_iff.mp h
    exact hi.applyEnd happ outcome
  | abandon t built =>
    simp only [exec] at h
    split at h
    · cases h
    · obtain ⟨-, -, rfl⟩ := Option.map_eq_some_iff.mp h
      exact hi.abandon t built
  | deleteObsoleteFiles =>
    cases h
    exact hi.deleteObsoleteFiles
  | refVersion =>
    cases h
    exact hi.refVersion
  | unrefVersion k =>
    simp only [exec] at h
    split at h
    · cases h
      exact hi.unrefVersion k
    · cases h
  | reopen reserved keep =>
    simp only [exec] at h
    obtain ⟨last, hlast, h⟩ := Option.bind_eq_some_iff.mp h
    split at h
    · cases h
      exact hi.reopen hlast reserved keep
    · cases h

end Inv

/-- **The invariant holds in every reachable state.** -/
theorem reachable_inv {s : Store} (h : Machine.Reachable exec Store.opened s) : Inv s :=
  Machine.Reachable.invariant Inv (fun _ _ _ hi hs ↦ hi.exec_inv hs) Inv.opened h

/-! ## Fresh numbers and kept tables -/

/-- The tables `DeleteObsoleteFiles` must keep: those of a live version, and those a job in
progress will add to its edit. -/
def Store.Needed (s : Store) (n : ℕ) : Prop :=
  n ∈ s.current ∨ (∃ v ∈ s.oldVersions, n ∈ v) ∨ ∃ t x, s.jobs t = some x ∧ n ∈ x.outputs

namespace Inv

variable {s : Store}

/-- A needed table is pending or live, so `DeleteObsoleteFiles` keeps it. -/
theorem mem_deleteObsoleteFiles (hi : Inv s) {n : ℕ} (hn : n ∈ s.tableFiles) (hneed : s.Needed n) :
    n ∈ s.deleteObsoleteFiles.tableFiles := by
  unfold Store.deleteObsoleteFiles
  split
  · exact hn
  · refine List.mem_filter.mpr ⟨hn, decide_eq_true ?_⟩
    rcases hneed with hcur | hold | ⟨t, x, hx, hout⟩
    · exact .inr (.inl hcur)
    · exact .inr (.inr hold)
    · -- a table of a job is a number the job allocated, hence pending
      exact .inl (hi.jobsOwn.allocated_pending t x hx n
        (hi.jobsOwn.owned_allocated t x hx n (List.mem_append_right _ hout)))

end Inv

end PebblesDB.Db.Files
