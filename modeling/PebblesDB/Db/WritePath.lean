import Mathlib
import PebblesDB.Db.WriteBatch
import PebblesDB.Lib.Run

/-!
# The write path

`DBImpl::Write`, `SequenceWriteBegin`, `SequenceWriteEnd` and `CompactMemTableThread`
(`db/db_impl.cc`). PebblesDB lets writers run concurrently. A writer

* takes the log writer under `mutex_` in `SequenceWriteBegin`, first switching to a new
  memtable and a new log if the current memtable is full and no flush is pending;
* draws a ticket with a fetch-and-add on `writers_upper_`, which reserves the sequence numbers
  `ticket - n, …, ticket` for a batch of `n` records;
* appends its batch, with its guard records, to the log it took, without any lock;
* inserts the batch under `mutex_` in `SequenceWriteEnd`, into whatever memtable is current
  then, and raises `LastSequence` to the end of its reservation.

The flush thread turns the immutable memtable into table files, records the current log as
the oldest one still needed (`SetLogNumber(logfile_number_)`), and deletes the older logs.

## The model

A labelled machine in the sense of `PebblesDB.Lib.Run`: one label per atomic step of one
thread, so a run is an interleaving. The memory accounting of the arena
(`ApproximateMemoryUsage`) is a parameter, `usage`, and `writeBufferSize` the option it is
compared with; every statement holds for every accounting. Errors of the environment (a log
that cannot be created, a failed write or flush, `bg_error_`) are not modelled: every step
succeeds. A log is the list of batches written to it; its byte format is
`PebblesDB.Log.Writer`'s. A table file is abstracted to the entries it holds.
-/

namespace PebblesDB.Db

/-- Where a thread is in `DBImpl::Write`. -/
inductive Phase
  /-- Past the `mutex_` section of `SequenceWriteBegin`: the log is chosen. -/
  | begun
  /-- Past the fetch-and-add: the sequence numbers are reserved. -/
  | ticketed
  /-- Past `AddRecord` (and `Sync`). -/
  | logged
  /-- Past `SequenceWriteEnd`: `Write` returns. -/
  | finished
  deriving DecidableEq, Repr

/-- A thread inside `DBImpl::Write`: its arguments and the fields of its `Writer`. -/
structure Writer where
  /-- The batch; `none` for the `NULL` batch that forces a memtable switch. -/
  updates : Option WriteBatch
  /-- `WriteOptions::sync`. -/
  sync : Bool
  /-- How far the thread has got. -/
  phase : Phase
  /-- The number of the log file behind `w->log_`. -/
  log : ℕ
  /-- `start_sequence_`. -/
  startSequence : ℕ
  /-- `end_sequence_`. -/
  endSequence : ℕ
  deriving DecidableEq, Repr

/-- The part of `DBImpl`, of its `VersionSet` and of the database directory the write path
touches. -/
structure DB where
  /-- `mem_`. -/
  mem : List Entry
  /-- `imm_`. -/
  imm : Option (List Entry)
  /-- `logfile_number_`: the log new writers take. -/
  logfileNumber : ℕ
  /-- `versions_->LogNumber()`: the oldest log recovery replays. -/
  logNumber : ℕ
  /-- `versions_->next_file_number_`. -/
  nextFileNumber : ℕ
  /-- `versions_->LastSequence()`. -/
  lastSequence : ℕ
  /-- `writers_upper_`. -/
  writersUpper : ℕ
  /-- The log files in the directory, by number, with the batches written to each. -/
  logs : List (ℕ × List WriteBatch)
  /-- The entries of the table files of `current_`. -/
  tables : List Entry
  /-- The complete guards inserted into `current_`. -/
  completeGuards : List GuardMeta
  /-- The threads inside `Write`, by thread. -/
  writers : List (ℕ × Writer)
  deriving DecidableEq, Repr

/-- `PrevLogNumber()`: every flush records 0. -/
def prevLogNumber : ℕ := 0

namespace DB

/-- The state of a new database right after `DB::Open`: `NewDB` recorded log 0 and next file 2,
`VersionSet::Recover` reserved 2 for the MANIFEST, and `Open` created log 3. -/
def opened : DB where
  mem := []
  imm := none
  logfileNumber := 3
  logNumber := 3
  nextFileNumber := 4
  lastSequence := 0
  writersUpper := 0
  logs := [(3, [])]
  tables := []
  completeGuards := []
  writers := []

/-- The thread `w`, if it is inside `Write`. -/
def writer? (s : DB) (w : ℕ) : Option Writer :=
  s.writers.lookup w

/-- Record the state of thread `w`. -/
def setWriter (s : DB) (w : ℕ) (x : Writer) : DB :=
  { s with writers := (w, x) :: s.writers.filter (·.1 != w) }

/-- `log::Writer::AddRecord` on the log numbered `log`. A log file that has been deleted keeps
nothing: the write goes to an unlinked file. -/
def appendLog (s : DB) (log : ℕ) (batch : WriteBatch) : DB :=
  { s with logs := s.logs.map fun l ↦ if l.1 = log then (l.1, l.2 ++ [batch]) else l }

/-- The log part of `DeleteObsoleteFiles`: keep the logs from `LogNumber()` on and the log
numbered `PrevLogNumber()`. -/
def deleteObsoleteFiles (s : DB) : DB :=
  { s with logs := s.logs.filter fun l ↦ decide (s.logNumber ≤ l.1) || l.1 == prevLogNumber }

/-- The memtable switch of `SequenceWriteBegin`: a new log numbered `NewFileNumber()`, the
current memtable becomes `imm_`, and a new empty one takes its place. -/
def switchMemTable (s : DB) : DB :=
  { s with nextFileNumber := s.nextFileNumber + 1,
           logs := s.logs ++ [(s.nextFileNumber, [])],
           logfileNumber := s.nextFileNumber,
           imm := some s.mem,
           mem := [] }

end DB

/-- The batch a writer logs and inserts: `updates_with_guards`, numbered from its
reservation. -/
def Writer.batch (x : Writer) : Option WriteBatch :=
  x.updates.map fun b ↦ withGuards (b.setSequence x.startSequence)

/-- One atomic step of one thread. -/
inductive Action
  /-- The `mutex_` section of `SequenceWriteBegin` for a new call of `Write`. -/
  | sequenceWriteBegin (w : ℕ) (updates : Option WriteBatch) (sync : Bool)
  /-- The `writers_mutex_` section of `SequenceWriteBegin`: the ticket. -/
  | ticket (w : ℕ)
  /-- `SetSequence`, `SetGuards` and `w.log_->AddRecord` (with `Sync`). -/
  | addRecord (w : ℕ)
  /-- `SequenceWriteEnd`. -/
  | sequenceWriteEnd (w : ℕ)
  /-- One round of `CompactMemTableThread`, from the flush of `imm_` to
  `DeleteObsoleteFiles`. -/
  | compactMemTable
  deriving DecidableEq, Repr

section Machine

variable (usage : List Entry → ℕ) (writeBufferSize : ℕ)

/-- The loop of `SequenceWriteBegin` under `mutex_`: go on if the memtable has room (and the
call does not force a switch), wait while a flush is pending (no step), and otherwise
switch. -/
def beginLocked (s : DB) (force : Bool) : Option DB :=
  if !force && usage s.mem ≤ writeBufferSize then some s
  else if s.imm.isSome then none
  else some s.switchMemTable

/-- One step of the write path. `none` where the step is not enabled: the thread is not at
that point, or it waits. -/
def exec (s : DB) : Action → Option DB
  | .sequenceWriteBegin w updates sync =>
    if (s.writer? w).isSome then none
    else (beginLocked usage writeBufferSize s updates.isNone).map fun s' ↦
      s'.setWriter w ⟨updates, sync, .begun, s'.logfileNumber, 0, 0⟩
  | .ticket w =>
    match s.writer? w with
    | some x =>
      if x.phase = .begun then
        let diff := (x.updates.map WriteBatch.count).getD 0
        let ticket := s.writersUpper + (1 + diff)
        some ({ s with writersUpper := ticket }.setWriter w
          { x with phase := .ticketed, startSequence := ticket - diff, endSequence := ticket })
      else none
    | none => none
  | .addRecord w =>
    match s.writer? w with
    | some x =>
      if x.phase = .ticketed then
        let s' := match x.batch with
          | some b => s.appendLog x.log b
          | none => s
        some (s'.setWriter w { x with phase := .logged })
      else none
    | none => none
  | .sequenceWriteEnd w =>
    match s.writer? w with
    | some x =>
      if x.phase = .logged then
        -- the HACK of the source: the batch goes into the memtable current now
        let s' := match x.batch with
          | some b => { s with mem := s.mem ++ (insertIntoVersion b).1,
                               completeGuards := s.completeGuards ++ (insertIntoVersion b).2 }
          | none => s
        let s' := { s' with lastSequence := max s'.lastSequence x.endSequence }
        some (s'.setWriter w { x with phase := .finished })
      else none
    | none => none
  | .compactMemTable =>
    match s.imm with
    | some m =>
      some { s with tables := s.tables ++ m, logNumber := s.logfileNumber,
                    imm := none }.deleteObsoleteFiles
    | none => none

end Machine

/-! ## Recovery -/

/-- What `DBImpl::Recover` rebuilds after a crash: the entries of the tables of the recovered
version, then the batches of the logs it replays (numbers from `LogNumber()` on, and
`PrevLogNumber()`), in the order of their numbers, each inserted by `RecoverLogFile` with
`InsertIntoVersion`. -/
def recover (s : DB) : List Entry :=
  s.tables ++
    ((s.logs.filter fun l ↦ decide (s.logNumber ≤ l.1) || l.1 == prevLogNumber).mergeSort
      fun a b ↦ decide (a.1 ≤ b.1)).flatMap fun l ↦ l.2.flatMap fun b ↦ (insertIntoVersion b).1

/-- Thread `w` finished a synchronous write: `Write` with `sync = true` returned OK. -/
def acknowledged (s : DB) (w : ℕ) : Bool :=
  match s.writer? w with
  | some x => x.phase == .finished && x.sync
  | none => false

/-- The memtable entries of thread `w`'s batch. -/
def writeEntries (s : DB) (w : ℕ) : List Entry :=
  match (s.writer? w).bind Writer.batch with
  | some b => (insertIntoVersion b).1
  | none => []

/-- Every entry of thread `w`'s batch survives a crash in state `s`. -/
def survivesCrash (s : DB) (w : ℕ) : Bool :=
  (writeEntries s w).all (· ∈ recover s)

/-- The memtable entries a read at snapshot `snap` can see. -/
def visibleAt (s : DB) (snap : ℕ) : List Entry :=
  (s.mem ++ s.imm.getD []).filter (·.sequence ≤ snap)

/-! ## Two runs

Both runs start from a new database and use one-record batches. Keys of one byte are guards at
no level; the key `[3, 164, 176]` hashes to `0x8385ffff`, whose 17 low bits are set, so it is a
guard at level 5 and `SetGuards` gives it guard records for levels 5 and 6. -/

theorem guardRecords_of_byte : guardRecords [1] = [] ∧ guardRecords [2] = [] ∧
    guardRecords [3] = [] := by
  decide

theorem guardRecords_level_five :
    guardRecords [3, 164, 176] = [.guard [3, 164, 176] 5, .guard [3, 164, 176] 6] := by
  decide

/-- A synchronous write that is acknowledged and lost. Thread 0 takes log 3 and its ticket;
thread 1 writes into the memtable through log 3 and fills it; thread 2 finds the memtable
full and switches to log 4; the flush writes the old memtable to a table, records log 4 as
the oldest needed and deletes log 3; thread 0 then appends to the deleted log 3 and inserts
into the new memtable, and returns OK. -/
def lostWriteRun : List Action :=
  [.sequenceWriteBegin 0 (some ⟨0, [.value [1] [1]]⟩) true, .ticket 0,
   .sequenceWriteBegin 1 (some ⟨0, [.value [3] [3]]⟩) false, .ticket 1, .addRecord 1,
   .sequenceWriteEnd 1,
   .sequenceWriteBegin 2 (some ⟨0, [.value [2] [2]]⟩) false,
   .compactMemTable,
   .addRecord 0, .sequenceWriteEnd 0]

/-- **An acknowledged synchronous write does not survive a crash**, under every memory
accounting in which the empty memtable has room and thread 1's entry fills it. -/
theorem lostWriteRun_loses_acknowledged_write (usage : List Entry → ℕ) (writeBufferSize : ℕ)
    (hroom : usage [] ≤ writeBufferSize)
    (hfull : writeBufferSize < usage [⟨3, [3], some [3]⟩]) :
    ∃ s, Machine.run (exec usage writeBufferSize) DB.opened lostWriteRun = some s ∧
      acknowledged s 0 = true ∧ survivesCrash s 0 = false := by
  obtain ⟨h1, -, h3⟩ := guardRecords_of_byte
  simp [lostWriteRun, Machine.run, exec, beginLocked, hroom, not_le.mpr hfull, DB.opened,
    DB.writer?, List.lookup, DB.setWriter, DB.appendLog, DB.deleteObsoleteFiles,
    DB.switchMemTable, Writer.batch, withGuards, setGuards, recordGuards, h1, h3,
    WriteBatch.setSequence, WriteBatch.count, insertIntoVersion, insertRecords, acknowledged,
    survivesCrash, writeEntries, recover, prevLogNumber]

theorem lostWriteRun_loses_acknowledged_write_at_entry_count :
    List.length ([] : List Entry) ≤ 0 ∧ 0 < List.length [(⟨3, [3], some [3]⟩ : Entry)] ∧
      ∃ s, Machine.run (exec List.length 0) DB.opened lostWriteRun = some s ∧
        acknowledged s 0 = true ∧ survivesCrash s 0 = false :=
  ⟨le_rfl, by decide, lostWriteRun_loses_acknowledged_write List.length 0 le_rfl (by decide)⟩

/-- Two writes that finish out of ticket order. Thread 0 reserves 1 and 2 for a put of the
level-5 guard key; thread 1 reserves 3 and 4, logs and inserts its put, and publishes
`LastSequence` 4. -/
def outOfOrderRun : List Action :=
  [.sequenceWriteBegin 0 (some ⟨0, [.value [3, 164, 176] [1]]⟩) false, .ticket 0,
   .sequenceWriteBegin 1 (some ⟨0, [.value [2] [2]]⟩) false, .ticket 1, .addRecord 1,
   .sequenceWriteEnd 1]

/-- **Sequence numbers escape their reservation, and snapshots are not stable.** After
`outOfOrderRun` a reader's snapshot is 4 while thread 0 has not inserted; when thread 0 then
logs and inserts, an entry numbered 1 appears under that snapshot, and the second guard of its
key gets 3, a number of thread 1's reservation `[3, 4]` and not of its own `[1, 2]`. -/
theorem outOfOrderRun_breaks_snapshot (usage : List Entry → ℕ) (writeBufferSize : ℕ)
    (hroom : usage [] ≤ writeBufferSize) :
    ∃ s s', Machine.run (exec usage writeBufferSize) DB.opened outOfOrderRun = some s ∧
      Machine.run (exec usage writeBufferSize) s [.addRecord 0, .sequenceWriteEnd 0] =
        some s' ∧
      s.lastSequence = 4 ∧ visibleAt s 4 ≠ visibleAt s' 4 ∧
      (s'.writer? 0).map (fun x ↦ (x.startSequence, x.endSequence)) = some (1, 2) ∧
      (s'.writer? 1).map (fun x ↦ (x.startSequence, x.endSequence)) = some (3, 4) ∧
      s'.completeGuards.map GuardMeta.sequence = [2, 3] := by
  obtain ⟨-, h2, -⟩ := guardRecords_of_byte
  simp [outOfOrderRun, Machine.run, exec, beginLocked, hroom, DB.opened, DB.writer?,
    List.lookup, DB.setWriter, DB.appendLog, Writer.batch, withGuards, setGuards, recordGuards,
    h2, guardRecords_level_five, WriteBatch.setSequence, WriteBatch.count, insertIntoVersion,
    insertRecords, visibleAt]

theorem outOfOrderRun_breaks_snapshot_at_entry_count :
    List.length ([] : List Entry) ≤ 0 ∧
      ∃ s s', Machine.run (exec List.length 0) DB.opened outOfOrderRun = some s ∧
        Machine.run (exec List.length 0) s [.addRecord 0, .sequenceWriteEnd 0] = some s' ∧
        s.lastSequence = 4 ∧ visibleAt s 4 ≠ visibleAt s' 4 ∧
        (s'.writer? 0).map (fun x ↦ (x.startSequence, x.endSequence)) = some (1, 2) ∧
        (s'.writer? 1).map (fun x ↦ (x.startSequence, x.endSequence)) = some (3, 4) ∧
        s'.completeGuards.map GuardMeta.sequence = [2, 3] :=
  ⟨le_rfl, outOfOrderRun_breaks_snapshot List.length 0 le_rfl⟩

end PebblesDB.Db
