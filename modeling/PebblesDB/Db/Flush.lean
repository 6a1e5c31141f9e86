import PebblesDB.Db.WriteBatch

/-!
# The level-0 flush and its statuses

`BuildLevel0Tables` (`db/builder.cc`) writes the immutable memtable into level-0 tables, one per
level-0 guard interval: the entries below the first guard, then those below each next guard,
then the rest. Every table goes through `NewWritableFile`, `TableBuilder::Finish` and
`FinishFileCompletion`, which syncs, closes and verifies the file and deletes it if any step
failed. `WriteLevel0TableGuards` then adds every table of `meta_list` to the edit when the
build returned OK, and `CompactMemTableThread` drops the memtable.

The status is one local variable `s`. It is overwritten by each `Finish` and by the
`NewWritableFile` of each new table, and `FinishFileCompletion` works on a copy of it. So the
build returns OK as soon as the last table's `Finish` succeeded: a table whose `Finish` failed
earlier is missing from `meta_list` with its entries, and a table whose sync, close or check
failed after a good `Finish` is in `meta_list` although its file was deleted
(`failingFlush_loses_entries`). With no failing file operation the flush does what it is for:
every entry in exactly one table of `meta_list`, in order, and no table deleted
(`buildLevel0Tables_of_allOk`).

The environment's answers are given per file number. A finished table is never empty, so its
`file_size` is positive and the `file_size > 0` tests of the source reduce to the statuses.
-/

namespace PebblesDB.Db.Flush

/-- What the environment answers for the table with a given number. -/
structure TableStatus where
  /-- `env->NewWritableFile`. -/
  newWritableFile : Bool
  /-- `TableBuilder::Finish`. -/
  finish : Bool
  /-- `WritableFile::Sync`. -/
  sync : Bool
  /-- `WritableFile::Close`. -/
  close : Bool
  /-- The status of the iterator `TableCache::NewIterator` opens to verify the table. -/
  verify : Bool
  deriving DecidableEq, Repr

/-- A table of the flush: the number of its `FileMetaData` and the entries added to it. -/
structure FileMeta where
  /-- `meta.number`. -/
  number : ℕ
  /-- The entries `builder->Add` received, in order. -/
  entries : List Entry
  deriving DecidableEq, Repr

/-- The local variables of `BuildLevel0Tables` between two entries. -/
structure BuildState where
  /-- `s.ok()`. -/
  status : Bool
  /-- `count`: entries in the open table; `0` when no table is open. -/
  count : ℕ
  /-- `meta` (a keyword here): the open table, or the last one when none is open. -/
  fileMeta : FileMeta
  /-- `meta_list`. -/
  metaList : List FileMeta
  /-- The files `FinishFileCompletion` deleted. -/
  deleted : List ℕ
  /-- `file_number_index`. -/
  fileNumberIndex : ℕ
  /-- `next_file_number_`, for the numbers past the reserved ones. -/
  nextFileNumber : ℕ
  deriving DecidableEq, Repr

/-- The state on entry: `s` is OK and nothing is open. -/
def BuildState.init (nextFileNumber : ℕ) : BuildState :=
  ⟨true, 0, ⟨0, []⟩, [], [], 0, nextFileNumber⟩

section Build

variable (env : ℕ → TableStatus) (reserved : List ℕ)

/-- `FinishFileCompletion` on its copy of the status: whether the file is kept. -/
def finishFileCompletion (s : Bool) (status : TableStatus) : Bool :=
  let s := s && status.sync
  let s := s && status.close
  s && status.verify

/-- The number of the next table: the next reserved number, or `NewFileNumber`. -/
def nextNumber (st : BuildState) : ℕ × BuildState :=
  if h : st.fileNumberIndex < reserved.length then
    (reserved[st.fileNumberIndex], { st with fileNumberIndex := st.fileNumberIndex + 1 })
  else (st.nextFileNumber, { st with nextFileNumber := st.nextFileNumber + 1 })

@[simp] theorem count_nextNumber (st : BuildState) :
    (nextNumber reserved st).2.count = st.count := by
  unfold nextNumber
  split <;> rfl

@[simp] theorem metaList_nextNumber (st : BuildState) :
    (nextNumber reserved st).2.metaList = st.metaList := by
  unfold nextNumber
  split <;> rfl

@[simp] theorem deleted_nextNumber (st : BuildState) :
    (nextNumber reserved st).2.deleted = st.deleted := by
  unfold nextNumber
  split <;> rfl

/-- The `count == 0` branch: number a new table and create its file. `none` when
`NewWritableFile` fails, and `BuildLevel0Tables` returns that status at once. -/
def openTable (st : BuildState) : Option BuildState :=
  let number := (nextNumber reserved st).1
  let st := (nextNumber reserved st).2
  if (env number).newWritableFile then some { st with status := true, fileMeta := ⟨number, []⟩ }
  else none

/-- `builder->Add` and `count++`. -/
def addEntry (st : BuildState) (e : Entry) : BuildState :=
  { st with fileMeta := { st.fileMeta with entries := st.fileMeta.entries ++ [e] },
            count := st.count + 1 }

/-- One entry of either loop: open a table if none is open, then add the entry. -/
def addToTable (st : BuildState) (e : Entry) : Option BuildState :=
  if st.count = 0 then (openTable env reserved st).map (addEntry · e) else some (addEntry st e)

/-- `s = builder->Finish()`, `meta_list->push_back(meta)` if it succeeded, then
`FinishFileCompletion(s, ...)`. -/
def finishTable (st : BuildState) : BuildState :=
  let s := (env st.fileMeta.number).finish
  { st with
    status := s,
    metaList := if s then st.metaList ++ [st.fileMeta] else st.metaList,
    count := 0,
    deleted := if finishFileCompletion s (env st.fileMeta.number) then st.deleted
      else st.deleted ++ [st.fileMeta.number] }

/-- `if (count > 0) { ... }`: finish the open table, if any. -/
def finishIfOpen (st : BuildState) : BuildState :=
  if 0 < st.count then finishTable env st else st

/-- The inner loop for the guard `g`: add the entries below it; at the first that is not,
finish the open table and stop there. Returns the entries left. -/
def guardLoop (g : GuardMeta) : List Entry → BuildState → Option (List Entry × BuildState)
  | [], st => some ([], st)
  | e :: es, st =>
    if e.key < g.key then (addToTable env reserved st e).bind (guardLoop g es)
    else some (e :: es, finishIfOpen env st)

/-- The loop over the level-0 guards. -/
def guardsLoop : List GuardMeta → List Entry → BuildState → Option (List Entry × BuildState)
  | [], es, st => some (es, st)
  | g :: gs, es, st => (guardLoop env reserved g es st).bind fun r ↦ guardsLoop gs r.1 r.2

/-- The loop for the last guard, or the sentinel when there are no guards: every entry left. -/
def tailLoop : List Entry → BuildState → Option BuildState
  | [], st => some st
  | e :: es, st => (addToTable env reserved st e).bind (tailLoop es)

/-- `BuildLevel0Tables` over the memtable's entries; `none` is the early return of a failed
`NewWritableFile`. The memtable iterator's own status is always OK. -/
def buildLevel0Tables (guards : List GuardMeta) (entries : List Entry) (st : BuildState) :
    Option BuildState :=
  match entries with
  | [] => some st
  | _ :: _ => do
    let r ← guardsLoop env reserved guards entries st
    let st ← tailLoop env reserved r.1 (finishIfOpen env r.2)
    pure (finishIfOpen env st)

end Build

/-- `WriteLevel0TableGuards`: reserve one number per guard and one more, build, and add every
table of `meta_list` to the edit if the build returned OK. The status and the tables of the
edit. -/
def writeLevel0TableGuards (env : ℕ → TableStatus) (guards : List GuardMeta)
    (entries : List Entry) (nextFileNumber : ℕ) : Bool × List FileMeta :=
  let reserved := List.range' nextFileNumber (guards.length + 1)
  match buildLevel0Tables env reserved guards entries
      (BuildState.init (nextFileNumber + (guards.length + 1))) with
  | none => (false, [])
  | some st => (st.status, if st.status then st.metaList else [])

/-! ## The defect -/

/-- One level-0 guard at key `[2]`, and a memtable with `[1]` below it and `[3]` above. -/
def failingGuards : List GuardMeta :=
  [⟨[2], 1, 0⟩]

/-- The memtable of the failing flush. -/
def failingEntries : List Entry :=
  [⟨5, [1], some [1]⟩, ⟨6, [3], some [3]⟩]

/-- The first table (number 10) fails in `Finish`; the second (number 11) is finished but its
`Sync` fails. -/
def failingEnv : ℕ → TableStatus
  | 10 => ⟨true, false, true, true, true⟩
  | 11 => ⟨true, true, false, true, true⟩
  | _ => ⟨true, true, true, true, true⟩

/-- The flush reports OK although the entry of key `[1]` is in no table of the edit, and the
only table of the edit, file 11, was deleted by `FinishFileCompletion`. -/
theorem failingFlush_loses_entries :
    writeLevel0TableGuards failingEnv failingGuards failingEntries 10 =
        (true, [⟨11, [⟨6, [3], some [3]⟩]⟩]) ∧
      (buildLevel0Tables failingEnv (List.range' 10 2) failingGuards failingEntries
        (BuildState.init 12)).map (·.deleted) = some [10, 11] := by
  decide

/-! ## Without failures -/

/-- Every file operation of every table succeeds. -/
def TableStatus.AllOk (env : ℕ → TableStatus) : Prop :=
  ∀ n, env n = ⟨true, true, true, true, true⟩

/-- The entries written so far: those of `meta_list`, then those of the open table. -/
def BuildState.written (st : BuildState) : List Entry :=
  st.metaList.flatMap (·.entries) ++ if st.count = 0 then [] else st.fileMeta.entries

/-- What a flush without failures keeps true between entries: `s` is OK, nothing was deleted,
and an open table holds `count` entries. -/
structure OkState (st : BuildState) : Prop where
  status : st.status = true
  deleted : st.deleted = []
  count_eq : st.count ≠ 0 → st.count = st.fileMeta.entries.length

section AllOk

variable {env : ℕ → TableStatus} (henv : TableStatus.AllOk env) (reserved : List ℕ)
include henv

theorem finishFileCompletion_of_allOk (n : ℕ) : finishFileCompletion true (env n) = true := by
  rw [henv n]
  rfl

theorem finishTable_of_allOk {st : BuildState} (hst : OkState st) :
    OkState (finishTable env st) ∧ (finishTable env st).written =
      st.written ++ if st.count = 0 then st.fileMeta.entries else [] := by
  have hfin : (env st.fileMeta.number).finish = true := by rw [henv]
  refine ⟨⟨by simp [finishTable, hfin], ?_, fun h ↦ absurd rfl h⟩, ?_⟩
  · simp [finishTable, hfin, finishFileCompletion_of_allOk henv, hst.deleted]
  · by_cases h0 : st.count = 0
    · simp [finishTable, BuildState.written, hfin, h0]
    · simp [finishTable, BuildState.written, hfin, h0]

theorem finishIfOpen_of_allOk {st : BuildState} (hst : OkState st) :
    OkState (finishIfOpen env st) ∧ (finishIfOpen env st).written = st.written ∧
      (finishIfOpen env st).count = 0 := by
  unfold finishIfOpen
  split
  · next hpos =>
    obtain ⟨hok, hw⟩ := finishTable_of_allOk henv hst
    refine ⟨hok, ?_, rfl⟩
    rw [hw, if_neg (Nat.pos_iff_ne_zero.mp hpos), List.append_nil]
  · next hzero => exact ⟨hst, rfl, by omega⟩

theorem addToTable_of_allOk {st : BuildState} (hst : OkState st) (e : Entry) :
    ∃ st', addToTable env reserved st e = some st' ∧ OkState st' ∧
      st'.written = st.written ++ [e] ∧ st'.count ≠ 0 := by
  unfold addToTable
  split
  · next h0 =>
    -- a new table, whose only entry is `e`
    have hopen : (env (nextNumber reserved st).1).newWritableFile = true := by rw [henv]
    refine ⟨_, by rw [openTable, if_pos hopen]; rfl, ⟨rfl, ?_, fun _ ↦ ?_⟩, ?_, ?_⟩
    · simp [addEntry, hst.deleted]
    · simp [addEntry, h0]
    · simp [BuildState.written, addEntry, h0]
    · simp [addEntry]
  · next h0 =>
    refine ⟨_, rfl, ⟨hst.status, hst.deleted, fun _ ↦ ?_⟩, ?_, by simp [addEntry]⟩
    · simp [addEntry, hst.count_eq h0]
    · simp [BuildState.written, addEntry, h0]

/-- The inner loop consumes a prefix of the entries and writes exactly it. -/
theorem guardLoop_of_allOk (g : GuardMeta) :
    ∀ (es : List Entry) {st : BuildState}, OkState st →
      ∃ done rest st', guardLoop env reserved g es st = some (rest, st') ∧ es = done ++ rest ∧
        OkState st' ∧ st'.written = st.written ++ done := by
  intro es
  induction es with
  | nil => intro st hst; exact ⟨[], [], st, rfl, rfl, hst, by simp⟩
  | cons e es ih =>
    intro st hst
    by_cases hlt : e.key < g.key
    · obtain ⟨st₁, hadd, hok₁, hw₁, -⟩ := addToTable_of_allOk henv reserved hst e
      obtain ⟨done, rest, st', hloop, hsplit, hok', hw'⟩ := ih hok₁
      refine ⟨e :: done, rest, st', ?_, by rw [hsplit]; rfl, hok', ?_⟩
      · rw [guardLoop, if_pos hlt, hadd, Option.bind_some, hloop]
      · rw [hw', hw₁, List.append_assoc, List.singleton_append]
    · obtain ⟨hok, hw, -⟩ := finishIfOpen_of_allOk henv hst
      exact ⟨[], e :: es, _, by rw [guardLoop, if_neg hlt], rfl, hok, by rw [hw, List.append_nil]⟩

theorem guardsLoop_of_allOk :
    ∀ (gs : List GuardMeta) (es : List Entry) {st : BuildState}, OkState st →
      ∃ done rest st', guardsLoop env reserved gs es st = some (rest, st') ∧ es = done ++ rest ∧
        OkState st' ∧ st'.written = st.written ++ done := by
  intro gs
  induction gs with
  | nil => intro es st hst; exact ⟨[], es, st, rfl, rfl, hst, by simp⟩
  | cons g gs ih =>
    intro es st hst
    obtain ⟨done₁, rest₁, st₁, hloop₁, hsplit₁, hok₁, hw₁⟩ := guardLoop_of_allOk henv reserved g es hst
    obtain ⟨done₂, rest₂, st₂, hloop₂, hsplit₂, hok₂, hw₂⟩ := ih rest₁ hok₁
    refine ⟨done₁ ++ done₂, rest₂, st₂, ?_, by rw [hsplit₁, hsplit₂, List.append_assoc], hok₂, ?_⟩
    · rw [guardsLoop, hloop₁, Option.bind_some, hloop₂]
    · rw [hw₂, hw₁, List.append_assoc]

theorem tailLoop_of_allOk :
    ∀ (es : List Entry) {st : BuildState}, OkState st →
      ∃ st', tailLoop env reserved es st = some st' ∧ OkState st' ∧ st'.written = st.written ++ es := by
  intro es
  induction es with
  | nil => intro st hst; exact ⟨st, rfl, hst, by simp⟩
  | cons e es ih =>
    intro st hst
    obtain ⟨st₁, hadd, hok₁, hw₁, -⟩ := addToTable_of_allOk henv reserved hst e
    obtain ⟨st', hloop, hok', hw'⟩ := ih hok₁
    refine ⟨st', by rw [tailLoop, hadd, Option.bind_some, hloop], hok', ?_⟩
    rw [hw', hw₁, List.append_assoc, List.singleton_append]

/-- **A flush without failures writes every entry once.** When every file operation
succeeds, `BuildLevel0Tables` returns OK, the tables of `meta_list` hold the memtable's
entries exactly, in order, each in one table, and `FinishFileCompletion` deletes none. -/
theorem buildLevel0Tables_of_allOk (guards : List GuardMeta) (entries : List Entry)
    (next : ℕ) :
    ∃ st, buildLevel0Tables env reserved guards entries (BuildState.init next) = some st ∧
      st.status = true ∧ st.metaList.flatMap (·.entries) = entries ∧ st.deleted = [] := by
  have hinit : OkState (BuildState.init next) := ⟨rfl, rfl, fun h ↦ absurd rfl h⟩
  cases entries with
  | nil => exact ⟨_, rfl, rfl, rfl, rfl⟩
  | cons e es =>
    obtain ⟨done, rest, st₁, hloop₁, hsplit, hok₁, hw₁⟩ :=
      guardsLoop_of_allOk henv reserved guards (e :: es) hinit
    obtain ⟨hok₂, hw₂, -⟩ := finishIfOpen_of_allOk henv hok₁
    obtain ⟨st₃, hloop₃, hok₃, hw₃⟩ := tailLoop_of_allOk henv reserved rest hok₂
    obtain ⟨hok₄, hw₄, hcount⟩ := finishIfOpen_of_allOk henv hok₃
    refine ⟨_, ?_, hok₄.status, ?_, hok₄.deleted⟩
    · simp only [buildLevel0Tables, hloop₁, Option.bind_eq_bind, Option.bind_some, hloop₃]
      rfl
    · have hw := hw₄.trans (hw₃.trans (by rw [hw₂, hw₁]))
      simp only [BuildState.written, hcount, if_pos, List.append_nil] at hw
      rw [hw, hsplit]
      simp [BuildState.init]

end AllOk

/-- An environment in which every file operation succeeds. -/
def okEnv : ℕ → TableStatus :=
  fun _ ↦ ⟨true, true, true, true, true⟩

theorem buildLevel0Tables_of_allOk_failingEntries :
    ∃ st, buildLevel0Tables okEnv (List.range' 10 2) failingGuards failingEntries
        (BuildState.init 12) = some st ∧
      st.status = true ∧ st.metaList.flatMap (·.entries) = failingEntries ∧ st.deleted = [] :=
  buildLevel0Tables_of_allOk (fun _ ↦ rfl) (List.range' 10 2) failingGuards failingEntries 12

end PebblesDB.Db.Flush
