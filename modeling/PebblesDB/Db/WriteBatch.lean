import Mathlib.Data.List.Range
import PebblesDB.Util.Coding

/-!
# Write batches and guards

`db/write_batch.cc` and `db/murmurhash3.cc`. A write batch is a start sequence number and a
list of records; PebblesDB adds a third kind of record, the *guard*, to the puts and deletes of
LevelDB. `DBImpl::Write` hands the user's batch to `SetGuards`, which hashes the key of every put
and appends, for a key that is a guard at level `i`, one guard record for each of the levels
`i, …, kNumLevels - 1`. `InsertIntoVersion` then walks the extended batch with a
`MemTableInserter`: each put and delete becomes a memtable entry, each guard record a complete
guard of the current version, and every record takes the next sequence number.

## Sequence numbers

The records of a batch are numbered from its sequence in order, so the memtable entries of a
batch of `n` user records get `start, …, start + n - 1` and its `g` guards get
`start + n, …, start + n + g - 1` (`insertIntoVersion_withGuards`). The write path reserves
only `start, …, start + n` for the batch (`PebblesDB.Db.WritePath`): a key that is a guard at
any level but the last pushes its second guard past the reservation.

The batch's byte representation (`rep_`) is not modelled: a batch is its list of records, and
`Count` is its length, which every mutator of the source keeps equal to the stored count.
-/

namespace PebblesDB

/-! ## MurmurHash3 -/

namespace Murmur3

/-- The multiplier applied to a block before the rotation. -/
def c1 : UInt32 := 0xcc9e2d51

/-- The multiplier applied to a block after the rotation. -/
def c2 : UInt32 := 0x1b873593

/-- `rotl32`. -/
def rotl32 (x r : UInt32) : UInt32 :=
  (x <<< r) ||| (x >>> (32 - r))

/-- `fmix32`: the final avalanche. -/
def fmix32 (h : UInt32) : UInt32 :=
  let h := h ^^^ (h >>> 16)
  let h := h * 0x85ebca6b
  let h := h ^^^ (h >>> 13)
  let h := h * 0xc2b2ae35
  h ^^^ (h >>> 16)

/-- The scrambling of one block `k1`, shared by the body and the tail. -/
def mixK1 (k1 : UInt32) : UInt32 :=
  rotl32 (k1 * c1) 15 * c2

/-- One round of the body on the block `k1`. -/
def mixBlock (h1 k1 : UInt32) : UInt32 :=
  rotl32 (h1 ^^^ mixK1 k1) 13 * 5 + 0xe6546b64

/-- The body: every whole four-byte block, read little-endian as `getblock32` does on the
little-endian hosts the store runs on. Returns the state and the tail. -/
def body (h1 : UInt32) : List UInt8 → UInt32 × List UInt8
  | b0 :: b1 :: b2 :: b3 :: rest => body (mixBlock h1 (decodeFixed32 [b0, b1, b2, b3])) rest
  | tail => (h1, tail)

/-- The tail: the fall-through `switch (len & 3)` over the last one to three bytes. -/
def tailMix (h1 : UInt32) : List UInt8 → UInt32
  | [] => h1
  | [t0] => h1 ^^^ mixK1 t0.toUInt32
  | [t0, t1] => h1 ^^^ mixK1 ((t1.toUInt32 <<< 8) ^^^ t0.toUInt32)
  | t0 :: t1 :: t2 :: _ =>
    h1 ^^^ mixK1 (((t2.toUInt32 <<< 16) ^^^ (t1.toUInt32 <<< 8)) ^^^ t0.toUInt32)

/-- `MurmurHash3_x86_32`. -/
def murmurHash3_x86_32 (key : List UInt8) (seed : UInt32) : UInt32 :=
  let r := body seed key
  fmix32 (tailMix r.1 r.2 ^^^ key.length.toUInt32)

-- the reference value of the hash of "hello" with seed 0
example : murmurHash3_x86_32 [104, 101, 108, 108, 111] 0 = 0x248bfa47 := by decide

end Murmur3

namespace Db

open Murmur3

/-! ## Batches -/

/-- A record of a batch, by its tag. -/
inductive Record
  /-- `kTypeValue`: a put. -/
  | value (key value : List UInt8)
  /-- `kTypeDeletion`. -/
  | deletion (key : List UInt8)
  /-- `kTypeGuard`: a guard key and the level it guards. -/
  | guard (key : List UInt8) (level : ℕ)
  deriving DecidableEq, Repr

/-- Whether a record is a guard record. -/
def Record.isGuard : Record → Bool
  | .guard _ _ => true
  | _ => false

/-- A `WriteBatch`: `sequence` and the records of `rep_`, oldest first. -/
structure WriteBatch where
  /-- The sequence number of the first record. -/
  sequence : ℕ
  /-- The records. -/
  records : List Record
  deriving DecidableEq, Repr

namespace WriteBatch

/-- `WriteBatchInternal::Count`. -/
def count (b : WriteBatch) : ℕ := b.records.length

/-- `WriteBatch::Put`. -/
def put (b : WriteBatch) (key value : List UInt8) : WriteBatch :=
  { b with records := b.records ++ [.value key value] }

/-- `WriteBatch::Delete`. -/
def delete (b : WriteBatch) (key : List UInt8) : WriteBatch :=
  { b with records := b.records ++ [.deletion key] }

/-- `WriteBatch::PutGuard`. -/
def putGuard (b : WriteBatch) (key : List UInt8) (level : ℕ) : WriteBatch :=
  { b with records := b.records ++ [.guard key level] }

/-- `WriteBatchInternal::SetSequence`. -/
def setSequence (b : WriteBatch) (seq : ℕ) : WriteBatch :=
  { b with sequence := seq }

end WriteBatch

/-! ## Guards -/

/-- `config::kNumLevels`. -/
def kNumLevels : ℕ := 7

/-- `GuardInserter::top_level_bits`: the low bits of the hash a level-0 guard must have set. -/
def topLevelBits : ℕ := 27

/-- `GuardInserter::bit_decrement`: each deeper level asks for two bits fewer. -/
def bitDecrement : ℕ := 2

/-- `GuardInserter::set_mask`: the `numBits` low bits. -/
def setMask (numBits : ℕ) : UInt32 :=
  (1 <<< numBits.toUInt32) - 1

/-- The level at which a key with hash `hash` becomes a guard: the first level, from the top,
whose mask the hash matches. -/
def guardLevel (hash : UInt32) : Option ℕ :=
  (List.range kNumLevels).find? fun i ↦
    hash &&& setMask (topLevelBits - bitDecrement * i) == setMask (topLevelBits - bitDecrement * i)

/-- The guard records for `key` when it is a guard at `level`: one for each of the levels
`level, …, kNumLevels - 1`. -/
def guardRecordsAt (level : Option ℕ) (key : List UInt8) : List Record :=
  match level with
  | some i => (List.range' i (kNumLevels - i)).map (Record.guard key)
  | none => []

/-- `GuardInserter::Put`: hash the key with seed 42 and emit its guard records. -/
def guardRecords (key : List UInt8) : List Record :=
  guardRecordsAt (guardLevel (murmurHash3_x86_32 key 42)) key

/-- The guard records `GuardInserter` produces for one record of the user's batch: deletes
produce none, and the handler for guard records (`assert(0)`) does nothing in a release
build. -/
def recordGuards : Record → List Record
  | .value key _ => guardRecords key
  | _ => []

/-- `WriteBatchInternal::SetGuards(b, new_b)`: the guard records of `b`, appended to `new_b`. -/
def setGuards (b newB : WriteBatch) : WriteBatch :=
  { newB with records := newB.records ++ b.records.flatMap recordGuards }

/-- `updates_with_guards` of `DBImpl::Write`: a copy of the batch with its guards appended. -/
def withGuards (b : WriteBatch) : WriteBatch :=
  setGuards b b

-- Lemmas about guards quantify over the level rather than the hash: the kernel must never
-- unfold the hash of a symbolic key, whose multiplications by large constants it would
-- evaluate in unary.
theorem isGuard_of_mem_guardRecordsAt {level : Option ℕ} {key : List UInt8} {r : Record}
    (h : r ∈ guardRecordsAt level key) : r.isGuard = true := by
  cases level with
  | none => exact absurd h List.not_mem_nil
  | some i =>
    obtain ⟨j, -, rfl⟩ := List.mem_map.mp h
    rfl

theorem isGuard_of_mem_recordGuards {r r' : Record} (h : r' ∈ recordGuards r) :
    r'.isGuard = true := by
  cases r with
  | value key v => exact isGuard_of_mem_guardRecordsAt h
  | deletion key => exact absurd h List.not_mem_nil
  | guard key level => exact absurd h List.not_mem_nil

/-! ## Inserting a batch -/

/-- A memtable entry: a sequence number, a user key and a value, `none` for a deletion. -/
structure Entry where
  /-- The sequence number of the entry. -/
  sequence : ℕ
  /-- The user key. -/
  key : List UInt8
  /-- The value of a put; `none` for a deletion. -/
  value : Option (List UInt8)
  deriving DecidableEq, Repr

/-- A complete guard added to a version: `guard_key` (the user key with the sequence number it
was inserted under) and `level`. -/
structure GuardMeta where
  /-- The guard's user key. -/
  key : List UInt8
  /-- The sequence number of `guard_key`. -/
  sequence : ℕ
  /-- The level the guard partitions. -/
  level : ℕ
  deriving DecidableEq, Repr

/-- `WriteBatch::Iterate` with a `MemTableInserter` that has a version, its `sequence_`
starting at `seq`: the memtable entries and the complete guards. -/
def insertRecords : ℕ → List Record → List Entry × List GuardMeta
  | _, [] => ([], [])
  | seq, .value key value :: rs =>
    let rest := insertRecords (seq + 1) rs
    (⟨seq, key, some value⟩ :: rest.1, rest.2)
  | seq, .deletion key :: rs =>
    let rest := insertRecords (seq + 1) rs
    (⟨seq, key, none⟩ :: rest.1, rest.2)
  | seq, .guard key level :: rs =>
    let rest := insertRecords (seq + 1) rs
    (rest.1, ⟨key, seq, level⟩ :: rest.2)

/-- `WriteBatchInternal::InsertIntoVersion`, which both `SequenceWriteEnd` and log recovery
call. -/
def insertIntoVersion (b : WriteBatch) : List Entry × List GuardMeta :=
  insertRecords b.sequence b.records

/-- Inserting user records (puts and deletes) numbers them from `seq` on and adds no guard. -/
theorem insertRecords_of_user :
    ∀ (seq : ℕ) (rs : List Record), (∀ r ∈ rs, r.isGuard = false) →
      (insertRecords seq rs).1.map Entry.sequence = List.range' seq rs.length ∧
        (insertRecords seq rs).2 = []
  | _, [], _ => ⟨rfl, rfl⟩
  | seq, .value key value :: rs, h => by
    obtain ⟨ih1, ih2⟩ := insertRecords_of_user (seq + 1) rs
      fun r hr ↦ h r (List.mem_cons_of_mem _ hr)
    simp only [insertRecords, List.map_cons, List.length_cons, List.range'_succ]
    exact ⟨by rw [ih1], ih2⟩
  | seq, .deletion key :: rs, h => by
    obtain ⟨ih1, ih2⟩ := insertRecords_of_user (seq + 1) rs
      fun r hr ↦ h r (List.mem_cons_of_mem _ hr)
    simp only [insertRecords, List.map_cons, List.length_cons, List.range'_succ]
    exact ⟨by rw [ih1], ih2⟩
  | _, .guard key level :: rs, h => absurd (h _ List.mem_cons_self) (by simp [Record.isGuard])

/-- Inserting guard records numbers them from `seq` on and adds no entry. -/
theorem insertRecords_of_guards :
    ∀ (seq : ℕ) (gs : List Record), (∀ r ∈ gs, r.isGuard = true) →
      (insertRecords seq gs).1 = [] ∧
        (insertRecords seq gs).2.map GuardMeta.sequence = List.range' seq gs.length
  | _, [], _ => ⟨rfl, rfl⟩
  | seq, .guard key level :: gs, h => by
    obtain ⟨ih1, ih2⟩ := insertRecords_of_guards (seq + 1) gs
      fun r hr ↦ h r (List.mem_cons_of_mem _ hr)
    simp only [insertRecords, List.map_cons, List.length_cons, List.range'_succ]
    exact ⟨ih1, by rw [ih2]⟩
  | _, .value key value :: gs, h => absurd (h _ List.mem_cons_self) (by simp [Record.isGuard])
  | _, .deletion key :: gs, h => absurd (h _ List.mem_cons_self) (by simp [Record.isGuard])

/-- The memtable entry of a record numbered `seq`: a put's or a delete's. -/
def Record.entryAt (seq : ℕ) : Record → Option Entry
  | .value key v => some ⟨seq, key, some v⟩
  | .deletion key => some ⟨seq, key, none⟩
  | .guard _ _ => none

/-- The complete guard of a record numbered `seq`: a guard record's. -/
def Record.guardAt (seq : ℕ) : Record → Option GuardMeta
  | .guard key level => some ⟨key, seq, level⟩
  | _ => none

/-- **Every record takes the next sequence number, whatever its kind**: record `i` of the batch
is numbered `seq + i`, its entry or its guard alike. -/
theorem insertRecords_eq_zipIdx (seq : ℕ) (rs : List Record) :
    insertRecords seq rs = ((rs.zipIdx seq).filterMap fun p ↦ p.1.entryAt p.2,
      (rs.zipIdx seq).filterMap fun p ↦ p.1.guardAt p.2) := by
  induction rs generalizing seq with
  | nil => rfl
  | cons r rs ih =>
    cases r <;> simp [insertRecords, List.zipIdx_cons, ih, Record.entryAt, Record.guardAt]

/-- The records after a run of user records are numbered after them. -/
theorem insertRecords_append_of_user :
    ∀ (seq : ℕ) (rs rs' : List Record), (∀ r ∈ rs, r.isGuard = false) →
      insertRecords seq (rs ++ rs') =
        ((insertRecords seq rs).1 ++ (insertRecords (seq + rs.length) rs').1,
          (insertRecords (seq + rs.length) rs').2)
  | seq, [], rs', _ => by simp [insertRecords]
  | seq, .value key value :: rs, rs', h => by
    have ih := insertRecords_append_of_user (seq + 1) rs rs'
      fun r hr ↦ h r (List.mem_cons_of_mem _ hr)
    simp only [List.cons_append, insertRecords, ih, List.length_cons, List.cons_append]
    rw [Nat.add_assoc, Nat.add_comm 1]
  | seq, .deletion key :: rs, rs', h => by
    have ih := insertRecords_append_of_user (seq + 1) rs rs'
      fun r hr ↦ h r (List.mem_cons_of_mem _ hr)
    simp only [List.cons_append, insertRecords, ih, List.length_cons, List.cons_append]
    rw [Nat.add_assoc, Nat.add_comm 1]
  | _, .guard key level :: rs, _, h => absurd (h _ List.mem_cons_self) (by simp [Record.isGuard])

/-- **Sequence numbers of a write.** Inserting `updates_with_guards` for a batch of user records
starting at `start` numbers its memtable entries `start, …, start + n - 1` and its guards
`start + n, …, start + n + g - 1`. -/
theorem insertIntoVersion_withGuards (b : WriteBatch) (start : ℕ)
    (h : ∀ r ∈ b.records, r.isGuard = false) :
    (insertIntoVersion (withGuards (b.setSequence start))).1.map Entry.sequence =
        List.range' start b.count ∧
      (insertIntoVersion (withGuards (b.setSequence start))).2.map GuardMeta.sequence =
        List.range' (start + b.count) (b.records.flatMap recordGuards).length := by
  have hguards : ∀ r ∈ b.records.flatMap recordGuards, r.isGuard = true := by
    intro r hr
    obtain ⟨r', -, hr'⟩ := List.mem_flatMap.mp hr
    exact isGuard_of_mem_recordGuards hr'
  obtain ⟨hentries, hnone⟩ := insertRecords_of_user start b.records h
  obtain ⟨hno, hseqs⟩ := insertRecords_of_guards (start + b.records.length) _ hguards
  simp only [insertIntoVersion, withGuards, setGuards, WriteBatch.setSequence,
    insertRecords_append_of_user start _ _ h, hno, List.append_nil, WriteBatch.count]
  exact ⟨hentries, hseqs⟩

end Db

end PebblesDB
