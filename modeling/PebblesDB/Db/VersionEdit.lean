import PebblesDB.Util.Coding
import PebblesDB.Lib.OrderedSet
import PebblesDB.Db.WriteBatch

/-!
# Version edits

`VersionEdit` (db/version_edit.h, db/version_edit.cc): a change to the files and guards of the
levels. The MANIFEST stores it as a sequence of entries, each a varint tag and its fields:
`EncodeTo` writes them, `DecodeFrom` reads them back into a cleared edit and reports a
malformed entry as corruption.

Guards are PebblesDB's. `EncodeTo` writes a guard as its level field, a segment count of `0` and
its key, without its files. `DecodeFrom` reads, for a count `n > 0`, two bounding keys and then
`n` pairs of a `kFileInsideGuard` tag and a file number, but the reads of the keys are the
argument of an `assert`, and the results of the pair reads are never checked.

A build either has assertions or not (`assertions`): an `assert` either aborts the process
(`none`) or is not there at all. The set of deleted guards orders `(level, key)` pairs by level,
and by the keys through an `internal_comparator` that nothing ever sets: a second deleted guard
at one level dereferences it (`none` again).
-/

namespace PebblesDB.Db

instance : NeZero kNumLevels := ⟨by decide⟩

/-- `FileMetaData`, the fields an edit records. -/
structure FileMetaData where
  number : UInt64
  fileSize : UInt64
  smallest : List UInt8
  largest : List UInt8
  deriving DecidableEq, Repr

/-- `GuardMetaData`, the fields an edit records. -/
structure GuardMetaData where
  level : ℤ
  numberSegments : UInt64
  guardKey : List UInt8
  smallest : List UInt8
  largest : List UInt8
  files : List UInt64
  deriving DecidableEq, Repr

namespace GuardMetaData

/-- `GuardMetaData()`. -/
def init : GuardMetaData := ⟨-1, 0, [], [], [], []⟩

/-- What `EncodeTo` keeps of a guard, which identifies it (`version_edit.h`): its level and its
key. -/
def strip (g : GuardMetaData) : GuardMetaData :=
  { init with level := g.level, guardKey := g.guardKey }

end GuardMetaData

/-- `VersionEdit`. Internal keys are their representations, `rep_`; the arrays of `kNumLevels`
vectors are functions of the level; the two `std::set`s are lists in their order. -/
structure VersionEdit where
  comparator : List UInt8
  logNumber : UInt64
  prevLogNumber : UInt64
  nextFileNumber : UInt64
  lastSequence : UInt64
  hasComparator : Bool
  hasLogNumber : Bool
  hasPrevLogNumber : Bool
  hasNextFileNumber : Bool
  hasLastSequence : Bool
  compactPointers : List (ℤ × List UInt8)
  deletedFiles : List (ℤ × UInt64)
  newFiles : List (ℤ × FileMetaData)
  sentinelFileNos : Fin kNumLevels → List UInt64
  deletedSentinelFiles : List (ℤ × UInt64)
  newGuards : Fin kNumLevels → List GuardMetaData
  newCompleteGuards : Fin kNumLevels → List GuardMetaData
  deletedGuards : List (ℤ × List UInt8)

namespace VersionEdit

/-! ## Building an edit -/

/-- The order of a `DeletedFileSet`, `std::pair`'s: level first, then file number. -/
def pairLt (a b : ℤ × UInt64) : Bool :=
  decide (a.1 < b.1) || (decide (a.1 = b.1) && decide (a.2 < b.2))

/-- `BySmallestPair` on guards of different levels, the only ones it can compare. -/
def levelLt (a b : ℤ × List UInt8) : Bool :=
  decide (a.1 < b.1)

/-- `v[k].push_back(x)` on an array of `kNumLevels` vectors. -/
def appendAt {α : Type} (v : Fin kNumLevels → List α) (k : Fin kNumLevels) (x : α) :
    Fin kNumLevels → List α :=
  Function.update v k (v k ++ [x])

/-- `assert(level >= 0 && level < config::kNumLevels)`: the level as an index of the arrays.
Without assertions an index out of range is past the array, so `none` either way. -/
def toLevel (level : ℤ) : Option (Fin kNumLevels) :=
  if h : 0 ≤ level ∧ level < kNumLevels then some ⟨level.toNat, by omega⟩ else none

/-- `Clear()`. It leaves `compact_pointers_`, `sentinel_file_nos_` and `new_complete_guards_`
as they are. -/
def clear (e : VersionEdit) : VersionEdit :=
  { e with
    comparator := [], logNumber := 0, prevLogNumber := 0, lastSequence := 0, nextFileNumber := 0,
    hasComparator := false, hasLogNumber := false, hasPrevLogNumber := false,
    hasNextFileNumber := false, hasLastSequence := false,
    deletedFiles := [], newFiles := [], deletedGuards := [], newGuards := fun _ ↦ [],
    deletedSentinelFiles := [] }

/-- `VersionEdit()`: every member value-initialised, then `Clear()`. -/
def empty : VersionEdit :=
  clear ⟨[], 0, 0, 0, 0, false, false, false, false, false, [], [], [], fun _ ↦ [], [],
    fun _ ↦ [], fun _ ↦ [], []⟩

def setComparatorName (e : VersionEdit) (name : List UInt8) : VersionEdit :=
  { e with hasComparator := true, comparator := name }

def setLogNumber (e : VersionEdit) (num : UInt64) : VersionEdit :=
  { e with hasLogNumber := true, logNumber := num }

def setPrevLogNumber (e : VersionEdit) (num : UInt64) : VersionEdit :=
  { e with hasPrevLogNumber := true, prevLogNumber := num }

def setNextFile (e : VersionEdit) (num : UInt64) : VersionEdit :=
  { e with hasNextFileNumber := true, nextFileNumber := num }

def setLastSequence (e : VersionEdit) (seq : UInt64) : VersionEdit :=
  { e with hasLastSequence := true, lastSequence := seq }

def setCompactPointer (e : VersionEdit) (level : ℤ) (key : List UInt8) : VersionEdit :=
  { e with compactPointers := e.compactPointers ++ [(level, key)] }

def addFile (e : VersionEdit) (level : ℤ) (file fileSize : UInt64) (smallest largest : List UInt8) :
    VersionEdit :=
  { e with newFiles := e.newFiles ++ [(level, ⟨file, fileSize, smallest, largest⟩)] }

def deleteFile (e : VersionEdit) (level : ℤ) (file : UInt64) : VersionEdit :=
  { e with deletedFiles := OrderedSet.insert pairLt (level, file) e.deletedFiles }

/-- `DeleteGuard`. Inserting next to a guard of the same level calls `BySmallestPair` on the
two, which calls the null `internal_comparator`: a crash (`none`). -/
def deleteGuard (e : VersionEdit) (level : ℤ) (guard : List UInt8) : Option VersionEdit :=
  if e.deletedGuards.any (fun p ↦ p.1 == level) then none
  else some { e with deletedGuards := OrderedSet.insert levelLt (level, guard) e.deletedGuards }

def deleteSentinelFile (e : VersionEdit) (level : ℤ) (file : UInt64) : VersionEdit :=
  { e with deletedSentinelFiles := OrderedSet.insert pairLt (level, file) e.deletedSentinelFiles }

/-- The `AddGuard*` family: a guard onto the vector of its level, after the level's assert. -/
def pushGuard (guards : Fin kNumLevels → List GuardMetaData) (level : ℤ) (g : GuardMetaData) :
    Option (Fin kNumLevels → List GuardMetaData) :=
  (toLevel level).map fun k ↦ appendAt guards k g

def addGuard (e : VersionEdit) (level : ℤ) (guardKey : List UInt8) : Option VersionEdit :=
  (pushGuard e.newGuards level { GuardMetaData.init with guardKey, level, numberSegments := 0 }).map
    fun gs ↦ { e with newGuards := gs }

def addCompleteGuard (e : VersionEdit) (level : ℤ) (guardKey : List UInt8) : Option VersionEdit :=
  (pushGuard e.newCompleteGuards level
      { GuardMetaData.init with guardKey, level, numberSegments := 0 }).map
    fun gs ↦ { e with newCompleteGuards := gs }

def addGuardFromExisting (e : VersionEdit) (level : ℤ) (g : GuardMetaData) :
    Option VersionEdit :=
  (pushGuard e.newGuards level g).map fun gs ↦ { e with newGuards := gs }

def addCompleteGuardFromExisting (e : VersionEdit) (level : ℤ) (g : GuardMetaData) :
    Option VersionEdit :=
  (pushGuard e.newCompleteGuards level g).map fun gs ↦ { e with newCompleteGuards := gs }

def addGuardWithFiles (e : VersionEdit) (level : ℤ) (numberSegments : UInt64)
    (guardKey smallest largest : List UInt8) (files : List UInt64) : Option VersionEdit :=
  (pushGuard e.newGuards level
      { GuardMetaData.init with guardKey, level, smallest, largest, numberSegments, files }).map
    fun gs ↦ { e with newGuards := gs }

/-- `AddSentinelFileNo`, which `DecodeFrom` does for a `kNewSentinelFile` entry. -/
def addSentinelFileNo (e : VersionEdit) (level : Fin kNumLevels) (number : UInt64) :
    VersionEdit :=
  { e with sentinelFileNos := appendAt e.sentinelFileNos level number }

/-- A call of a setter or an adder. -/
inductive Call where
  | setComparatorName (name : List UInt8)
  | setLogNumber (num : UInt64)
  | setPrevLogNumber (num : UInt64)
  | setNextFile (num : UInt64)
  | setLastSequence (seq : UInt64)
  | setCompactPointer (level : ℤ) (key : List UInt8)
  | addFile (level : ℤ) (file fileSize : UInt64) (smallest largest : List UInt8)
  | deleteFile (level : ℤ) (file : UInt64)
  | deleteGuard (level : ℤ) (guard : List UInt8)
  | addGuard (level : ℤ) (guardKey : List UInt8)
  | addGuardWithFiles (level : ℤ) (numberSegments : UInt64) (guardKey smallest largest : List UInt8)
      (files : List UInt64)
  | addGuardFromExisting (level : ℤ) (g : GuardMetaData)
  | addCompleteGuard (level : ℤ) (guardKey : List UInt8)
  | addCompleteGuardFromExisting (level : ℤ) (g : GuardMetaData)
  | deleteSentinelFile (level : ℤ) (file : UInt64)
  deriving Repr

/-- Making the call on an edit; `none` where it aborts. -/
def Call.apply (e : VersionEdit) : Call → Option VersionEdit
  | .setComparatorName name => some (e.setComparatorName name)
  | .setLogNumber num => some (e.setLogNumber num)
  | .setPrevLogNumber num => some (e.setPrevLogNumber num)
  | .setNextFile num => some (e.setNextFile num)
  | .setLastSequence seq => some (e.setLastSequence seq)
  | .setCompactPointer level key => some (e.setCompactPointer level key)
  | .addFile level file fileSize smallest largest =>
    some (e.addFile level file fileSize smallest largest)
  | .deleteFile level file => some (e.deleteFile level file)
  | .deleteGuard level guard => e.deleteGuard level guard
  | .addGuard level guardKey => e.addGuard level guardKey
  | .addGuardWithFiles level numberSegments guardKey smallest largest files =>
    e.addGuardWithFiles level numberSegments guardKey smallest largest files
  | .addGuardFromExisting level g => e.addGuardFromExisting level g
  | .addCompleteGuard level guardKey => e.addCompleteGuard level guardKey
  | .addCompleteGuardFromExisting level g => e.addCompleteGuardFromExisting level g
  | .deleteSentinelFile level file => some (e.deleteSentinelFile level file)

/-- A fresh edit after the calls, in order. -/
def ofCalls (calls : List Call) : Option VersionEdit :=
  calls.foldlM Call.apply empty

/-! ## Encoding -/

/-- The tags of the entries. -/
inductive Tag where
  | kComparator | kLogNumber | kNextFileNumber | kLastSequence | kCompactPointer | kDeletedFile
  | kNewFile | kPrevLogNumber | kDeletedGuard | kNewGuard | kFileInsideGuard | kNewSentinelFile
  | kDeletedSentinelFile | kNewCompleteGuard | kNewSentinelFileNo
  deriving DecidableEq, Repr

/-- The numbers of the tags, as written to disk. -/
def Tag.toUInt32 : Tag → UInt32
  | .kComparator => 1
  | .kLogNumber => 2
  | .kNextFileNumber => 3
  | .kLastSequence => 4
  | .kCompactPointer => 5
  | .kDeletedFile => 6
  | .kNewFile => 7
  | .kPrevLogNumber => 9
  | .kDeletedGuard => 10
  | .kNewGuard => 11
  | .kFileInsideGuard => 12
  | .kNewSentinelFile => 13
  | .kDeletedSentinelFile => 14
  | .kNewCompleteGuard => 15
  | .kNewSentinelFileNo => 16

/-- The tag a number stands for. -/
def Tag.ofUInt32? (tag : UInt32) : Option Tag :=
  match tag.toNat with
  | 1 => some .kComparator
  | 2 => some .kLogNumber
  | 3 => some .kNextFileNumber
  | 4 => some .kLastSequence
  | 5 => some .kCompactPointer
  | 6 => some .kDeletedFile
  | 7 => some .kNewFile
  | 9 => some .kPrevLogNumber
  | 10 => some .kDeletedGuard
  | 11 => some .kNewGuard
  | 12 => some .kFileInsideGuard
  | 13 => some .kNewSentinelFile
  | 14 => some .kDeletedSentinelFile
  | 15 => some .kNewCompleteGuard
  | 16 => some .kNewSentinelFileNo
  | _ => none

@[simp] theorem Tag.ofUInt32?_toUInt32 (t : Tag) : Tag.ofUInt32? t.toUInt32 = some t := by
  cases t <;> rfl

/-- `PutVarint32(dst, level)`: the `int` converted to `uint32_t`. -/
def putLevel (dst : List UInt8) (level : ℤ) : List UInt8 :=
  putVarint32 dst (UInt32.ofInt level)

/-- An entry `EncodeTo` writes. A new guard or complete guard is its level field and its key. -/
inductive Entry where
  | comparator (name : List UInt8)
  | logNumber (num : UInt64)
  | prevLogNumber (num : UInt64)
  | nextFileNumber (num : UInt64)
  | lastSequence (seq : UInt64)
  | compactPointer (level : ℤ) (key : List UInt8)
  | deletedFile (level : ℤ) (number : UInt64)
  | newFile (level : ℤ) (f : FileMetaData)
  | deletedGuard (level : ℤ) (key : List UInt8)
  | newGuard (level : ℤ) (guardKey : List UInt8)
  | newCompleteGuard (level : ℤ) (guardKey : List UInt8)
  | deletedSentinelFile (level : ℤ) (number : UInt64)
  deriving DecidableEq, Repr

/-- The tag an entry starts with. -/
def Entry.tag : Entry → Tag
  | .comparator _ => .kComparator
  | .logNumber _ => .kLogNumber
  | .prevLogNumber _ => .kPrevLogNumber
  | .nextFileNumber _ => .kNextFileNumber
  | .lastSequence _ => .kLastSequence
  | .compactPointer _ _ => .kCompactPointer
  | .deletedFile _ _ => .kDeletedFile
  | .newFile _ _ => .kNewFile
  | .deletedGuard _ _ => .kDeletedGuard
  | .newGuard _ _ => .kNewGuard
  | .newCompleteGuard _ _ => .kNewCompleteGuard
  | .deletedSentinelFile _ _ => .kDeletedSentinelFile

/-- The fields of an entry, after its tag. A guard's segment count is written as `0`. -/
def Entry.fields : Entry → List UInt8
  | .comparator name => putLengthPrefixedSlice [] name
  | .logNumber num | .prevLogNumber num | .nextFileNumber num | .lastSequence num =>
    putVarint64 [] num
  | .compactPointer level key | .deletedGuard level key =>
    putLengthPrefixedSlice (putLevel [] level) key
  | .deletedFile level number | .deletedSentinelFile level number =>
    putVarint64 (putLevel [] level) number
  | .newFile level f =>
    putLengthPrefixedSlice (putLengthPrefixedSlice (putVarint64 (putVarint64
      (putLevel [] level) f.number) f.fileSize) f.smallest) f.largest
  | .newGuard level guardKey | .newCompleteGuard level guardKey =>
    putLengthPrefixedSlice (putVarint64 (putLevel [] level) 0) guardKey

/-- The bytes of an entry: `PutVarint32(dst, tag)`, then its fields. -/
def Entry.encode (r : Entry) : List UInt8 :=
  putVarint32 [] r.tag.toUInt32 ++ r.fields

/-- The internal keys of an entry, whose `Encode()` `EncodeTo` calls. -/
def Entry.keys : Entry → List (List UInt8)
  | .compactPointer _ key | .deletedGuard _ key => [key]
  | .newGuard _ guardKey | .newCompleteGuard _ guardKey => [guardKey]
  | .newFile _ f => [f.smallest, f.largest]
  | _ => []

/-- The entries `EncodeTo` writes, in its order. -/
def entries (e : VersionEdit) : List Entry :=
  (if e.hasComparator then [.comparator e.comparator] else []) ++
  (if e.hasLogNumber then [.logNumber e.logNumber] else []) ++
  (if e.hasPrevLogNumber then [.prevLogNumber e.prevLogNumber] else []) ++
  (if e.hasNextFileNumber then [.nextFileNumber e.nextFileNumber] else []) ++
  (if e.hasLastSequence then [.lastSequence e.lastSequence] else []) ++
  e.compactPointers.map (fun p ↦ .compactPointer p.1 p.2) ++
  e.deletedFiles.map (fun p ↦ .deletedFile p.1 p.2) ++
  e.newFiles.map (fun p ↦ .newFile p.1 p.2) ++
  e.deletedGuards.map (fun p ↦ .deletedGuard p.1 p.2) ++
  (List.finRange kNumLevels).flatMap (fun k ↦
    (e.newGuards k).map fun g ↦ .newGuard g.level g.guardKey) ++
  (List.finRange kNumLevels).flatMap (fun k ↦
    (e.newCompleteGuards k).map fun g ↦ .newCompleteGuard g.level g.guardKey) ++
  e.deletedSentinelFiles.map (fun p ↦ .deletedSentinelFile p.1 p.2)

/-- `EncodeTo`, on an empty string: the bytes of the entries. `InternalKey::Encode` asserts that
the key is not empty, so with assertions an empty key aborts. -/
def encodeTo (assertions : Bool) (e : VersionEdit) : Option (List UInt8) :=
  if assertions && (e.entries.flatMap Entry.keys).any List.isEmpty then none
  else some (e.entries.flatMap Entry.encode)

/-! ## Decoding -/

/-- `GetLevel`: a varint32 below `kNumLevels`. -/
def getLevel (input : List UInt8) : Option (Fin kNumLevels × List UInt8) :=
  match getVarint32 input with
  | some (v, rest) => if h : v.toNat < kNumLevels then some (⟨v.toNat, h⟩, rest) else none
  | none => none

/-- `GetInternalKey`: a length-prefixed slice, copied into the key. -/
def getInternalKey (input : List UInt8) : Option (List UInt8 × List UInt8) :=
  getLengthPrefixedSlice input

/-- `GetLevel(&input, &level) && GetInternalKey(&input, &key)`. -/
def getLevelKey (input : List UInt8) : Option ((Fin kNumLevels × List UInt8) × List UInt8) := do
  let (level, input) ← getLevel input
  let (key, input) ← getInternalKey input
  return ((level, key), input)

/-- `GetLevel(&input, &level) && GetVarint64(&input, &number)`. -/
def getLevelNumber (input : List UInt8) : Option ((Fin kNumLevels × UInt64) × List UInt8) := do
  let (level, input) ← getLevel input
  let (number, input) ← getVarint64 input
  return ((level, number), input)

/-- The five reads of a `kNewFile` or `kNewSentinelFileNo` entry, into `level` and `f`. -/
def getNewFile (input : List UInt8) : Option ((Fin kNumLevels × FileMetaData) × List UInt8) := do
  let (level, input) ← getLevel input
  let (number, input) ← getVarint64 input
  let (fileSize, input) ← getVarint64 input
  let (smallest, input) ← getInternalKey input
  let (largest, input) ← getInternalKey input
  return ((level, ⟨number, fileSize, smallest, largest⟩), input)

/-- `GetLevel(&input, &g.level) && GetVarint64(&input, &g.number_segments) &&
GetInternalKey(&input, &g.guard_key)`. -/
def getGuard (input : List UInt8) :
    Option ((Fin kNumLevels × UInt64 × List UInt8) × List UInt8) := do
  let (level, input) ← getLevel input
  let (numberSegments, input) ← getVarint64 input
  let (guardKey, input) ← getInternalKey input
  return ((level, numberSegments, guardKey), input)

/-- `assert(GetInternalKey(&input, &g.smallest) && GetInternalKey(&input, &g.largest))`: without
assertions the reads are not made; with them, a failed read aborts. -/
def readGuardBounds (assertions : Bool) (g : GuardMetaData) (input : List UInt8) :
    Option (GuardMetaData × List UInt8) :=
  if assertions then
    match getInternalKey input with
    | some (smallest, input) =>
      (getInternalKey input).map fun (largest, input) ↦ ({ g with smallest, largest }, input)
    | none => none
  else some (g, input)

/-- The loop over the files of a `kNewGuard` entry, `j` rounds left: `GetVarint32(&input, &tag2)`,
`assert(tag2 == kFileInsideGuard)`, `GetVarint64(&input, &fnumber)`, `g.files.push_back(fnumber)`.
A failed read leaves its variable and the input as they were, and nothing checks it. -/
def readGuardFiles (assertions : Bool) :
    ℕ → UInt32 → UInt64 → List UInt64 → List UInt8 →
      Option (UInt32 × UInt64 × List UInt64 × List UInt8)
  | 0, tag2, fnumber, files, input => some (tag2, fnumber, files, input)
  | j + 1, tag2, fnumber, files, input =>
    let (tag2, input) := (getVarint32 input).getD (tag2, input)
    if assertions && tag2 != Tag.kFileInsideGuard.toUInt32 then none
    else
      let (fnumber, input) := (getVarint64 input).getD (fnumber, input)
      readGuardFiles assertions j tag2 fnumber (files ++ [fnumber]) input

/-- The locals of `DecodeFrom` whose values carry over from one entry to the next. -/
structure Scratch where
  tag2 : UInt32
  fnumber : UInt64
  g : GuardMetaData

/-- The shape of most cases of the switch, `if (reads) { action } else { msg = ...; }`: the reads
give the fields and the rest of the input, the action the locals and the edit, or `none` where it
crashes. -/
def readEntry {α : Type} (read : List UInt8 → Option (α × List UInt8)) (msg : String)
    (action : α → Option (Scratch × VersionEdit)) (input : List UInt8) :
    Option (Except String (Scratch × VersionEdit × List UInt8)) :=
  match read input with
  | some (x, rest) => (action x).map fun (s, e) ↦ .ok (s, e, rest)
  | none => some (.error msg)

/-- A `kNewGuard` entry after its level, count and key: the guard is `g` with these, and its
bounds and files when the count is not `0`, onto the vector of its level. -/
def newGuard (assertions : Bool) (s : Scratch) (e : VersionEdit) (level : Fin kNumLevels)
    (numberSegments : UInt64) (guardKey input : List UInt8) :
    Option (Scratch × VersionEdit × List UInt8) :=
  let g := { s.g with level := level.val, numberSegments, guardKey, files := [] }
  if numberSegments > 0 then
    match readGuardBounds assertions g input with
    | some (g, input) =>
      (readGuardFiles assertions numberSegments.toNat s.tag2 s.fnumber [] input).map
        fun (tag2, fnumber, files, input) ↦
          (⟨tag2, fnumber, { g with files }⟩,
            { e with newGuards := appendAt e.newGuards level { g with files } }, input)
    | none => none
  else some ({ s with g }, { e with newGuards := appendAt e.newGuards level g }, input)

/-- A `kNewCompleteGuard` entry after its level, count and key: no files are read for a complete
guard, only its bounds. -/
def newCompleteGuard (assertions : Bool) (s : Scratch) (e : VersionEdit) (level : Fin kNumLevels)
    (numberSegments : UInt64) (guardKey input : List UInt8) :
    Option (Scratch × VersionEdit × List UInt8) :=
  let g := { s.g with level := level.val, numberSegments, guardKey, files := [] }
  let bounds := if numberSegments > 0 then readGuardBounds assertions g input else some (g, input)
  bounds.map fun (g, input) ↦
    ({ s with g }, { e with newCompleteGuards := appendAt e.newCompleteGuards level g }, input)

/-- One case of the switch of `DecodeFrom`, after the tag: the locals, the edit and the rest of
the input, or the message of the corruption, or `none` where the process aborts. -/
def decodeEntry (assertions : Bool) (s : Scratch) (e : VersionEdit) (tag : UInt32)
    (input : List UInt8) : Option (Except String (Scratch × VersionEdit × List UInt8)) :=
  match Tag.ofUInt32? tag with
  | some .kComparator =>
    readEntry getLengthPrefixedSlice "comparator name"
      (fun str ↦ some (s, e.setComparatorName str)) input
  | some .kLogNumber =>
    readEntry getVarint64 "log number" (fun num ↦ some (s, e.setLogNumber num)) input
  | some .kPrevLogNumber =>
    readEntry getVarint64 "previous log number" (fun num ↦ some (s, e.setPrevLogNumber num)) input
  | some .kNextFileNumber =>
    readEntry getVarint64 "next file number" (fun num ↦ some (s, e.setNextFile num)) input
  | some .kLastSequence =>
    readEntry getVarint64 "last sequence number" (fun seq ↦ some (s, e.setLastSequence seq)) input
  | some .kCompactPointer =>
    readEntry getLevelKey "compaction pointer"
      (fun (level, key) ↦ some (s, e.setCompactPointer level.val key)) input
  | some .kDeletedFile =>
    readEntry getLevelNumber "deleted file"
      (fun (level, number) ↦ some (s, e.deleteFile level.val number)) input
  | some .kDeletedGuard =>
    readEntry getLevelKey "deleted guard"
      (fun (level, key) ↦ (e.deleteGuard level.val key).map fun e ↦ (s, e)) input
  | some .kDeletedSentinelFile =>
    readEntry getLevelNumber "deleted sentinel file"
      (fun (level, number) ↦ some (s, e.deleteSentinelFile level.val number)) input
  | some .kNewFile =>
    readEntry getNewFile "new-file entry"
      (fun (level, f) ↦ some (s, e.addFile level.val f.number f.fileSize f.smallest f.largest))
      input
  | some .kNewSentinelFile =>
    readEntry getLevelNumber "new-sentinel-file entry"
      (fun (level, fnumber) ↦ some ({ s with fnumber }, e.addSentinelFileNo level fnumber)) input
  | some .kNewSentinelFileNo =>
    -- the reads of `kNewFile`, and the file goes to `new_files_` as well
    readEntry getNewFile "new-sentinel-file entry"
      (fun (level, f) ↦ some (s, e.addFile level.val f.number f.fileSize f.smallest f.largest))
      input
  | some .kNewGuard =>
    match getGuard input with
    | some ((level, numberSegments, guardKey), input) =>
      (newGuard assertions s e level numberSegments guardKey input).map .ok
    | none => some (.error "new-guard entry")
  | some .kNewCompleteGuard =>
    match getGuard input with
    | some ((level, numberSegments, guardKey), input) =>
      (newCompleteGuard assertions s e level numberSegments guardKey input).map .ok
    | none => some (.error "new-complete-guard entry")
  | some .kFileInsideGuard | none => some (.error "unknown tag")

/-! ### What the readers consume -/

theorem getLevel_suffix {input rest : List UInt8} {level : Fin kNumLevels}
    (h : getLevel input = some (level, rest)) : rest <:+ input := by
  unfold getLevel at h
  split at h
  · rename_i v rest' hv
    split at h
    · obtain ⟨-, rfl⟩ := Prod.mk.inj (Option.some.inj h)
      exact getVarint32_suffix hv
    · cases h
  · cases h

section Suffix

variable {input rest : List UInt8}

theorem getLevelKey_suffix {r : Fin kNumLevels × List UInt8}
    (h : getLevelKey input = some (r, rest)) : rest <:+ input := by
  simp only [getLevelKey, bind, Option.bind_eq_some_iff, pure, Option.some.injEq] at h
  obtain ⟨⟨level, input₁⟩, h₁, ⟨key, input₂⟩, h₂, h₃⟩ := h
  obtain ⟨-, rfl⟩ := Prod.mk.inj h₃
  exact (getLengthPrefixedSlice_suffix h₂).trans (getLevel_suffix h₁)

theorem getLevelNumber_suffix {r : Fin kNumLevels × UInt64}
    (h : getLevelNumber input = some (r, rest)) : rest <:+ input := by
  simp only [getLevelNumber, bind, Option.bind_eq_some_iff, pure, Option.some.injEq] at h
  obtain ⟨⟨level, input₁⟩, h₁, ⟨number, input₂⟩, h₂, h₃⟩ := h
  obtain ⟨-, rfl⟩ := Prod.mk.inj h₃
  exact (getVarint64_suffix h₂).trans (getLevel_suffix h₁)

theorem getNewFile_suffix {r : Fin kNumLevels × FileMetaData}
    (h : getNewFile input = some (r, rest)) : rest <:+ input := by
  simp only [getNewFile, bind, Option.bind_eq_some_iff, pure, Option.some.injEq] at h
  obtain ⟨⟨level, input₁⟩, h₁, ⟨number, input₂⟩, h₂, ⟨fileSize, input₃⟩, h₃,
    ⟨smallest, input₄⟩, h₄, ⟨largest, input₅⟩, h₅, h₆⟩ := h
  obtain ⟨-, rfl⟩ := Prod.mk.inj h₆
  exact (getLengthPrefixedSlice_suffix h₅).trans <| (getLengthPrefixedSlice_suffix h₄).trans <|
    (getVarint64_suffix h₃).trans <| (getVarint64_suffix h₂).trans (getLevel_suffix h₁)

theorem getGuard_suffix {r : Fin kNumLevels × UInt64 × List UInt8}
    (h : getGuard input = some (r, rest)) : rest <:+ input := by
  simp only [getGuard, bind, Option.bind_eq_some_iff, pure, Option.some.injEq] at h
  obtain ⟨⟨level, input₁⟩, h₁, ⟨numberSegments, input₂⟩, h₂, ⟨guardKey, input₃⟩, h₃, h₄⟩ := h
  obtain ⟨-, rfl⟩ := Prod.mk.inj h₄
  exact (getLengthPrefixedSlice_suffix h₃).trans <| (getVarint64_suffix h₂).trans
    (getLevel_suffix h₁)

theorem readGuardBounds_suffix {assertions : Bool} {g g' : GuardMetaData}
    (h : readGuardBounds assertions g input = some (g', rest)) : rest <:+ input := by
  unfold readGuardBounds at h
  split at h
  · split at h
    · rename_i smallest input₁ h₁
      rw [Option.map_eq_some_iff] at h
      obtain ⟨⟨largest, input₂⟩, h₂, h₃⟩ := h
      obtain ⟨-, rfl⟩ := Prod.mk.inj h₃
      exact (getLengthPrefixedSlice_suffix h₂).trans (getLengthPrefixedSlice_suffix h₁)
    · cases h
  · obtain ⟨-, rfl⟩ := Prod.mk.inj (Option.some.inj h)
    exact List.suffix_refl _

/-- A read whose failure is ignored consumes what it read, or nothing. -/
theorem getD_getVarint32_suffix (tag2 : UInt32) :
    ((getVarint32 input).getD (tag2, input)).2 <:+ input := by
  cases h : getVarint32 input with
  | none => exact List.suffix_refl _
  | some p => exact getVarint32_suffix h

theorem getD_getVarint64_suffix (fnumber : UInt64) :
    ((getVarint64 input).getD (fnumber, input)).2 <:+ input := by
  cases h : getVarint64 input with
  | none => exact List.suffix_refl _
  | some p => exact getVarint64_suffix h

theorem readGuardFiles_suffix {assertions : Bool} :
    ∀ {j : ℕ} {tag2 tag2' : UInt32} {fnumber fnumber' : UInt64} {files files' : List UInt64}
      {input rest : List UInt8},
      readGuardFiles assertions j tag2 fnumber files input = some (tag2', fnumber', files', rest) →
        rest <:+ input
  | 0, _, _, _, _, _, _, _, _, h => by
    simp only [readGuardFiles, Option.some.injEq, Prod.mk.injEq] at h
    obtain ⟨-, -, -, rfl⟩ := h
    exact List.suffix_refl _
  | j + 1, tag2, _, fnumber, _, files, _, input, _, h => by
    rw [readGuardFiles] at h
    have h₁ := @getD_getVarint32_suffix input tag2
    generalize (getVarint32 input).getD (tag2, input) = p at h h₁
    obtain ⟨tag2₁, input₁⟩ := p
    dsimp only at h h₁
    split at h
    · cases h
    · have h₂ := @getD_getVarint64_suffix input₁ fnumber
      generalize (getVarint64 input₁).getD (fnumber, input₁) = q at h h₂
      obtain ⟨fnumber₂, input₂⟩ := q
      exact (readGuardFiles_suffix h).trans (h₂.trans h₁)

theorem readEntry_suffix {α : Type} {read : List UInt8 → Option (α × List UInt8)} {msg : String}
    {action : α → Option (Scratch × VersionEdit)} {s : Scratch} {e : VersionEdit}
    (hread : ∀ {input rest : List UInt8} {x : α}, read input = some (x, rest) → rest <:+ input)
    (h : readEntry read msg action input = some (.ok (s, e, rest))) : rest <:+ input := by
  unfold readEntry at h
  split at h
  · rename_i x rest' hx
    rw [Option.map_eq_some_iff] at h
    obtain ⟨⟨s₀, e₀⟩, -, hok⟩ := h
    cases hok
    exact hread hx
  · cases h

theorem newGuard_suffix {assertions : Bool} {s s' : Scratch} {e e' : VersionEdit}
    {level : Fin kNumLevels} {numberSegments : UInt64} {guardKey : List UInt8}
    (h : newGuard assertions s e level numberSegments guardKey input = some (s', e', rest)) :
    rest <:+ input := by
  unfold newGuard at h
  dsimp only at h
  split at h
  · split at h
    · rename_i g input₁ hbounds
      rw [Option.map_eq_some_iff] at h
      obtain ⟨⟨tag2, fnumber, files, input₂⟩, hfiles, h⟩ := h
      cases h
      exact (readGuardFiles_suffix hfiles).trans (readGuardBounds_suffix hbounds)
    · cases h
  · cases h
    exact List.suffix_refl _

theorem newCompleteGuard_suffix {assertions : Bool} {s s' : Scratch} {e e' : VersionEdit}
    {level : Fin kNumLevels} {numberSegments : UInt64} {guardKey : List UInt8}
    (h : newCompleteGuard assertions s e level numberSegments guardKey input = some (s', e', rest)) :
    rest <:+ input := by
  unfold newCompleteGuard at h
  dsimp only at h
  rw [Option.map_eq_some_iff] at h
  obtain ⟨⟨g, input₁⟩, hbounds, h⟩ := h
  cases h
  split at hbounds
  · exact readGuardBounds_suffix hbounds
  · cases hbounds
    exact List.suffix_refl _

/-- Each case of the switch reads on from where the tag ended. -/
theorem decodeEntry_suffix {assertions : Bool} {s s' : Scratch} {e e' : VersionEdit}
    {tag : UInt32} (h : decodeEntry assertions s e tag input = some (.ok (s', e', rest))) :
    rest <:+ input := by
  unfold decodeEntry at h
  split at h
  · exact readEntry_suffix getLengthPrefixedSlice_suffix h
  · exact readEntry_suffix getVarint64_suffix h
  · exact readEntry_suffix getVarint64_suffix h
  · exact readEntry_suffix getVarint64_suffix h
  · exact readEntry_suffix getVarint64_suffix h
  · exact readEntry_suffix getLevelKey_suffix h
  · exact readEntry_suffix getLevelNumber_suffix h
  · exact readEntry_suffix getLevelKey_suffix h
  · exact readEntry_suffix getLevelNumber_suffix h
  · exact readEntry_suffix getNewFile_suffix h
  · exact readEntry_suffix getLevelNumber_suffix h
  · exact readEntry_suffix getNewFile_suffix h
  · split at h
    · rename_i level numberSegments guardKey input₁ hguard
      rw [Option.map_eq_some_iff] at h
      obtain ⟨⟨s₀, e₀, rest₀⟩, hnew, hok⟩ := h
      cases hok
      exact (newGuard_suffix hnew).trans (getGuard_suffix hguard)
    · cases h
  · split at h
    · rename_i level numberSegments guardKey input₁ hguard
      rw [Option.map_eq_some_iff] at h
      obtain ⟨⟨s₀, e₀, rest₀⟩, hnew, hok⟩ := h
      cases hok
      exact (newCompleteGuard_suffix hnew).trans (getGuard_suffix hguard)
    · cases h
  all_goals cases h

end Suffix

/-- The loop of `DecodeFrom`, `while (msg == NULL && GetVarint32(&input, &tag))`, then the check
that nothing is left: the edit and the status, or `none` where the process aborts. -/
def decodeLoop (assertions : Bool) (s : Scratch) (e : VersionEdit) (input : List UInt8) :
    Option (VersionEdit × Except String Unit) :=
  match h : getVarint32 input with
  | none => some (e, if input.isEmpty then .ok () else .error "invalid tag")
  | some (tag, rest) =>
    match h' : decodeEntry assertions s e tag rest with
    | some (.ok (s', e', rest')) =>
      have : rest'.length < input.length :=
        lt_of_le_of_lt (decodeEntry_suffix h').length_le (length_lt_of_getVarint32 h)
      decodeLoop assertions s' e' rest'
    | some (.error msg) => some (e, .error msg)
    | none => none
termination_by input.length

section Loop

variable {assertions : Bool} {s s' : Scratch} {e e' : VersionEdit} {input rest rest' : List UInt8}
  {tag : UInt32}

/-- No tag to read: the loop ends, and the input must be empty. -/
theorem decodeLoop_of_getVarint32_eq_none (h : getVarint32 input = none) :
    decodeLoop assertions s e input =
      some (e, if input.isEmpty then .ok () else .error "invalid tag") := by
  rw [decodeLoop]
  split
  · rfl
  · simp_all

/-- A whole entry: the loop goes on after it. -/
theorem decodeLoop_of_decodeEntry_ok (h : getVarint32 input = some (tag, rest))
    (h' : decodeEntry assertions s e tag rest = some (.ok (s', e', rest'))) :
    decodeLoop assertions s e input = decodeLoop assertions s' e' rest' := by
  rw [decodeLoop]
  split
  · simp_all
  · rename_i tag₁ rest₁ h₁
    obtain ⟨rfl, rfl⟩ := Prod.mk.inj (Option.some.inj (h.symm.trans h₁))
    split <;> simp_all

/-- A malformed entry: the loop stops with its message, and the edit as it was before it. -/
theorem decodeLoop_of_decodeEntry_error {msg : String} (h : getVarint32 input = some (tag, rest))
    (h' : decodeEntry assertions s e tag rest = some (.error msg)) :
    decodeLoop assertions s e input = some (e, .error msg) := by
  rw [decodeLoop]
  split
  · simp_all
  · rename_i tag₁ rest₁ h₁
    obtain ⟨rfl, rfl⟩ := Prod.mk.inj (Option.some.inj (h.symm.trans h₁))
    split <;> simp_all

/-- An entry that aborts the process. -/
theorem decodeLoop_of_decodeEntry_none (h : getVarint32 input = some (tag, rest))
    (h' : decodeEntry assertions s e tag rest = none) :
    decodeLoop assertions s e input = none := by
  rw [decodeLoop]
  split
  · simp_all
  · rename_i tag₁ rest₁ h₁
    obtain ⟨rfl, rfl⟩ := Prod.mk.inj (Option.some.inj (h.symm.trans h₁))
    split <;> simp_all

end Loop

/-- `DecodeFrom` on an edit, which it clears first. The locals `tag2` and `fnumber` are not
initialised in the source: they start as whatever they are. -/
def decodeFrom (assertions : Bool) (tag2 : UInt32) (fnumber : UInt64) (e : VersionEdit)
    (src : List UInt8) : Option (VersionEdit × Except String Unit) :=
  decodeLoop assertions ⟨tag2, fnumber, GuardMetaData.init⟩ e.clear src

/-! ## Reading entries back -/

/-- A level of the arrays of an edit. -/
def LevelOk (level : ℤ) : Prop :=
  0 ≤ level ∧ level < kNumLevels

/-- The level as an index of the arrays. -/
def LevelOk.toFin {level : ℤ} (h : LevelOk level) : Fin kNumLevels :=
  ⟨level.toNat, by have := h.1; have := h.2; omega⟩

/-- A key that `PutLengthPrefixedSlice` can write and, with assertions, `InternalKey::Encode`
takes. -/
def KeyOk (assertions : Bool) (key : List UInt8) : Prop :=
  key.length < 2 ^ 32 ∧ (assertions = true → key ≠ [])

/-- An entry that reads back: its level is one of the arrays' and its slices fit the `uint32_t`
length they are written with. -/
def Entry.Valid : Entry → Prop
  | .comparator name => name.length < 2 ^ 32
  | .logNumber _ | .prevLogNumber _ | .nextFileNumber _ | .lastSequence _ => True
  | .compactPointer level key | .deletedGuard level key | .newGuard level key
  | .newCompleteGuard level key => LevelOk level ∧ key.length < 2 ^ 32
  | .deletedFile level _ | .deletedSentinelFile level _ => LevelOk level
  | .newFile level f => LevelOk level ∧ f.smallest.length < 2 ^ 32 ∧ f.largest.length < 2 ^ 32

/-- The call an entry stands for. -/
def Entry.toCall : Entry → Call
  | .comparator name => .setComparatorName name
  | .logNumber num => .setLogNumber num
  | .prevLogNumber num => .setPrevLogNumber num
  | .nextFileNumber num => .setNextFile num
  | .lastSequence seq => .setLastSequence seq
  | .compactPointer level key => .setCompactPointer level key
  | .deletedFile level number => .deleteFile level number
  | .newFile level f => .addFile level f.number f.fileSize f.smallest f.largest
  | .deletedGuard level key => .deleteGuard level key
  | .newGuard level guardKey => .addGuard level guardKey
  | .newCompleteGuard level guardKey => .addCompleteGuard level guardKey
  | .deletedSentinelFile level number => .deleteSentinelFile level number

/-- An edit with its new guards and complete guards cut down to what `EncodeTo` writes of them. -/
def stripGuards (e : VersionEdit) : VersionEdit :=
  { e with
    newGuards := fun k ↦ (e.newGuards k).map GuardMetaData.strip
    newCompleteGuards := fun k ↦ (e.newCompleteGuards k).map GuardMetaData.strip }

theorem map_appendAt {α β : Type} (f : α → β) (v : Fin kNumLevels → List α) (k : Fin kNumLevels)
    (x : α) : (fun j ↦ (appendAt v k x j).map f) = appendAt (fun j ↦ (v j).map f) k (f x) := by
  funext j
  by_cases hj : j = k
  · subst hj
    simp [appendAt]
  · simp [appendAt, Function.update_of_ne hj]

section ReadBack

variable {level : ℤ} (hlevel : LevelOk level) {rest : List UInt8}
include hlevel

theorem toLevel_eq : toLevel level = some hlevel.toFin := by
  unfold toLevel
  split
  · rfl
  · exact absurd hlevel ‹_›

theorem natCast_toFin : ((hlevel.toFin : ℕ) : ℤ) = level :=
  Int.toNat_of_nonneg hlevel.1

theorem getLevel_encode (rest : List UInt8) :
    getLevel (encodeVarint32 (UInt32.ofInt level) ++ rest) = some (hlevel.toFin, rest) := by
  have hnat : (UInt32.ofInt level).toNat = level.toNat := by
    have := hlevel.1
    have := hlevel.2
    have h7 : (kNumLevels : ℤ) = 7 := rfl
    simp only [UInt32.ofInt, Int.reducePow, UInt32.toNat_ofNat', Nat.reducePow]
    omega
  simp only [getLevel, getVarint32_encodeVarint32, hnat]
  rw [dif_pos (show level.toNat < kNumLevels from hlevel.toFin.isLt)]
  rfl

theorem getLevelKey_encode {key : List UInt8} (hkey : key.length < 2 ^ 32) :
    getLevelKey (encodeVarint32 (UInt32.ofInt level) ++
      (encodeVarint32 key.length.toUInt32 ++ (key ++ rest))) = some ((hlevel.toFin, key), rest) := by
  simp [getLevelKey, getLevel_encode hlevel, getInternalKey, getLengthPrefixedSlice_encode hkey]

theorem getLevelNumber_encode (number : UInt64) :
    getLevelNumber (encodeVarint32 (UInt32.ofInt level) ++ (encodeVarint64 number ++ rest)) =
      some ((hlevel.toFin, number), rest) := by
  simp [getLevelNumber, getLevel_encode hlevel, getVarint64_encodeVarint64]

theorem getNewFile_encode {f : FileMetaData} (hsmallest : f.smallest.length < 2 ^ 32)
    (hlargest : f.largest.length < 2 ^ 32) :
    getNewFile (encodeVarint32 (UInt32.ofInt level) ++ (encodeVarint64 f.number ++
      (encodeVarint64 f.fileSize ++ (encodeVarint32 f.smallest.length.toUInt32 ++ (f.smallest ++
        (encodeVarint32 f.largest.length.toUInt32 ++ (f.largest ++ rest))))))) =
      some ((hlevel.toFin, f), rest) := by
  simp [getNewFile, getLevel_encode hlevel, getVarint64_encodeVarint64, getInternalKey,
    getLengthPrefixedSlice_encode hsmallest, getLengthPrefixedSlice_encode hlargest]

theorem getGuard_encode {guardKey : List UInt8} (hkey : guardKey.length < 2 ^ 32) :
    getGuard (encodeVarint32 (UInt32.ofInt level) ++ (encodeVarint64 0 ++
      (encodeVarint32 guardKey.length.toUInt32 ++ (guardKey ++ rest)))) =
      some ((hlevel.toFin, 0, guardKey), rest) := by
  simp [getGuard, getLevel_encode hlevel, getVarint64_encodeVarint64, getInternalKey,
    getLengthPrefixedSlice_encode hkey]

end ReadBack

theorem deleteGuard_stripGuards (e : VersionEdit) (level : ℤ) (guard : List UInt8) :
    e.stripGuards.deleteGuard level guard = (e.deleteGuard level guard).map stripGuards := by
  by_cases h : (e.deletedGuards.any fun p ↦ p.1 == level) = true
  · simp [deleteGuard, stripGuards, h]
  · simp [deleteGuard, stripGuards, h]

/-- **An entry reads back as the call it stands for**, up to what `EncodeTo` drops of guards:
decoding its fields does to an edit what the call does to the edit with its guards stripped. -/
theorem decodeEntry_fields {assertions : Bool} {s : Scratch} {e x : VersionEdit} {r : Entry}
    (hr : r.Valid) (h : r.toCall.apply e.stripGuards = some x) (rest : List UInt8) :
    ∃ s' e', decodeEntry assertions s e r.tag.toUInt32 (r.fields ++ rest) =
      some (.ok (s', e', rest)) ∧ e'.stripGuards = x := by
  cases r with
  | comparator name =>
    simp only [Entry.toCall, Call.apply, Option.some.injEq] at h
    subst h
    refine ⟨s, e.setComparatorName name, ?_, rfl⟩
    simp [decodeEntry, Entry.tag, Entry.fields, readEntry, putLengthPrefixedSlice, putVarint32,
      getLengthPrefixedSlice_encode hr]
  | logNumber num =>
    simp only [Entry.toCall, Call.apply, Option.some.injEq] at h
    subst h
    refine ⟨s, e.setLogNumber num, ?_, rfl⟩
    simp [decodeEntry, Entry.tag, Entry.fields, readEntry, putVarint64, getVarint64_encodeVarint64]
  | prevLogNumber num =>
    simp only [Entry.toCall, Call.apply, Option.some.injEq] at h
    subst h
    refine ⟨s, e.setPrevLogNumber num, ?_, rfl⟩
    simp [decodeEntry, Entry.tag, Entry.fields, readEntry, putVarint64, getVarint64_encodeVarint64]
  | nextFileNumber num =>
    simp only [Entry.toCall, Call.apply, Option.some.injEq] at h
    subst h
    refine ⟨s, e.setNextFile num, ?_, rfl⟩
    simp [decodeEntry, Entry.tag, Entry.fields, readEntry, putVarint64, getVarint64_encodeVarint64]
  | lastSequence seq =>
    simp only [Entry.toCall, Call.apply, Option.some.injEq] at h
    subst h
    refine ⟨s, e.setLastSequence seq, ?_, rfl⟩
    simp [decodeEntry, Entry.tag, Entry.fields, readEntry, putVarint64, getVarint64_encodeVarint64]
  | compactPointer level key =>
    simp only [Entry.toCall, Call.apply, Option.some.injEq] at h
    subst h
    refine ⟨s, e.setCompactPointer level key, ?_, rfl⟩
    simp [decodeEntry, Entry.tag, Entry.fields, readEntry, putLengthPrefixedSlice, putLevel,
      putVarint32, getLevelKey_encode hr.1 hr.2, natCast_toFin hr.1]
  | deletedFile level number =>
    simp only [Entry.toCall, Call.apply, Option.some.injEq] at h
    subst h
    refine ⟨s, e.deleteFile level number, ?_, rfl⟩
    simp [decodeEntry, Entry.tag, Entry.fields, readEntry, putVarint64, putLevel, putVarint32,
      getLevelNumber_encode hr, natCast_toFin hr]
  | newFile level f =>
    simp only [Entry.toCall, Call.apply, Option.some.injEq] at h
    subst h
    refine ⟨s, e.addFile level f.number f.fileSize f.smallest f.largest, ?_, rfl⟩
    simp [decodeEntry, Entry.tag, Entry.fields, readEntry, putLengthPrefixedSlice, putVarint64,
      putLevel, putVarint32, getNewFile_encode hr.1 hr.2.1 hr.2.2, natCast_toFin hr.1]
  | deletedGuard level key =>
    simp only [Entry.toCall, Call.apply, deleteGuard_stripGuards, Option.map_eq_some_iff] at h
    obtain ⟨y, hy, rfl⟩ := h
    refine ⟨s, y, ?_, rfl⟩
    simp [decodeEntry, Entry.tag, Entry.fields, readEntry, putLengthPrefixedSlice, putLevel,
      putVarint32, getLevelKey_encode hr.1 hr.2, natCast_toFin hr.1, hy]
  | newGuard level guardKey =>
    simp only [Entry.toCall, Call.apply, addGuard, pushGuard, toLevel_eq hr.1, Option.map_some,
      Option.some.injEq] at h
    subst h
    let g := { s.g with level := level, numberSegments := 0, guardKey, files := [] }
    refine ⟨{ s with g }, { e with newGuards := appendAt e.newGuards hr.1.toFin g }, ?_, ?_⟩
    · simp [decodeEntry, Entry.tag, Entry.fields, putLengthPrefixedSlice, putVarint64, putLevel,
        putVarint32, getGuard_encode hr.1 hr.2, newGuard, natCast_toFin hr.1, g]
    · simp only [stripGuards, map_appendAt]
      rfl
  | newCompleteGuard level guardKey =>
    simp only [Entry.toCall, Call.apply, addCompleteGuard, pushGuard, toLevel_eq hr.1,
      Option.map_some, Option.some.injEq] at h
    subst h
    let g := { s.g with level := level, numberSegments := 0, guardKey, files := [] }
    refine ⟨{ s with g }, { e with newCompleteGuards := appendAt e.newCompleteGuards hr.1.toFin g },
      ?_, ?_⟩
    · simp [decodeEntry, Entry.tag, Entry.fields, putLengthPrefixedSlice, putVarint64, putLevel,
        putVarint32, getGuard_encode hr.1 hr.2, newCompleteGuard, natCast_toFin hr.1, g]
    · simp only [stripGuards, map_appendAt]
      rfl
  | deletedSentinelFile level number =>
    simp only [Entry.toCall, Call.apply, Option.some.injEq] at h
    subst h
    refine ⟨s, e.deleteSentinelFile level number, ?_, rfl⟩
    simp [decodeEntry, Entry.tag, Entry.fields, readEntry, putVarint64, putLevel, putVarint32,
      getLevelNumber_encode hr, natCast_toFin hr]

theorem getVarint32_putVarint32 (v : UInt32) (rest : List UInt8) :
    getVarint32 (putVarint32 [] v ++ rest) = some (v, rest) := by
  rw [putVarint32, List.nil_append, getVarint32_encodeVarint32]

/-- **A run of entries reads back as their calls**, one after the other. -/
theorem decodeLoop_entries {assertions : Bool} :
    ∀ {rs : List Entry} {s : Scratch} {e x : VersionEdit} (rest : List UInt8),
      (∀ r ∈ rs, r.Valid) → rs.foldlM (fun d r ↦ r.toCall.apply d) e.stripGuards = some x →
        ∃ s' e', decodeLoop assertions s e (rs.flatMap Entry.encode ++ rest) =
          decodeLoop assertions s' e' rest ∧ e'.stripGuards = x
  | [], s, e, x, rest, _, h => ⟨s, e, rfl, Option.some.inj h⟩
  | r :: rs, s, e, x, rest, hrs, h => by
    rw [List.foldlM_cons] at h
    obtain ⟨y, hy, h⟩ := Option.bind_eq_some_iff.1 h
    obtain ⟨s₁, e₁, hentry, rfl⟩ :=
      decodeEntry_fields (hrs r List.mem_cons_self) hy (rs.flatMap Entry.encode ++ rest)
    obtain ⟨s₂, e₂, hloop, hx⟩ :=
      decodeLoop_entries rest (fun r' hr' ↦ hrs r' (List.mem_cons_of_mem _ hr')) h
    refine ⟨s₂, e₂, ?_, hx⟩
    rw [List.flatMap_cons, Entry.encode, List.append_assoc, List.append_assoc,
      decodeLoop_of_decodeEntry_ok (getVarint32_putVarint32 _ _) hentry, hloop]

/-! ## Edits that valid calls build -/

/-- The calls of the round trip: levels of the arrays, keys that can be written, and a guard
taken from elsewhere whose level field is the level it is added under. -/
def Call.Valid (assertions : Bool) : Call → Prop
  | .setComparatorName name => name.length < 2 ^ 32
  | .setLogNumber _ | .setPrevLogNumber _ | .setNextFile _ | .setLastSequence _ => True
  | .setCompactPointer level key | .deleteGuard level key | .addGuard level key
  | .addCompleteGuard level key => LevelOk level ∧ KeyOk assertions key
  | .addFile level _ _ smallest largest =>
    LevelOk level ∧ KeyOk assertions smallest ∧ KeyOk assertions largest
  | .deleteFile level _ | .deleteSentinelFile level _ => LevelOk level
  | .addGuardWithFiles level _ guardKey _ _ _ => LevelOk level ∧ KeyOk assertions guardKey
  | .addGuardFromExisting level g | .addCompleteGuardFromExisting level g =>
    LevelOk level ∧ g.level = level ∧ KeyOk assertions g.guardKey

/-- What valid calls keep of a fresh edit: a value is set only with its flag, levels are the
arrays', keys can be written, the sets are in order, every guard sits at its own level, and no
sentinel file number is recorded. -/
structure Built (assertions : Bool) (e : VersionEdit) : Prop where
  comparator : e.comparator.length < 2 ^ 32
  comparator_unset : e.hasComparator = false → e.comparator = []
  logNumber_unset : e.hasLogNumber = false → e.logNumber = 0
  prevLogNumber_unset : e.hasPrevLogNumber = false → e.prevLogNumber = 0
  nextFileNumber_unset : e.hasNextFileNumber = false → e.nextFileNumber = 0
  lastSequence_unset : e.hasLastSequence = false → e.lastSequence = 0
  compactPointers : ∀ p ∈ e.compactPointers, LevelOk p.1 ∧ KeyOk assertions p.2
  deletedFiles_sorted : OrderedSet.Sorted pairLt e.deletedFiles
  deletedFiles : ∀ p ∈ e.deletedFiles, LevelOk p.1
  newFiles : ∀ p ∈ e.newFiles,
    LevelOk p.1 ∧ KeyOk assertions p.2.smallest ∧ KeyOk assertions p.2.largest
  deletedGuards_sorted : OrderedSet.Sorted levelLt e.deletedGuards
  deletedGuards : ∀ p ∈ e.deletedGuards, LevelOk p.1 ∧ KeyOk assertions p.2
  newGuards : ∀ k, ∀ g ∈ e.newGuards k, g.level = (k : ℕ) ∧ KeyOk assertions g.guardKey
  newCompleteGuards : ∀ k, ∀ g ∈ e.newCompleteGuards k,
    g.level = (k : ℕ) ∧ KeyOk assertions g.guardKey
  deletedSentinelFiles_sorted : OrderedSet.Sorted pairLt e.deletedSentinelFiles
  deletedSentinelFiles : ∀ p ∈ e.deletedSentinelFiles, LevelOk p.1
  sentinelFileNos : e.sentinelFileNos = fun _ ↦ []

theorem pairLt_trans (a b c : ℤ × UInt64) (hab : pairLt a b = true) (hbc : pairLt b c = true) :
    pairLt a c = true := by
  simp only [pairLt, Bool.or_eq_true, Bool.and_eq_true, decide_eq_true_eq] at *
  grind

theorem levelLt_trans (a b c : ℤ × List UInt8) (hab : levelLt a b = true)
    (hbc : levelLt b c = true) : levelLt a c = true := by
  simp only [levelLt, decide_eq_true_eq] at *
  omega

theorem mem_appendAt {α : Type} {v : Fin kNumLevels → List α} {k j : Fin kNumLevels} {x y : α} :
    y ∈ appendAt v k x j ↔ y ∈ v j ∨ (j = k ∧ y = x) := by
  by_cases hj : j = k
  · subst hj
    simp [appendAt]
  · simp [appendAt, hj]

theorem toLevel_eq_some {level : ℤ} {k : Fin kNumLevels} (h : toLevel level = some k) :
    ((k : ℕ) : ℤ) = level := by
  unfold toLevel at h
  split at h
  · cases h
    simp only
    omega
  · cases h

section Built

variable {assertions : Bool}

theorem built_empty (assertions : Bool) : Built assertions empty where
  comparator := by simp [empty, clear]
  comparator_unset _ := rfl
  logNumber_unset _ := rfl
  prevLogNumber_unset _ := rfl
  nextFileNumber_unset _ := rfl
  lastSequence_unset _ := rfl
  compactPointers := by simp [empty, clear]
  deletedFiles_sorted := List.Pairwise.nil
  deletedFiles := by simp [empty, clear]
  newFiles := by simp [empty, clear]
  deletedGuards_sorted := List.Pairwise.nil
  deletedGuards := by simp [empty, clear]
  newGuards := by simp [empty, clear]
  newCompleteGuards := by simp [empty, clear]
  deletedSentinelFiles_sorted := List.Pairwise.nil
  deletedSentinelFiles := by simp [empty, clear]
  sentinelFileNos := rfl

/-- A guard pushed at its own level keeps every guard at its own level. -/
theorem pushGuard_levels {G G' : Fin kNumLevels → List GuardMetaData} {level : ℤ}
    {g : GuardMetaData} (hG : ∀ k, ∀ g ∈ G k, g.level = (k : ℕ) ∧ KeyOk assertions g.guardKey)
    (hg : g.level = level) (hkey : KeyOk assertions g.guardKey) (h : pushGuard G level g = some G') :
    ∀ k, ∀ g ∈ G' k, g.level = (k : ℕ) ∧ KeyOk assertions g.guardKey := by
  obtain ⟨k₀, hk₀, rfl⟩ := Option.map_eq_some_iff.1 h
  intro k g' hg'
  rcases mem_appendAt.1 hg' with hold | ⟨rfl, rfl⟩
  · exact hG k g' hold
  · exact ⟨hg.trans (toLevel_eq_some hk₀).symm, hkey⟩

/-- **Each valid call keeps an edit built.** -/
theorem Built.apply {e e' : VersionEdit} {c : Call} (he : Built assertions e)
    (hc : c.Valid assertions) (h : c.apply e = some e') : Built assertions e' := by
  cases c with
  | setComparatorName name =>
    cases h
    exact { he with comparator := hc, comparator_unset := fun h ↦ by cases h }
  | setLogNumber num =>
    cases h
    exact { he with logNumber_unset := fun h ↦ by cases h }
  | setPrevLogNumber num =>
    cases h
    exact { he with prevLogNumber_unset := fun h ↦ by cases h }
  | setNextFile num =>
    cases h
    exact { he with nextFileNumber_unset := fun h ↦ by cases h }
  | setLastSequence seq =>
    cases h
    exact { he with lastSequence_unset := fun h ↦ by cases h }
  | setCompactPointer level key =>
    cases h
    refine { he with compactPointers := fun p hp ↦ ?_ }
    rcases List.mem_append.1 hp with hp | hp
    · exact he.compactPointers p hp
    · obtain rfl := List.mem_singleton.1 hp
      exact hc
  | addFile level file fileSize smallest largest =>
    cases h
    refine { he with newFiles := fun p hp ↦ ?_ }
    rcases List.mem_append.1 hp with hp | hp
    · exact he.newFiles p hp
    · obtain rfl := List.mem_singleton.1 hp
      exact hc
  | deleteFile level file =>
    cases h
    refine { he with
      deletedFiles_sorted := OrderedSet.sorted_insert pairLt_trans _ he.deletedFiles_sorted
      deletedFiles := fun p hp ↦ ?_ }
    rcases OrderedSet.mem_insert hp with rfl | hp
    · exact hc
    · exact he.deletedFiles p hp
  | deleteSentinelFile level file =>
    cases h
    refine { he with
      deletedSentinelFiles_sorted :=
        OrderedSet.sorted_insert pairLt_trans _ he.deletedSentinelFiles_sorted
      deletedSentinelFiles := fun p hp ↦ ?_ }
    rcases OrderedSet.mem_insert hp with rfl | hp
    · exact hc
    · exact he.deletedSentinelFiles p hp
  | deleteGuard level key =>
    simp only [Call.apply, deleteGuard] at h
    split at h
    · cases h
    · cases h
      refine { he with
        deletedGuards_sorted := OrderedSet.sorted_insert levelLt_trans _ he.deletedGuards_sorted
        deletedGuards := fun p hp ↦ ?_ }
      rcases OrderedSet.mem_insert hp with rfl | hp
      · exact hc
      · exact he.deletedGuards p hp
  | addGuard level guardKey =>
    obtain ⟨G', hG', rfl⟩ := Option.map_eq_some_iff.1 h
    exact { he with newGuards := pushGuard_levels he.newGuards rfl hc.2 hG' }
  | addGuardWithFiles level numberSegments guardKey smallest largest files =>
    obtain ⟨G', hG', rfl⟩ := Option.map_eq_some_iff.1 h
    exact { he with newGuards := pushGuard_levels he.newGuards rfl hc.2 hG' }
  | addGuardFromExisting level g =>
    obtain ⟨G', hG', rfl⟩ := Option.map_eq_some_iff.1 h
    exact { he with newGuards := pushGuard_levels he.newGuards hc.2.1 hc.2.2 hG' }
  | addCompleteGuard level guardKey =>
    obtain ⟨G', hG', rfl⟩ := Option.map_eq_some_iff.1 h
    exact { he with newCompleteGuards := pushGuard_levels he.newCompleteGuards rfl hc.2 hG' }
  | addCompleteGuardFromExisting level g =>
    obtain ⟨G', hG', rfl⟩ := Option.map_eq_some_iff.1 h
    exact { he with
      newCompleteGuards := pushGuard_levels he.newCompleteGuards hc.2.1 hc.2.2 hG' }

/-- **Valid calls build an edit**, whatever their order. -/
theorem built_foldlM : ∀ {calls : List Call} {e e' : VersionEdit},
    (∀ c ∈ calls, c.Valid assertions) → Built assertions e →
      calls.foldlM Call.apply e = some e' → Built assertions e'
  | [], _, _, _, he, h => by
    cases h
    exact he
  | c :: calls, e, e', hcalls, he, h => by
    rw [List.foldlM_cons] at h
    obtain ⟨e₁, h₁, h⟩ := Option.bind_eq_some_iff.1 h
    exact built_foldlM (fun c' hc' ↦ hcalls c' (List.mem_cons_of_mem _ hc'))
      (he.apply (hcalls c List.mem_cons_self) h₁) h

theorem built_ofCalls {calls : List Call} {e : VersionEdit}
    (hcalls : ∀ c ∈ calls, c.Valid assertions) (h : ofCalls calls = some e) : Built assertions e :=
  built_foldlM hcalls (built_empty assertions) h

end Built

/-! ## Rebuilding an edit from its entries -/

section Rebuild

/-- The calls the entries stand for, made one after the other. -/
def replay (rs : List Entry) (d : VersionEdit) : Option VersionEdit :=
  rs.foldlM (fun d r ↦ r.toCall.apply d) d

theorem replay_append (rs rs' : List Entry) (d : VersionEdit) :
    replay (rs ++ rs') d = (replay rs d).bind (replay rs') := by
  simp [replay, List.foldlM_append]
  rfl

theorem replay_cons (r : Entry) (rs : List Entry) (d : VersionEdit) :
    replay (r :: rs) d = (r.toCall.apply d).bind (replay rs) :=
  List.foldlM_cons

theorem replay_ite {b : Bool} {r : Entry} {d d' : VersionEdit} (h : r.toCall.apply d = some d') :
    replay (if b then [r] else []) d = some (if b then d' else d) := by
  cases b <;> simp [replay, h]

theorem replay_compactPointers (cps : List (ℤ × List UInt8)) (d : VersionEdit) :
    replay (cps.map fun p ↦ .compactPointer p.1 p.2) d =
      some { d with compactPointers := d.compactPointers ++ cps } := by
  induction cps generalizing d with
  | nil => simp [replay]
  | cons p cps ih =>
    rw [List.map_cons, replay_cons]
    simp only [Entry.toCall, Call.apply, Option.bind_some, ih]
    simp [setCompactPointer]

theorem replay_newFiles (nf : List (ℤ × FileMetaData)) (d : VersionEdit) :
    replay (nf.map fun p ↦ .newFile p.1 p.2) d = some { d with newFiles := d.newFiles ++ nf } := by
  induction nf generalizing d with
  | nil => simp [replay]
  | cons p nf ih =>
    rw [List.map_cons, replay_cons]
    simp only [Entry.toCall, Call.apply, Option.bind_some, ih]
    simp [addFile]

theorem replay_deletedFiles (df : List (ℤ × UInt64)) (d : VersionEdit) :
    replay (df.map fun p ↦ .deletedFile p.1 p.2) d =
      some { d with
        deletedFiles := df.foldl (fun s x ↦ OrderedSet.insert pairLt x s) d.deletedFiles } := by
  induction df generalizing d with
  | nil => simp [replay]
  | cons p df ih =>
    rw [List.map_cons, replay_cons]
    simp only [Entry.toCall, Call.apply, Option.bind_some, ih]
    simp [deleteFile]

theorem replay_deletedSentinelFiles (dsf : List (ℤ × UInt64)) (d : VersionEdit) :
    replay (dsf.map fun p ↦ .deletedSentinelFile p.1 p.2) d =
      some { d with
        deletedSentinelFiles := dsf.foldl (fun s x ↦ OrderedSet.insert pairLt x s)
          d.deletedSentinelFiles } := by
  induction dsf generalizing d with
  | nil => simp [replay]
  | cons p dsf ih =>
    rw [List.map_cons, replay_cons]
    simp only [Entry.toCall, Call.apply, Option.bind_some, ih]
    simp [deleteSentinelFile]

/-- Deleted guards in order of level, each above those already there, do not crash. -/
theorem replay_deletedGuards (dg : List (ℤ × List UInt8)) (d : VersionEdit)
    (h : OrderedSet.Sorted levelLt (d.deletedGuards ++ dg)) :
    replay (dg.map fun p ↦ .deletedGuard p.1 p.2) d =
      some { d with deletedGuards := d.deletedGuards ++ dg } := by
  induction dg generalizing d with
  | nil => simp [replay]
  | cons p dg ih =>
    have hbelow : ∀ q ∈ d.deletedGuards, levelLt q p = true := fun q hq ↦
      (List.pairwise_append.1 h).2.2 q hq p List.mem_cons_self
    have hnone : (d.deletedGuards.any fun q ↦ q.1 == p.1) = false := by
      simp only [List.any_eq_false, beq_iff_eq]
      intro q hq hqp
      have := hbelow q hq
      simp only [levelLt, decide_eq_true_eq] at this
      omega
    have hstep : (Entry.deletedGuard p.1 p.2).toCall.apply d =
        some { d with deletedGuards := d.deletedGuards ++ [p] } := by
      simp [Entry.toCall, Call.apply, deleteGuard, hnone, OrderedSet.insert_of_forall_lt hbelow]
    rw [List.map_cons, replay_cons, hstep, Option.bind_some,
      ih { d with deletedGuards := d.deletedGuards ++ [p] } (by simpa using h)]
    simp

/-- A `flatMap` that keeps the part of one index of a list without repeats. -/
theorem flatMap_ite_eq {α β : Type} [DecidableEq α] {l : List α} (hl : l.Nodup) (k : α)
    (f : α → List β) : (l.flatMap fun j ↦ if j = k then f j else []) = if k ∈ l then f k else [] := by
  induction l with
  | nil => simp
  | cons j l ih =>
    obtain ⟨hj, hl⟩ := List.nodup_cons.1 hl
    rw [List.flatMap_cons, ih hl]
    by_cases hjk : j = k
    · subst hjk
      simp [hj]
    · simp [hjk, Ne.symm hjk]

/-- The guards of every level, in order of level, filtered to one level: those of that level. -/
theorem filter_flatMap_finRange {G : Fin kNumLevels → List GuardMetaData}
    (hG : ∀ j, ∀ g ∈ G j, g.level = (j : ℕ)) (k : Fin kNumLevels) :
    ((List.finRange kNumLevels).flatMap G).filter
      (fun g : GuardMetaData ↦ g.level = ((k : ℕ) : ℤ)) = G k := by
  have hpick : ∀ j, (G j).filter (fun g : GuardMetaData ↦ g.level = ((k : ℕ) : ℤ)) =
      if j = k then G j else [] := by
    intro j
    by_cases hj : j = k
    · subst hj
      rw [if_pos rfl]
      exact List.filter_eq_self.2 fun g hg ↦ by simp [hG _ g hg]
    · rw [if_neg hj]
      refine List.filter_eq_nil_iff.2 fun g hg ↦ ?_
      have hne : ((j : ℕ) : ℤ) ≠ ((k : ℕ) : ℤ) := fun h ↦ hj (Fin.ext (by exact_mod_cast h))
      simpa [hG j g hg] using hne
  rw [List.filter_flatMap]
  simp only [hpick]
  rw [flatMap_ite_eq (List.nodup_finRange _), if_pos (List.mem_finRange k)]

theorem replay_newGuards (gs : List GuardMetaData) (d : VersionEdit)
    (hgs : ∀ g ∈ gs, LevelOk g.level) :
    replay (gs.map fun g ↦ .newGuard g.level g.guardKey) d =
      some { d with
        newGuards := fun k ↦ d.newGuards k ++
          (gs.filter fun g : GuardMetaData ↦ g.level = ((k : ℕ) : ℤ)).map GuardMetaData.strip } := by
  induction gs generalizing d with
  | nil => simp [replay]
  | cons g gs ih =>
    have hg := hgs g List.mem_cons_self
    rw [List.map_cons, replay_cons]
    simp only [Entry.toCall, Call.apply, addGuard, pushGuard, toLevel_eq hg, Option.map_some,
      Option.bind_some, ih _ fun g' h' ↦ hgs g' (List.mem_cons_of_mem _ h'), Option.some.injEq]
    congr 1
    funext k
    by_cases hk : k = hg.toFin
    · subst hk
      simp [appendAt, natCast_toFin hg]
      rfl
    · have hne : g.level ≠ ((k : ℕ) : ℤ) := fun h ↦
        hk (Fin.ext (by have := natCast_toFin hg; omega))
      simp [appendAt, Function.update_of_ne hk, hne]

theorem replay_newCompleteGuards (gs : List GuardMetaData) (d : VersionEdit)
    (hgs : ∀ g ∈ gs, LevelOk g.level) :
    replay (gs.map fun g ↦ .newCompleteGuard g.level g.guardKey) d =
      some { d with
        newCompleteGuards := fun k ↦ d.newCompleteGuards k ++
          (gs.filter fun g : GuardMetaData ↦ g.level = ((k : ℕ) : ℤ)).map GuardMetaData.strip } := by
  induction gs generalizing d with
  | nil => simp [replay]
  | cons g gs ih =>
    have hg := hgs g List.mem_cons_self
    rw [List.map_cons, replay_cons]
    simp only [Entry.toCall, Call.apply, addCompleteGuard, pushGuard, toLevel_eq hg,
      Option.map_some, Option.bind_some, ih _ fun g' h' ↦ hgs g' (List.mem_cons_of_mem _ h'),
      Option.some.injEq]
    congr 1
    funext k
    by_cases hk : k = hg.toFin
    · subst hk
      simp [appendAt, natCast_toFin hg]
      rfl
    · have hne : g.level ≠ ((k : ℕ) : ℤ) := fun h ↦
        hk (Fin.ext (by have := natCast_toFin hg; omega))
      simp [appendAt, Function.update_of_ne hk, hne]

theorem levelOk_of_fin (k : Fin kNumLevels) : LevelOk ((k : ℕ) : ℤ) :=
  ⟨Int.natCast_nonneg _, Int.ofNat_lt.2 k.isLt⟩

/-- An entry written only under a flag: set, it reads back as its call; unset, the edit
already is as the call would leave it. -/
theorem replay_flag {b : Bool} {r : Entry} {d x : VersionEdit}
    (htrue : b = true → r.toCall.apply d = some x) (hfalse : b = false → d = x) :
    replay (if b then [r] else []) d = some x := by
  cases b
  · simp [replay, hfalse rfl]
  · simp [replay, htrue rfl]

/-- The values and flags of a built edit read back as they are: a value never set is the one
of a fresh edit. -/
theorem replay_header {assertions : Bool} {e : VersionEdit} (he : Built assertions e) :
    replay ((if e.hasComparator then [.comparator e.comparator] else []) ++
      (if e.hasLogNumber then [.logNumber e.logNumber] else []) ++
      (if e.hasPrevLogNumber then [.prevLogNumber e.prevLogNumber] else []) ++
      (if e.hasNextFileNumber then [.nextFileNumber e.nextFileNumber] else []) ++
      (if e.hasLastSequence then [.lastSequence e.lastSequence] else [])) empty =
    some { empty with
      comparator := e.comparator, hasComparator := e.hasComparator,
      logNumber := e.logNumber, hasLogNumber := e.hasLogNumber,
      prevLogNumber := e.prevLogNumber, hasPrevLogNumber := e.hasPrevLogNumber,
      nextFileNumber := e.nextFileNumber, hasNextFileNumber := e.hasNextFileNumber,
      lastSequence := e.lastSequence, hasLastSequence := e.hasLastSequence } := by
  -- one flag at a time; each entry sets its value and its flag and nothing else
  have h₁ : replay (if e.hasComparator then [.comparator e.comparator] else []) empty =
      some { empty with comparator := e.comparator, hasComparator := e.hasComparator } :=
    replay_flag (fun hb ↦ by rw [hb]; rfl) (fun hb ↦ by rw [hb, he.comparator_unset hb]; rfl)
  have h₂ : replay (if e.hasLogNumber then [.logNumber e.logNumber] else [])
      { empty with comparator := e.comparator, hasComparator := e.hasComparator } =
      some { empty with
        comparator := e.comparator, hasComparator := e.hasComparator,
        logNumber := e.logNumber, hasLogNumber := e.hasLogNumber } :=
    replay_flag (fun hb ↦ by rw [hb]; rfl) (fun hb ↦ by rw [hb, he.logNumber_unset hb]; rfl)
  have h₃ : replay (if e.hasPrevLogNumber then [.prevLogNumber e.prevLogNumber] else [])
      { empty with
        comparator := e.comparator, hasComparator := e.hasComparator,
        logNumber := e.logNumber, hasLogNumber := e.hasLogNumber } =
      some { empty with
        comparator := e.comparator, hasComparator := e.hasComparator,
        logNumber := e.logNumber, hasLogNumber := e.hasLogNumber,
        prevLogNumber := e.prevLogNumber, hasPrevLogNumber := e.hasPrevLogNumber } :=
    replay_flag (fun hb ↦ by rw [hb]; rfl) (fun hb ↦ by rw [hb, he.prevLogNumber_unset hb]; rfl)
  have h₄ : replay (if e.hasNextFileNumber then [.nextFileNumber e.nextFileNumber] else [])
      { empty with
        comparator := e.comparator, hasComparator := e.hasComparator,
        logNumber := e.logNumber, hasLogNumber := e.hasLogNumber,
        prevLogNumber := e.prevLogNumber, hasPrevLogNumber := e.hasPrevLogNumber } =
      some { empty with
        comparator := e.comparator, hasComparator := e.hasComparator,
        logNumber := e.logNumber, hasLogNumber := e.hasLogNumber,
        prevLogNumber := e.prevLogNumber, hasPrevLogNumber := e.hasPrevLogNumber,
        nextFileNumber := e.nextFileNumber, hasNextFileNumber := e.hasNextFileNumber } :=
    replay_flag (fun hb ↦ by rw [hb]; rfl) (fun hb ↦ by rw [hb, he.nextFileNumber_unset hb]; rfl)
  have h₅ : replay (if e.hasLastSequence then [.lastSequence e.lastSequence] else [])
      { empty with
        comparator := e.comparator, hasComparator := e.hasComparator,
        logNumber := e.logNumber, hasLogNumber := e.hasLogNumber,
        prevLogNumber := e.prevLogNumber, hasPrevLogNumber := e.hasPrevLogNumber,
        nextFileNumber := e.nextFileNumber, hasNextFileNumber := e.hasNextFileNumber } =
      some { empty with
        comparator := e.comparator, hasComparator := e.hasComparator,
        logNumber := e.logNumber, hasLogNumber := e.hasLogNumber,
        prevLogNumber := e.prevLogNumber, hasPrevLogNumber := e.hasPrevLogNumber,
        nextFileNumber := e.nextFileNumber, hasNextFileNumber := e.hasNextFileNumber,
        lastSequence := e.lastSequence, hasLastSequence := e.hasLastSequence } :=
    replay_flag (fun hb ↦ by rw [hb]; rfl) (fun hb ↦ by rw [hb, he.lastSequence_unset hb]; rfl)
  rw [replay_append, replay_append, replay_append, replay_append, h₁, Option.bind_some, h₂,
    Option.bind_some, h₃, Option.bind_some, h₄, Option.bind_some, h₅]

/-- **A built edit is rebuilt by the calls its entries stand for**, up to what `EncodeTo` drops
of its guards. -/
theorem replay_entries {assertions : Bool} {e : VersionEdit} (he : Built assertions e) :
    replay e.entries empty = some e.stripGuards := by
  have hng : ∀ g ∈ (List.finRange kNumLevels).flatMap e.newGuards, LevelOk g.level := by
    intro g hg
    obtain ⟨k, -, hk⟩ := List.mem_flatMap.1 hg
    rw [(he.newGuards k g hk).1]
    exact levelOk_of_fin k
  have hncg : ∀ g ∈ (List.finRange kNumLevels).flatMap e.newCompleteGuards, LevelOk g.level := by
    intro g hg
    obtain ⟨k, -, hk⟩ := List.mem_flatMap.1 hg
    rw [(he.newCompleteGuards k g hk).1]
    exact levelOk_of_fin k
  have hmap : (List.finRange kNumLevels).flatMap (fun k ↦
      (e.newGuards k).map fun g ↦ Entry.newGuard g.level g.guardKey) =
      ((List.finRange kNumLevels).flatMap e.newGuards).map fun g ↦ .newGuard g.level g.guardKey := by
    rw [List.map_flatMap]
  have hmap' : (List.finRange kNumLevels).flatMap (fun k ↦
      (e.newCompleteGuards k).map fun g ↦ Entry.newCompleteGuard g.level g.guardKey) =
      ((List.finRange kNumLevels).flatMap e.newCompleteGuards).map
        fun g ↦ .newCompleteGuard g.level g.guardKey := by
    rw [List.map_flatMap]
  -- each part reads back onto the state the parts before it left; the projections of each
  -- state are reduced at once, so that the states stay small
  rw [entries, replay_append, replay_append, replay_append, replay_append, replay_append,
    replay_append, replay_append, replay_header he, Option.bind_some, replay_compactPointers,
    Option.bind_some]
  dsimp only
  rw [replay_deletedFiles, Option.bind_some]
  dsimp only
  rw [replay_newFiles, Option.bind_some]
  dsimp only
  rw [replay_deletedGuards _ _ ?_, Option.bind_some]
  dsimp only
  rw [hmap, replay_newGuards _ _ hng, Option.bind_some]
  dsimp only
  rw [hmap', replay_newCompleteGuards _ _ hncg, Option.bind_some]
  dsimp only
  rw [replay_deletedSentinelFiles]
  · -- the sets read back in their order, and every guard lands at its own level
    have hdf := @OrderedSet.foldl_insert _ pairLt [] _ he.deletedFiles_sorted
    have hdsf := @OrderedSet.foldl_insert _ pairLt [] _ he.deletedSentinelFiles_sorted
    simp only [List.nil_append] at hdf hdsf
    simp only [empty, clear, List.nil_append, hdf, hdsf,
      filter_flatMap_finRange fun j g hg ↦ (he.newGuards j g hg).1,
      filter_flatMap_finRange fun j g hg ↦ (he.newCompleteGuards j g hg).1]
    rw [stripGuards, he.sentinelFileNos]
  · exact he.deletedGuards_sorted

end Rebuild

/-! ## The round trip -/

section RoundTrip

variable {assertions : Bool} {e : VersionEdit}

/-- The entries of a built edit read back, and with assertions their keys are not empty. -/
theorem Built.mem_entries (he : Built assertions e) {r : Entry} (hr : r ∈ e.entries) :
    r.Valid ∧ ∀ k ∈ r.keys, KeyOk assertions k := by
  simp only [entries, List.mem_append, List.mem_map, List.mem_flatMap, List.mem_ite_nil_right,
    List.mem_singleton, or_assoc] at hr
  rcases hr with ⟨-, rfl⟩ | ⟨-, rfl⟩ | ⟨-, rfl⟩ | ⟨-, rfl⟩ | ⟨-, rfl⟩ | ⟨p, hp, rfl⟩ |
    ⟨p, hp, rfl⟩ | ⟨p, hp, rfl⟩ | ⟨p, hp, rfl⟩ | ⟨k, -, g, hg, rfl⟩ | ⟨k, -, g, hg, rfl⟩ |
    ⟨p, hp, rfl⟩
  · exact ⟨he.comparator, by simp [Entry.keys]⟩
  · exact ⟨trivial, by simp [Entry.keys]⟩
  · exact ⟨trivial, by simp [Entry.keys]⟩
  · exact ⟨trivial, by simp [Entry.keys]⟩
  · exact ⟨trivial, by simp [Entry.keys]⟩
  · obtain ⟨hlevel, hkey⟩ := he.compactPointers p hp
    exact ⟨⟨hlevel, hkey.1⟩, by simpa [Entry.keys] using hkey⟩
  · exact ⟨he.deletedFiles p hp, by simp [Entry.keys]⟩
  · obtain ⟨hlevel, hsmallest, hlargest⟩ := he.newFiles p hp
    exact ⟨⟨hlevel, hsmallest.1, hlargest.1⟩, by simp [Entry.keys, hsmallest, hlargest]⟩
  · obtain ⟨hlevel, hkey⟩ := he.deletedGuards p hp
    exact ⟨⟨hlevel, hkey.1⟩, by simpa [Entry.keys] using hkey⟩
  · obtain ⟨hlevel, hkey⟩ := he.newGuards k g hg
    exact ⟨⟨hlevel ▸ levelOk_of_fin k, hkey.1⟩, by simpa [Entry.keys] using hkey⟩
  · obtain ⟨hlevel, hkey⟩ := he.newCompleteGuards k g hg
    exact ⟨⟨hlevel ▸ levelOk_of_fin k, hkey.1⟩, by simpa [Entry.keys] using hkey⟩
  · exact ⟨he.deletedSentinelFiles p hp, by simp [Entry.keys]⟩

/-- A built edit encodes: with assertions, none of its keys is empty. -/
theorem Built.encodeTo_eq (he : Built assertions e) :
    encodeTo assertions e = some (e.entries.flatMap Entry.encode) := by
  rw [encodeTo, if_neg]
  intro h
  simp only [Bool.and_eq_true, List.any_eq_true, List.mem_flatMap, List.isEmpty_iff] at h
  obtain ⟨ha, k, ⟨r, hr, hk⟩, rfl⟩ := h
  exact ((he.mem_entries hr).2 [] hk).2 ha rfl

theorem entries_stripGuards (e : VersionEdit) : e.stripGuards.entries = e.entries := by
  simp only [entries, stripGuards, List.map_map, Function.comp_def]
  rfl

/-- `EncodeTo` writes of guards only what stripping keeps. -/
theorem encodeTo_stripGuards (e : VersionEdit) :
    encodeTo assertions e.stripGuards = encodeTo assertions e := by
  rw [encodeTo, encodeTo, entries_stripGuards]

/-- **Edits built by the setters and adders read back.** With levels of the arrays, keys and a
comparator name shorter than `2 ^ 32` bytes, with assertions keys that are not empty, and every
guard taken from elsewhere at the level of its own level field: `EncodeTo` writes the edit, a
fresh edit decodes the bytes with status OK, agrees with it on everything but what `EncodeTo`
drops of guards (their segment counts, bounds and files), and encodes to the same bytes. -/
theorem decodeFrom_encodeTo {calls : List Call} (hcalls : ∀ c ∈ calls, c.Valid assertions)
    (he : ofCalls calls = some e) (tag2 : UInt32) (fnumber : UInt64) :
    ∃ bytes d, encodeTo assertions e = some bytes ∧
      decodeFrom assertions tag2 fnumber empty bytes = some (d, .ok ()) ∧
      d.stripGuards = e.stripGuards ∧ encodeTo assertions d = some bytes := by
  have hb := built_ofCalls hcalls he
  obtain ⟨s', d, hloop, hd⟩ := @decodeLoop_entries assertions e.entries
    ⟨tag2, fnumber, GuardMetaData.init⟩ empty.clear e.stripGuards []
    (fun r hr ↦ (hb.mem_entries hr).1) (replay_entries hb)
  refine ⟨_, d, hb.encodeTo_eq, ?_, hd, ?_⟩
  · rw [decodeFrom, ← List.append_nil (e.entries.flatMap Entry.encode), hloop]
    exact decodeLoop_of_getVarint32_eq_none rfl
  · rw [← encodeTo_stripGuards, hd, encodeTo_stripGuards, hb.encodeTo_eq]

/-- The calls of `version_edit_test.cc`, with guards of every kind. -/
def sampleCalls : List Call :=
  [.addFile 3 300 400 [102, 111, 111, 1] [122, 111, 111, 0], .deleteFile 4 700,
    .setCompactPointer 0 [120, 1], .setComparatorName [102, 111, 111], .setLogNumber 100,
    .setNextFile 200, .setLastSequence 1000, .addGuard 2 [103, 1],
    .addGuardWithFiles 2 3 [104, 1] [1] [2] [10, 11, 12], .deleteGuard 5 [105, 1],
    .addCompleteGuard 0 [106, 1],
    .addCompleteGuardFromExisting 1 { GuardMetaData.init with level := 1, guardKey := [107, 1] }]

theorem decodeFrom_encodeTo_sample : ∃ e, ofCalls sampleCalls = some e ∧
    ∃ bytes d, encodeTo true e = some bytes ∧
      decodeFrom true 0 0 empty bytes = some (d, .ok ()) ∧
      d.stripGuards = e.stripGuards ∧ encodeTo true d = some bytes :=
  ⟨_, rfl, @decodeFrom_encodeTo true _ sampleCalls
    (by simp [sampleCalls, Call.Valid, LevelOk, KeyOk, kNumLevels]) rfl 0 0⟩

theorem encodeTo_setComparatorName (name : List UInt8) :
    encodeTo assertions (empty.setComparatorName name) = some (Entry.comparator name).encode := by
  simp [encodeTo, entries, setComparatorName, empty, clear, Entry.keys]

/-- A comparator entry whose length reads `0` sets an empty name and leaves the bytes after the
length for the next tag. -/
theorem decodeEntry_comparator_zero (s : Scratch) (rest : List UInt8) :
    decodeEntry assertions s e Tag.kComparator.toUInt32 (0 :: rest) =
      some (.ok (s, e.setComparatorName [], rest)) := by
  simp [decodeEntry, readEntry, getLengthPrefixedSlice_zero]

/-- **A comparator name of `2 ^ 32` bytes does not read back.** `PutLengthPrefixedSlice` writes
its length as a `uint32_t`, which wraps to `0`: the name reads back empty, and its own bytes are
then read as tags, five bytes with the high bit set that make no varint32, so the decoder stops
with an invalid tag. -/
theorem decodeFrom_longComparatorName (assertions : Bool) (tag2 : UInt32) (fnumber : UInt64) :
    ∃ e bytes d, ofCalls [.setComparatorName (List.replicate (2 ^ 32) 255)] = some e ∧
      encodeTo assertions e = some bytes ∧
      decodeFrom assertions tag2 fnumber empty bytes = some (d, .error "invalid tag") := by
  generalize hname : List.replicate (2 ^ 32) (255 : UInt8) = name
  have hlen : name.length.toUInt32 = 0 := by
    rw [← hname, List.length_replicate]
    rfl
  -- the name's first five bytes, and a tail that no step below looks into
  obtain ⟨tail, htail⟩ : ∃ tail, name = 255 :: 255 :: 255 :: 255 :: 255 :: tail := by
    have hfive : ∀ n, List.replicate (n + 5) (255 : UInt8) =
        255 :: 255 :: 255 :: 255 :: 255 :: List.replicate n 255 := fun _ ↦ rfl
    refine ⟨List.replicate (2 ^ 32 - 5) 255, ?_⟩
    rw [← hname, ← hfive, Nat.sub_add_cancel (show 5 ≤ 2 ^ 32 by decide)]
  have hbad : getVarint32 name = none := by
    rw [htail]
    rfl
  refine ⟨_, _, empty.clear.setComparatorName [], rfl, encodeTo_setComparatorName name, ?_⟩
  rw [decodeFrom, Entry.encode, Entry.tag, Entry.fields, putLengthPrefixedSlice, hlen,
    show putVarint32 [] 0 ++ name = 0 :: name from rfl]
  rw [decodeLoop_of_decodeEntry_ok (getVarint32_putVarint32 _ _)
      (decodeEntry_comparator_zero _ _), decodeLoop_of_getVarint32_eq_none hbad, htail]
  rfl

theorem longComparatorName_decodeFrom :
    ∃ e bytes d, ofCalls [.setComparatorName (List.replicate (2 ^ 32) 255)] = some e ∧
      encodeTo true e = some bytes ∧
      decodeFrom true 0 0 empty bytes = some (d, .error "invalid tag") :=
  decodeFrom_longComparatorName true 0 0

end RoundTrip

/-! ## A guard entry cut short -/

/-- **`DecodeFrom` accepts a guard entry without its files.** The four bytes are a `kNewGuard`
entry at level `0`, with five segments and an empty key, and nothing after it. Without
assertions, the reads of the bounds are gone and the five failed file reads are not checked:
the edit decodes OK, with a guard of five copies of the stale `fnumber`, five rounds of the loop
on four bytes. With assertions, the read of the bounds fails inside the `assert` and the process
aborts; neither build reports corruption. -/
theorem decodeFrom_truncatedGuard (tag2 : UInt32) (fnumber : UInt64) :
    (∃ d, decodeFrom false tag2 fnumber empty [11, 0, 5, 0] = some (d, .ok ()) ∧
      d.newGuards 0 = [{ GuardMetaData.init with
        level := 0, numberSegments := 5, files := List.replicate 5 fnumber }]) ∧
    decodeFrom true tag2 fnumber empty [11, 0, 5, 0] = none := by
  have htag : getVarint32 [11, 0, 5, 0] = some (11, [0, 5, 0]) := rfl
  have hend : getVarint32 [] = none := rfl
  constructor
  · refine ⟨_, (decodeLoop_of_decodeEntry_ok htag rfl).trans
      (decodeLoop_of_getVarint32_eq_none hend), rfl⟩
  · exact decodeLoop_of_decodeEntry_none htag rfl

end VersionEdit

end PebblesDB.Db
