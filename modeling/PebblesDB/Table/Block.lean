import Mathlib
import PebblesDB.Util.Coding
import PebblesDB.Util.Comparator
import PebblesDB.Lib.Loop
import PebblesDB.Lib.Cursor

/-!
# Reading a block

`Block` takes the contents `BlockBuilder::Finish` wrote, checks that the restart array fits, and
hands out a `Block::Iter`. The iterator keeps the offset of its entry (`current_`), the restart
point it scans from (`restart_index_`), the key rebuilt from the shared bytes of the key before
it and its own delta (`key_`), and the value as a slice into the block (`value_`, kept here as
its offset and size). `ParseNextKey` reads the entry where the value ends; `Seek` finds the last
restart point with a key below the target by binary search and scans forward from it; `Prev`
goes back to a restart point before the entry and scans forward to the entry before it.

`DecodeEntry` reads the three lengths of an entry one byte each where all three are below 128,
and with `GetVarint32Ptr` otherwise; `decodeEntry_eq_varints` says that both paths read the same
on every input. Its final check adds two `uint32_t` lengths, which can wrap; the model keeps the
wrap (`checkEntry`).

The scans of `Seek`, `SeekToLast` and `Prev` stop on a well-formed block only, so they run on
fuel (`Loop.doWhile`): `restarts_ + 1` rounds, more than the entries a well-formed block holds.
`Next()` and `Prev()` assert `Valid()`; the model returns `none` there, and where the fuel runs
out.
-/

namespace PebblesDB.Table

/-- A `Status` as the iterator keeps it. -/
inductive Status
  /-- `Status::OK()`. -/
  | ok
  /-- `Status::Corruption(msg)`. -/
  | corruption (msg : String)
  deriving DecidableEq, Repr

/-- A `Block`: its contents, `size_`, which `0` marks as bad, and `restart_offset_`. -/
structure Block where
  /-- `data_`. -/
  data : List UInt8
  /-- `size_`. -/
  size : ℕ
  /-- `restart_offset_`, where the restart array starts. -/
  restartOffset : ℕ
  deriving DecidableEq, Repr

namespace Block

/-- `NumRestarts()`: the last word of the block. -/
def numRestarts (b : Block) : UInt32 :=
  decodeFixed32 (b.data.drop (b.size - 4))

/-- The constructor `Block(contents)`: a block too short for its restart count, or for the
restart array the count asks for, gets `size_ = 0`. -/
def ofContents (contents : List UInt8) : Block :=
  let b : Block := ⟨contents, contents.length, 0⟩
  if b.size < 4 then { b with size := 0 }
  else if (b.size - 4) / 4 < b.numRestarts.toNat then { b with size := 0 }
  else { b with restartOffset := b.size - (1 + b.numRestarts.toNat) * 4 }

end Block

/-! ## Decoding an entry -/

/-- The end of `DecodeEntry`: the key delta and the value must fit in the bytes left, their sum
taken as a `uint32_t`. The three lengths and the bytes after them. -/
def checkEntry (shared nonShared valueLength : UInt32) (rest : List UInt8) :
    Option (UInt32 × UInt32 × UInt32 × List UInt8) :=
  if rest.length.toUInt32 < nonShared + valueLength then none
  else some (shared, nonShared, valueLength, rest)

/-- The varint path of `DecodeEntry`: three `GetVarint32Ptr`, each bounded by `limit`. -/
def decodeEntryVarints (input : List UInt8) : Option (UInt32 × UInt32 × UInt32 × List UInt8) := do
  let (shared, input) ← getVarint32 input
  let (nonShared, input) ← getVarint32 input
  let (valueLength, input) ← getVarint32 input
  checkEntry shared nonShared valueLength input

/-- `DecodeEntry(p, limit, ...)` on the bytes from `p` to `limit`: fewer than three bytes fail;
three bytes below 128 are the three lengths; otherwise the varint path. -/
def decodeEntry (input : List UInt8) : Option (UInt32 × UInt32 × UInt32 × List UInt8) :=
  match input with
  | s :: n :: v :: rest =>
    if s.toUInt32 ||| n.toUInt32 ||| v.toUInt32 < 128 then
      checkEntry s.toUInt32 n.toUInt32 v.toUInt32 rest
    else decodeEntryVarints input
  | _ => none

/-- A byte below 128 is a varint on its own. -/
theorem getVarint32_of_lt {b : UInt8} (hb : b.toNat < 128) (rest : List UInt8) :
    getVarint32 (b :: rest) = some (b.toUInt32, rest) := by
  have hlow : b.toUInt32 &&& 128 = 0 := by
    rw [← UInt32.toNat_inj]
    simpa using (Leb128.land_128_eq_zero_iff (by omega)).2 hb
  simp [getVarint32, hlow]

/-- The varint path needs a byte for each of the three lengths. -/
theorem decodeEntryVarints_of_length_lt {input : List UInt8} (h : input.length < 3) :
    decodeEntryVarints input = none := by
  rcases h1 : getVarint32 input with _ | ⟨shared, input₁⟩
  · simp [decodeEntryVarints, h1]
  rcases h2 : getVarint32 input₁ with _ | ⟨nonShared, input₂⟩
  · simp [decodeEntryVarints, h1, h2]
  rcases h3 : getVarint32 input₂ with _ | ⟨valueLength, input₃⟩
  · simp [decodeEntryVarints, h1, h2, h3]
  -- each read takes a byte at least
  have := length_lt_of_getVarint32 h1
  have := length_lt_of_getVarint32 h2
  have := length_lt_of_getVarint32 h3
  omega

/-- **`DecodeEntry`'s fast path reads what the varint path reads**, on every input: three bytes
below 128 are three one-byte varints, and fewer than three bytes fail either way. -/
theorem decodeEntry_eq_varints (input : List UInt8) :
    decodeEntry input = decodeEntryVarints input := by
  match input with
  | s :: n :: v :: rest =>
    rw [decodeEntry]
    split_ifs with hfast
    · have hor : s.toNat ||| n.toNat ||| v.toNat < 128 := by
        simpa [UInt32.lt_iff_toNat_lt, UInt32.toNat_or] using hfast
      have hs : s.toNat < 128 := lt_of_le_of_lt (Nat.left_le_or.trans Nat.left_le_or) hor
      have hn : n.toNat < 128 := lt_of_le_of_lt (Nat.right_le_or.trans Nat.left_le_or) hor
      have hv : v.toNat < 128 := lt_of_le_of_lt Nat.right_le_or hor
      simp [decodeEntryVarints, getVarint32_of_lt hs, getVarint32_of_lt hn, getVarint32_of_lt hv]
    · rfl
  | [] | [_] | [_, _] => exact (decodeEntryVarints_of_length_lt (by simp)).symm

/-! ## The iterator -/

/-- `Block::Iter`: `comparator_`, `data_`, `restarts_` and `num_restarts_`, which stay fixed, and
the position: `current_`, `restart_index_`, `key_`, `value_` as its offset in the block and its
size, and `status_`. -/
structure Iter where
  /-- `comparator_`. -/
  comparator : Comparator
  /-- `data_`. -/
  data : List UInt8
  /-- `restarts_`, the offset of the restart array. -/
  restarts : ℕ
  /-- `num_restarts_`. -/
  numRestarts : ℕ
  /-- `current_`, the offset of the entry; at `restarts_` or past it when not valid. -/
  current : ℕ
  /-- `restart_index_`, the restart point the entry's scan starts from. -/
  restartIndex : ℕ
  /-- `key_`. -/
  key : List UInt8
  /-- `value_.data() - data_`. -/
  valueOffset : ℕ
  /-- `value_.size()`. -/
  valueSize : ℕ
  /-- `status_`. -/
  status : Status

namespace Iter

variable (it : Iter)

/-- `Valid()`. -/
def valid : Bool :=
  decide (it.current < it.restarts)

/-- `value()`. -/
def value : List UInt8 :=
  (it.data.drop it.valueOffset).take it.valueSize

/-- `NextEntryOffset()`: where the value ends, as a `uint32_t`. -/
def nextEntryOffset : ℕ :=
  (it.valueOffset + it.valueSize) % 2 ^ 32

/-- `GetRestartPoint(index)`. -/
def getRestartPoint (index : ℕ) : ℕ :=
  (decodeFixed32 (it.data.drop (it.restarts + index * 4))).toNat

/-- `SeekToRestartPoint(index)`: no key, and an empty value where the restart point is, so that
`ParseNextKey` reads the entry there. -/
def seekToRestartPoint (index : ℕ) : Iter :=
  { it with
    key := []
    restartIndex := index
    valueOffset := it.getRestartPoint index
    valueSize := 0 }

/-- `CorruptionError()`. `value_.clear()` leaves an empty slice, kept at offset `0`. -/
def corruptionError : Iter :=
  { it with
    current := it.restarts
    restartIndex := it.numRestarts
    status := .corruption "bad entry in block"
    key := []
    valueOffset := 0
    valueSize := 0 }

/-- The loop at the end of `ParseNextKey`: move `restart_index_` on past every restart point
before `current`. -/
def advanceRestartIndex (current index : ℕ) : ℕ :=
  if index + 1 < it.numRestarts ∧ it.getRestartPoint (index + 1) < current then
    advanceRestartIndex current (index + 1)
  else index
termination_by it.numRestarts - index

/-- `ParseNextKey()`: read the entry where the value ends. Past the entries the iterator becomes
invalid; an entry that does not decode, or shares more bytes than the key has, is a corruption.
The iterator and whether an entry was read. -/
def parseNextKey : Iter × Bool :=
  let current := it.nextEntryOffset
  if it.restarts ≤ current then
    ({ it with current := it.restarts, restartIndex := it.numRestarts }, false)
  else
    let input := (it.data.take it.restarts).drop current
    match decodeEntry input with
    | none => (it.corruptionError, false)
    | some (shared, nonShared, valueLength, rest) =>
      if it.key.length < shared.toNat then (it.corruptionError, false)
      else
        let p := current + (input.length - rest.length)
        ({ it with
            current
            restartIndex := it.advanceRestartIndex current it.restartIndex
            key := it.key.take shared.toNat ++ rest.take nonShared.toNat
            valueOffset := p + nonShared.toNat
            valueSize := valueLength.toNat }, true)

/-- `ParseNextKey()` past the entries. -/
theorem parseNextKey_of_le (h : it.restarts ≤ it.nextEntryOffset) :
    it.parseNextKey = ({ it with current := it.restarts, restartIndex := it.numRestarts }, false) :=
  by rw [parseNextKey, if_pos h]

/-- `ParseNextKey()` on an entry that decodes and shares no more bytes than the key has. -/
theorem parseNextKey_of_decode {shared nonShared valueLength : UInt32} {rest : List UInt8}
    (h : it.nextEntryOffset < it.restarts)
    (hdec : decodeEntry ((it.data.take it.restarts).drop it.nextEntryOffset) =
      some (shared, nonShared, valueLength, rest))
    (hkey : shared.toNat ≤ it.key.length) :
    it.parseNextKey =
      ({ it with
          current := it.nextEntryOffset
          restartIndex := it.advanceRestartIndex it.nextEntryOffset it.restartIndex
          key := it.key.take shared.toNat ++ rest.take nonShared.toNat
          valueOffset := it.nextEntryOffset +
            (((it.data.take it.restarts).drop it.nextEntryOffset).length - rest.length) +
            nonShared.toNat
          valueSize := valueLength.toNat }, true) := by
  rw [parseNextKey, if_neg (Nat.not_le.2 h)]
  simp only [hdec, if_neg (Nat.not_lt.2 hkey)]

@[simp] theorem comparator_parseNextKey : it.parseNextKey.1.comparator = it.comparator := by
  simp only [parseNextKey]
  split
  · rfl
  · split
    · rfl
    · split <;> rfl

/-- The rounds a scan may take: every round but the last reads an entry of three bytes at least
before `restarts_`. -/
def scanFuel : ℕ :=
  it.restarts + 1

/-- `Next()`. -/
def next : Option Iter :=
  if it.valid then some it.parseNextKey.1 else none

/-- The loop at the start of `Prev()`: back from `index` to a restart point before `original`,
or none. -/
def scanBack (original : ℕ) : ℕ → Option ℕ
  | 0 => if original ≤ it.getRestartPoint 0 then none else some 0
  | index + 1 =>
    if original ≤ it.getRestartPoint (index + 1) then scanBack original index else some (index + 1)

/-- `Prev()`: from the restart point `scanBack` finds, parse entries until the one that ends where
the current one starts; before the first entry, invalid. -/
def prev : Option Iter :=
  if it.valid then
    match it.scanBack it.current it.restartIndex with
    | none => some { it with current := it.restarts, restartIndex := it.numRestarts }
    | some index =>
      Loop.doWhile parseNextKey (fun it' ↦ decide (it'.nextEntryOffset < it.current)) it.scanFuel
        (it.seekToRestartPoint index)
  else none

/-- The probe of `Seek`'s binary search at restart point `index`: whether its key is below the
target; `none` where the entry does not decode or shares bytes. -/
def probe (target : List UInt8) (index : ℕ) : Option Bool :=
  match decodeEntry ((it.data.take it.restarts).drop (it.getRestartPoint index)) with
  | none => none
  | some (shared, nonShared, _, rest) =>
    if shared ≠ 0 then none
    else some (decide (it.comparator.compare (rest.take nonShared.toNat) target < 0))

/-- `Seek(target)`: the last restart point with a key below the target, or the first, then the
first entry from there with a key not below it. -/
def seek (target : List UInt8) : Option Iter :=
  match Loop.searchLast (it.probe target) 0 (it.numRestarts - 1) with
  | none => some it.corruptionError
  | some left =>
    Loop.doWhile parseNextKey (fun it' ↦ decide (it'.comparator.compare it'.key target < 0))
      it.scanFuel (it.seekToRestartPoint left)

/-- `SeekToFirst()`. -/
def seekToFirst : Iter :=
  (it.seekToRestartPoint 0).parseNextKey.1

/-- `SeekToLast()`: from the last restart point, parse entries until the one that ends where the
restart array starts. -/
def seekToLast : Option Iter :=
  Loop.doWhile parseNextKey (fun it' ↦ decide (it'.nextEntryOffset < it'.restarts)) it.scanFuel
    (it.seekToRestartPoint (it.numRestarts - 1))

/-- A call on the iterator. -/
def step : Cursor.Op (List UInt8) → Iter → Option Iter
  | .seekToFirst, it => some it.seekToFirst
  | .seekToLast, it => it.seekToLast
  | .seek target, it => it.seek target
  | .next, it => it.next
  | .prev, it => it.prev

end Iter

/-- What `Block::NewIterator` returns. -/
inductive BlockIter
  /-- `NewErrorIterator(status)`. -/
  | error (status : Status)
  /-- `NewEmptyIterator()`. -/
  | empty
  /-- `new Iter(...)`. -/
  | iter (it : Iter)

/-- `Block::NewIterator(cmp)`: an error for bad contents, nothing for no restart point, else an
iterator that is not valid. -/
def Block.newIterator (b : Block) (cmp : Comparator) : BlockIter :=
  if b.size < 4 then .error (.corruption "bad block contents")
  else if b.numRestarts.toNat = 0 then .empty
  else .iter ⟨cmp, b.data, b.restartOffset, b.numRestarts.toNat, b.restartOffset,
    b.numRestarts.toNat, [], 0, 0, .ok⟩

end PebblesDB.Table
