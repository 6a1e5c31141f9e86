import PebblesDB.Db.WriteBatch
import PebblesDB.Db.MemTable

/-!
# The bytes of a write batch

`WriteBatch::rep_`: an eight-byte sequence number, a four-byte count, then the records, each a
tag byte and its fields. A put has its key and value as length-prefixed slices, a delete its key,
and a guard its key and its level as a varint. `Iterate` parses the records in order, hands each
to the handler, and at the end compares their number with the count.

The bytes refine the record lists of `PebblesDB.Db.WriteBatch`. A batch built by `Put`, `Delete`
and `PutGuard` is the header and the records' encodings (`ofRecords_eq`), and `Iterate` hands the
handler exactly those records (`iterate_ofRecords`), as long as every key and value fits the
`uint32_t` length `PutLengthPrefixedSlice` writes. `Append` of two built batches is the batch of
both (`append_ofRecords`). The other way round, `Iterate` returns OK only on bytes that split into
whole records, as many as the count says (`iterate_eq_ok`).

A key of `2 ^ 32` bytes does not fit: its length prefix wraps to `0` and `Iterate` reports the
batch corrupt (`bigKey_iterate`).
-/

namespace PebblesDB.Db.WriteBatchRep

open MemTable (kTypeValue kTypeDeletion)

/-- `kHeader`: the sequence number and the count. -/
def kHeader : ℕ := 12

/-- `kTypeGuard`, the tag PebblesDB adds to those of `dbformat.h`. -/
def kTypeGuard : UInt8 := 2

/-- `WriteBatch::Clear`, which the constructor calls: a header of zeros. -/
def clear : List UInt8 :=
  List.replicate kHeader 0

/-- `WriteBatchInternal::Count`. -/
def count (rep : List UInt8) : ℕ :=
  (decodeFixed32 (rep.drop 8)).toNat

/-- `WriteBatchInternal::SetCount`: the four bytes at offset 8. -/
def setCount (rep : List UInt8) (n : ℕ) : List UInt8 :=
  rep.take 8 ++ encodeFixed32 n.toUInt32 ++ rep.drop 12

/-- `WriteBatchInternal::Sequence`. -/
def sequence (rep : List UInt8) : ℕ :=
  (decodeFixed64 rep).toNat

/-- `WriteBatch::Put`. -/
def put (rep key value : List UInt8) : List UInt8 :=
  putLengthPrefixedSlice
    (putLengthPrefixedSlice (setCount rep (count rep + 1) ++ [kTypeValue]) key) value

/-- `WriteBatch::PutGuard`: the `int` level goes to `PutVarint32` as a `uint32_t`. -/
def putGuard (rep key : List UInt8) (level : ℕ) : List UInt8 :=
  putVarint32 (putLengthPrefixedSlice (setCount rep (count rep + 1) ++ [kTypeGuard]) key)
    level.toUInt32

/-- `WriteBatch::Delete`. -/
def delete (rep key : List UInt8) : List UInt8 :=
  putLengthPrefixedSlice (setCount rep (count rep + 1) ++ [kTypeDeletion]) key

/-- The `switch` of `WriteBatch::Iterate` on a record's tag: the record and the rest of the
input, or the message of the `Corruption` it returns. -/
def parseRecord (tag : UInt8) (input : List UInt8) : Except String (Record × List UInt8) :=
  if tag = kTypeValue then
    match getLengthPrefixedSlice input with
    | some (key, input) =>
      match getLengthPrefixedSlice input with
      | some (value, input) => .ok (.value key value, input)
      | none => .error "bad WriteBatch Put"
    | none => .error "bad WriteBatch Put"
  else if tag = kTypeDeletion then
    match getLengthPrefixedSlice input with
    | some (key, input) => .ok (.deletion key, input)
    | none => .error "bad WriteBatch Delete"
  else if tag = kTypeGuard then
    match getLengthPrefixedSlice input with
    | some (key, input) =>
      match getVarint32 input with
      | some (level, input) => .ok (.guard key level.toNat, input)
      | none => .error "bad WriteBatch Guard"
    | none => .error "bad WriteBatch Guard"
  else .error "unknown WriteBatch tag"

/-- `parseRecord` reads nothing past the bytes of its record. -/
theorem parseRecord_append {tag : UInt8} {input rest : List UInt8} {r : Record}
    (h : parseRecord tag input = .ok (r, rest)) :
    ∃ chunk, input = chunk ++ rest ∧ ∀ rest', parseRecord tag (chunk ++ rest') = .ok (r, rest') := by
  unfold parseRecord at h
  split_ifs at h with hvalue hdeletion hguard
  · -- a put: two slices
    split at h
    · rename_i key input₁ hkey
      split at h
      · rename_i value input₂ hval
        obtain ⟨rfl, rfl⟩ := Prod.mk.inj (Except.ok.inj h)
        obtain ⟨c₁, rfl, hc₁⟩ := getLengthPrefixedSlice_append hkey
        obtain ⟨c₂, rfl, hc₂⟩ := getLengthPrefixedSlice_append hval
        refine ⟨c₁ ++ c₂, by simp, fun rest' ↦ ?_⟩
        simp only [parseRecord, if_pos hvalue, List.append_assoc, hc₁, hc₂]
      · cases h
    · cases h
  · -- a delete: one slice
    split at h
    · rename_i key input₁ hkey
      obtain ⟨rfl, rfl⟩ := Prod.mk.inj (Except.ok.inj h)
      obtain ⟨c₁, rfl, hc₁⟩ := getLengthPrefixedSlice_append hkey
      refine ⟨c₁, rfl, fun rest' ↦ ?_⟩
      simp only [parseRecord, if_neg hvalue, if_pos hdeletion, hc₁]
    · cases h
  · -- a guard: a slice and a varint
    split at h
    · rename_i key input₁ hkey
      split at h
      · rename_i level input₂ hlevel
        obtain ⟨rfl, rfl⟩ := Prod.mk.inj (Except.ok.inj h)
        obtain ⟨c₁, rfl, hc₁⟩ := getLengthPrefixedSlice_append hkey
        obtain ⟨c₂, rfl, hc₂⟩ := getVarint32_append hlevel
        refine ⟨c₁ ++ c₂, by simp, fun rest' ↦ ?_⟩
        simp only [parseRecord, if_neg hvalue, if_neg hdeletion, if_pos hguard,
          List.append_assoc, hc₁, hc₂]
      · cases h
    · cases h

theorem length_le_of_parseRecord {tag : UInt8} {input rest : List UInt8} {r : Record}
    (h : parseRecord tag input = .ok (r, rest)) : rest.length ≤ input.length := by
  obtain ⟨chunk, rfl, -⟩ := parseRecord_append h
  simp

/-- The `while` loop of `WriteBatch::Iterate`, `found` records in: the records handed to the
handler, and the status. -/
def iterateLoop (countField found : ℕ) : List UInt8 → List Record × Except String Unit
  | [] => ([], if found ≠ countField then .error "WriteBatch has wrong count" else .ok ())
  | tag :: input =>
    match h : parseRecord tag input with
    | .ok (r, rest) =>
      have : rest.length < input.length + 1 := Nat.lt_succ_of_le (length_le_of_parseRecord h)
      let next := iterateLoop countField (found + 1) rest
      (r :: next.1, next.2)
    | .error msg => ([], .error msg)
termination_by input => input.length

/-- `WriteBatch::Iterate`: the records handed to the handler, in order, and the status. -/
def iterate (rep : List UInt8) : List Record × Except String Unit :=
  if rep.length < kHeader then ([], .error "malformed WriteBatch (too small)")
  else iterateLoop (count rep) 0 (rep.drop kHeader)

/-- `WriteBatchInternal::SetContents`: `none` where its assert fails. -/
def setContents (contents : List UInt8) : Option (List UInt8) :=
  if contents.length < kHeader then none else some contents

/-- `WriteBatchInternal::Append(dst, src)`: `none` where its assert fails. -/
def append (dst src : List UInt8) : Option (List UInt8) :=
  let dst := setCount dst (count dst + count src)
  if src.length < kHeader then none else some (dst ++ src.drop kHeader)

/-- `WriteBatchInternal::InsertIntoVersion` with a version: what the `MemTableInserter` makes of
the records `Iterate` hands it, numbered from the batch's sequence, and the status. -/
def insertIntoVersion (rep : List UInt8) : (List Entry × List GuardMeta) × Except String Unit :=
  (insertRecords (sequence rep) (iterate rep).1, (iterate rep).2)

/-- The call that adds a record to a batch. -/
def addRecord (rep : List UInt8) : Record → List UInt8
  | .value key value => put rep key value
  | .deletion key => delete rep key
  | .guard key level => putGuard rep key level

/-- The batch the calls for the records `ops` build from a fresh one. -/
def ofRecords (ops : List Record) : List UInt8 :=
  ops.foldl addRecord clear

/-! ## Building a batch -/

/-- The bytes of one record: its tag, then its fields. -/
def encodeRecord : Record → List UInt8
  | .value key value =>
    kTypeValue :: (putLengthPrefixedSlice [] key ++ putLengthPrefixedSlice [] value)
  | .deletion key => kTypeDeletion :: putLengthPrefixedSlice [] key
  | .guard key level => kTypeGuard :: putVarint32 (putLengthPrefixedSlice [] key) level.toUInt32

/-- A batch of sequence number zero holding `n` records, as `SetCount` writes `n`, with the
bytes `body` after its header. -/
def header (n : ℕ) (body : List UInt8) : List UInt8 :=
  List.replicate 8 0 ++ encodeFixed32 n.toUInt32 ++ body

theorem count_header (n : ℕ) (body : List UInt8) : count (header n body) = n % 2 ^ 32 := by
  rw [count, header, List.append_assoc, List.drop_left' (by simp),
    decodeFixed32_append (by simp), decodeFixed32_encodeFixed32]
  simp

theorem length_headerStart (n : ℕ) :
    (List.replicate 8 (0 : UInt8) ++ encodeFixed32 n.toUInt32).length = kHeader := by
  simp [kHeader]

theorem drop_header (n : ℕ) (body : List UInt8) : (header n body).drop kHeader = body := by
  rw [header, List.drop_left' (length_headerStart n)]

theorem setCount_header (n m : ℕ) (body : List UInt8) :
    setCount (header n body) m = header m body := by
  have htake : (header n body).take 8 = List.replicate 8 0 := by
    rw [header, List.append_assoc, List.take_left' (by simp)]
  rw [setCount, htake, show 12 = kHeader from rfl, drop_header]
  rfl

/-- `SetCount` takes the count as a `uint32_t`. -/
theorem toUInt32_mod_add (n m : ℕ) : (n % 2 ^ 32 + m).toUInt32 = (n + m).toUInt32 := by
  apply UInt32.toNat_inj.1
  simp only [Nat.toUInt32, UInt32.toNat_ofNat']
  omega

/-- Adding a record: the count goes up by one and the record's bytes go at the end. -/
theorem addRecord_header (n : ℕ) (body : List UInt8) (r : Record) :
    addRecord (header n body) r = header (n + 1) (body ++ encodeRecord r) := by
  have hcount : setCount (header n body) (count (header n body) + 1) = header (n + 1) body := by
    rw [count_header, setCount_header, header, header, toUInt32_mod_add]
  cases r <;> simp only [addRecord, put, delete, putGuard, hcount] <;>
    simp [encodeRecord, putLengthPrefixedSlice, putVarint32, header]

/-- **A built batch**: the header with the number of records, then their bytes. -/
theorem ofRecords_eq (ops : List Record) :
    ofRecords ops = header ops.length (ops.flatMap encodeRecord) := by
  induction ops using List.reverseRecOn with
  | nil => rfl
  | append_singleton ops r ih =>
    rw [ofRecords, List.foldl_append, ← ofRecords, ih, List.foldl_cons, List.foldl_nil,
      addRecord_header]
    simp

theorem length_header (n : ℕ) (body : List UInt8) :
    (header n body).length = kHeader + body.length := by
  rw [header, List.length_append, length_headerStart]

theorem header_append (n : ℕ) (body body' : List UInt8) :
    header n body ++ body' = header n (body ++ body') := by
  simp [header]

/-- **`Append` of two built batches** is the batch of both record lists. -/
theorem append_ofRecords (a b : List Record) :
    append (ofRecords a) (ofRecords b) = some (ofRecords (a ++ b)) := by
  have hcount : (a.length % 2 ^ 32 + b.length % 2 ^ 32).toUInt32 = (a ++ b).length.toUInt32 := by
    rw [toUInt32_mod_add, Nat.add_comm, toUInt32_mod_add, List.length_append, Nat.add_comm]
  rw [append, ofRecords_eq, ofRecords_eq, ofRecords_eq, count_header, count_header,
    setCount_header, if_neg (by rw [length_header]; omega), drop_header, header_append,
    List.flatMap_append]
  simp only [header, hcount]

/-! ## Iterating over a batch -/

/-- Where every key and value fits the `uint32_t` length the batch writes it with, and a guard's
level is below `kNumLevels`, as `PutGuard`'s callers pass. -/
def Fits : Record → Prop
  | .value key value => key.length < 2 ^ 32 ∧ value.length < 2 ^ 32
  | .deletion key => key.length < 2 ^ 32
  | .guard key level => key.length < 2 ^ 32 ∧ level < kNumLevels

instance : DecidablePred Fits := fun r ↦
  match r with
  | .value _ _ => inferInstanceAs (Decidable (_ ∧ _))
  | .deletion _ => inferInstanceAs (Decidable (_ < _))
  | .guard _ _ => inferInstanceAs (Decidable (_ ∧ _))

/-- The bytes of a record that fits parse back to it. -/
theorem parseRecord_encodeRecord {r : Record} (hr : Fits r) (rest : List UInt8) :
    ∃ tag body, encodeRecord r ++ rest = tag :: body ∧ parseRecord tag body = .ok (r, rest) := by
  cases r with
  | value key value =>
    obtain ⟨hkey, hvalue⟩ := hr
    refine ⟨kTypeValue, putLengthPrefixedSlice [] key ++ (putLengthPrefixedSlice [] value ++ rest),
      by simp [encodeRecord], ?_⟩
    simp only [parseRecord, getLengthPrefixedSlice_putLengthPrefixedSlice hkey,
      getLengthPrefixedSlice_putLengthPrefixedSlice hvalue, ↓reduceIte]
  | deletion key =>
    refine ⟨kTypeDeletion, putLengthPrefixedSlice [] key ++ rest, by simp [encodeRecord], ?_⟩
    rw [parseRecord, if_neg (by decide), if_pos rfl,
      getLengthPrefixedSlice_putLengthPrefixedSlice (show key.length < 2 ^ 32 from hr)]
  | guard key level =>
    obtain ⟨hkey, hlevel⟩ := hr
    have hlevel' : level.toUInt32.toNat = level := by
      simp only [Nat.toUInt32, UInt32.toNat_ofNat']
      exact Nat.mod_eq_of_lt (by unfold kNumLevels at hlevel; omega)
    refine ⟨kTypeGuard, putLengthPrefixedSlice [] key ++ (encodeVarint32 level.toUInt32 ++ rest),
      by simp [encodeRecord, putVarint32], ?_⟩
    rw [parseRecord, if_neg (by decide), if_neg (by decide), if_pos rfl,
      getLengthPrefixedSlice_putLengthPrefixedSlice hkey]
    simp only [getVarint32_encodeVarint32, hlevel']

/-- The loop on a record that parses: the record, then the loop on the rest. -/
theorem iterateLoop_of_parseRecord {countField found : ℕ} {tag : UInt8} {input rest : List UInt8}
    {r : Record} (h : parseRecord tag input = .ok (r, rest)) :
    iterateLoop countField found (tag :: input) =
      (r :: (iterateLoop countField (found + 1) rest).1,
        (iterateLoop countField (found + 1) rest).2) := by
  rw [iterateLoop]
  split
  · rename_i r' rest' h'
    rw [h] at h'
    obtain ⟨rfl, rfl⟩ := Prod.mk.inj (Except.ok.inj h'.symm)
    rfl
  · rename_i msg h'
    rw [h] at h'
    cases h'

/-- The loop on a record that does not parse: the `Corruption` the `switch` returns. -/
theorem iterateLoop_of_parseRecord_error {countField found : ℕ} {tag : UInt8}
    {input : List UInt8} {msg : String} (h : parseRecord tag input = .error msg) :
    iterateLoop countField found (tag :: input) = ([], .error msg) := by
  rw [iterateLoop]
  split
  · rename_i r' rest' h'
    rw [h] at h'
    cases h'
  · rename_i msg' h'
    rw [h] at h'
    cases h'
    rfl

/-- The loop on the bytes of records that fit: those records, and the count compared. -/
theorem iterateLoop_flatMap (countField : ℕ) :
    ∀ (ops : List Record) (found : ℕ), (∀ r ∈ ops, Fits r) →
      iterateLoop countField found (ops.flatMap encodeRecord) =
        (ops, if found + ops.length ≠ countField then .error "WriteBatch has wrong count"
          else .ok ())
  | [], found, _ => by simp [iterateLoop]
  | r :: ops, found, hfits => by
    obtain ⟨tag, body, hbytes, hparse⟩ :=
      parseRecord_encodeRecord (hfits r List.mem_cons_self) (ops.flatMap encodeRecord)
    rw [List.flatMap_cons, hbytes, iterateLoop_of_parseRecord hparse,
      iterateLoop_flatMap countField ops (found + 1) fun r hr ↦ hfits r (List.mem_cons_of_mem _ hr)]
    simp only [List.length_cons, Nat.add_assoc, Nat.add_comm 1]

/-- **`Iterate` hands the handler the records put into a batch**, when they fit and their count
fits the `uint32_t` of the header. -/
theorem iterate_ofRecords {ops : List Record} (hfits : ∀ r ∈ ops, Fits r)
    (hlen : ops.length < 2 ^ 32) : iterate (ofRecords ops) = (ops, .ok ()) := by
  rw [iterate, ofRecords_eq, if_neg (by rw [length_header]; omega), drop_header, count_header,
    iterateLoop_flatMap _ ops 0 hfits, Nat.mod_eq_of_lt hlen]
  simp

/-- **`Iterate` returns OK only on whole records**: the loop ends OK only where its input is a
run of records, each read whole by the `switch`, and their number is the count. -/
theorem iterateLoop_eq_ok {countField : ℕ} :
    ∀ {found : ℕ} {input : List UInt8} {rs : List Record},
      iterateLoop countField found input = (rs, .ok ()) →
      found + rs.length = countField ∧ ∃ chunks : List (List UInt8), input = chunks.flatten ∧
        List.Forall₂ (fun c r ↦ ∃ tag body, c = tag :: body ∧ parseRecord tag body = .ok (r, []))
          chunks rs := by
  intro found input rs h
  induction found, input using iterateLoop.induct countField generalizing rs with
  | case1 found =>
    rw [iterateLoop] at h
    by_cases hne : found = countField
    · rw [if_neg (by simpa using hne)] at h
      obtain ⟨rfl, -⟩ := Prod.mk.inj h
      exact ⟨by simpa using hne, [], rfl, List.Forall₂.nil⟩
    · rw [if_pos hne] at h
      cases (Prod.mk.inj h).2
  | case2 found tag input r rest hparse _ ih =>
    rw [iterateLoop_of_parseRecord hparse] at h
    obtain ⟨rfl, hnext⟩ := Prod.mk.inj h
    obtain ⟨hcount, chunks, hrest, hall⟩ := ih (Prod.ext rfl hnext)
    obtain ⟨chunk, rfl, hchunk⟩ := parseRecord_append hparse
    have hlen : found + (r :: (iterateLoop countField (found + 1) rest).1).length = countField := by
      have hc : found + 1 + (iterateLoop countField (found + 1) rest).1.length = countField :=
        hcount
      rw [List.length_cons]
      omega
    refine ⟨hlen, (tag :: chunk) :: chunks, by simp [hrest],
      List.Forall₂.cons ⟨tag, chunk, rfl, by simpa using hchunk []⟩ hall⟩
  | case3 found tag input msg hparse =>
    rw [iterateLoop] at h
    split at h
    · rename_i r' rest' h'
      rw [hparse] at h'
      cases h'
    · cases h

/-- `Iterate` returns OK only on a batch at least a header long, whose records are whole and as
many as its count. -/
theorem iterate_eq_ok {rep : List UInt8} {rs : List Record} (h : iterate rep = (rs, .ok ())) :
    kHeader ≤ rep.length ∧ rs.length = count rep ∧ ∃ chunks : List (List UInt8),
      rep.drop kHeader = chunks.flatten ∧
      List.Forall₂ (fun c r ↦ ∃ tag body, c = tag :: body ∧ parseRecord tag body = .ok (r, []))
        chunks rs := by
  unfold iterate at h
  split_ifs at h with hshort
  · cases (Prod.mk.inj h).2
  · obtain ⟨hcount, chunks, hbytes, hall⟩ := iterateLoop_eq_ok h
    exact ⟨Nat.le_of_not_lt hshort, by simpa using hcount, chunks, hbytes, hall⟩

/-- **A write batch round-trips.** `Iterate` on a batch built by `Put`, `Delete` and `PutGuard`
hands the handler exactly those calls' records, in order, and the count is their number; after
`Append` it hands those of one batch, then the other's. The `MemTableInserter` numbers the `i`-th
record it is handed `Sequence(batch) + i`, whatever its kind. And `Iterate` returns OK only on
contents that are whole records, as many as the count says. -/
theorem writeBatch_roundTrip :
    (∀ ops : List Record, (∀ r ∈ ops, Fits r) → ops.length < 2 ^ 31 →
      iterate (ofRecords ops) = (ops, .ok ()) ∧ count (ofRecords ops) = ops.length) ∧
    (∀ a b : List Record, (∀ r ∈ a ++ b, Fits r) → a.length + b.length < 2 ^ 31 →
      ∃ rep, append (ofRecords a) (ofRecords b) = some rep ∧ iterate rep = (a ++ b, .ok ())) ∧
    (∀ rep : List UInt8, (insertIntoVersion rep).1 =
      (((iterate rep).1.zipIdx (sequence rep)).filterMap fun p ↦ p.1.entryAt p.2,
        ((iterate rep).1.zipIdx (sequence rep)).filterMap fun p ↦ p.1.guardAt p.2)) ∧
    (∀ (contents rep : List UInt8) (rs : List Record), setContents contents = some rep →
      iterate rep = (rs, .ok ()) →
      rs.length = count rep ∧ ∃ chunks : List (List UInt8), rep.drop kHeader = chunks.flatten ∧
        List.Forall₂ (fun c r ↦ ∃ tag body, c = tag :: body ∧ parseRecord tag body = .ok (r, []))
          chunks rs) := by
  refine ⟨fun ops hfits hlen ↦ ⟨iterate_ofRecords hfits (by omega), ?_⟩,
    fun a b hfits hlen ↦ ⟨_, append_ofRecords a b, iterate_ofRecords hfits (by simp; omega)⟩,
    fun rep ↦ insertRecords_eq_zipIdx _ _,
    fun contents rep rs _ h ↦ (iterate_eq_ok h).2⟩
  rw [ofRecords_eq, count_header, Nat.mod_eq_of_lt (by omega)]

/-- A put and a guard, round-tripped. -/
theorem writeBatch_roundTrip_putGuard :
    (∀ r ∈ [Record.value [1] [2], .guard [3] 2], Fits r) ∧
      iterate (ofRecords [.value [1] [2], .guard [3] 2]) = ([.value [1] [2], .guard [3] 2], .ok ()) ∧
      count (ofRecords [.value [1] [2], .guard [3] 2]) = 2 :=
  ⟨by decide, writeBatch_roundTrip.1 _ (by decide) (by decide)⟩

/-! ## A key of `2 ^ 32` bytes -/

/-- A put of a key of `2 ^ 32` bytes `0xff`: its length prefix wraps to `0`, so `Iterate` reads an
empty key, then the key's bytes as the value's length, a varint that does not end within five
bytes. -/
theorem bigKey_iterate :
    iterate (ofRecords [.value (List.replicate (2 ^ 32) 255) []]) =
      ([], .error "bad WriteBatch Put") := by
  set key := List.replicate (2 ^ 32) (255 : UInt8) with hkey
  -- the length prefix wraps to zero
  have hkeyBytes : putLengthPrefixedSlice [] key = 0 :: key := by
    have hlen : key.length.toUInt32 = 0 := by
      rw [hkey, List.length_replicate]
      rfl
    rw [putLengthPrefixedSlice, putVarint32, hlen]
    rfl
  -- five bytes with the high bit: the varint of the value's length does not end in time
  have hsplit : key = [255, 255, 255, 255, 255] ++ List.replicate (2 ^ 32 - 5) 255 := by
    rw [hkey, show [(255 : UInt8), 255, 255, 255, 255] = List.replicate 5 255 from rfl,
      ← List.replicate_add, show 5 + (2 ^ 32 - 5) = 2 ^ 32 by norm_num]
  have hkeySlice : getLengthPrefixedSlice (putLengthPrefixedSlice [] key ++
      putLengthPrefixedSlice [] []) = some ([], key ++ putLengthPrefixedSlice [] []) := by
    have hvar : getVarint32 (0 :: (key ++ putLengthPrefixedSlice [] [])) =
        some (0, key ++ putLengthPrefixedSlice [] []) := by
      rw [getVarint32, if_pos (by decide)]
      rfl
    rw [hkeyBytes, List.cons_append, getLengthPrefixedSlice, hvar]
    dsimp only
    rw [if_pos (by simp)]
    rfl
  have hvalueSlice : getLengthPrefixedSlice (key ++ putLengthPrefixedSlice [] []) = none := by
    rw [hsplit, List.append_assoc]
    rfl
  have hparse : parseRecord kTypeValue (putLengthPrefixedSlice [] key ++
      putLengthPrefixedSlice [] []) = .error "bad WriteBatch Put" := by
    simp only [parseRecord, hkeySlice, hvalueSlice, ↓reduceIte]
  rw [iterate, ofRecords_eq, if_neg (by rw [length_header]; omega), drop_header, List.flatMap_cons,
    List.flatMap_nil, List.append_nil, encodeRecord, iterateLoop_of_parseRecord_error hparse]
end PebblesDB.Db.WriteBatchRep
