import Mathlib
import PebblesDB.Db.MemTable
import PebblesDB.Table.Block
import PebblesDB.Lib.Cursor

/-!
# `DBIter`

`NewDBIterator(db, user_comparator, internal_iter, sequence, seed)` turns the internal iterator
of a database, over internal keys `user_key | (sequence << 8) | type` in the order of
`InternalKeyComparator` (user keys ascending, then tags descending), into the iterator a client
sees at the snapshot `sequence`: one entry per user key, the value of the newest version of the
key numbered at most `sequence`, and no entry where that version is a deletion.

Forwards, the internal iterator stands at the entry that yields `key()` and `value()`;
`FindNextUserEntry` walks on to the next entry that a deletion or a newer version does not hide,
keeping the key to skip in `saved_key_`. In reverse, the internal iterator stands just before all
the entries of `key()`, and `key()` and `value()` are saved in `saved_key_` and `saved_value_`:
`FindPrevUserEntry` walks back through the versions of a key, oldest first, remembering the last
one seen, and stops at the first visible entry of a smaller key once that version is a value. An
entry whose tag has a type byte above `kTypeValue` does not parse: it sets `status_` to a
corruption and is skipped.

The user comparator is a linear order on the user keys `κ`; the internal iterator is a cursor
over its entries (`PebblesDB.Table.MergerWalk` shows that the merging iterator `DBImpl` builds
moves as one). A cleared `saved_key_` or `saved_value_`, the empty string, is `default`.
`Next()` and `Prev()` assert `Valid()`, and the model returns `none` there. The read sampling of
`ParseKey` (`bytes_counter_`, `RecordReadSample`) and the capacity games of `ClearSavedValue`
change no entry the iterator yields and are left out.
-/

namespace PebblesDB.Db

open MemTable FileFilter

variable {κ ν : Type*}

/-! ## Internal keys -/

/-- An entry of the internal iterator: its key, the user key followed by the eight-byte tag
`(sequence << 8) | type`, and its value. -/
structure InternalEntry (κ ν : Type*) where
  /-- The user key, `ExtractUserKey(key())`. -/
  userKey : κ
  /-- The tag. -/
  tag : UInt64
  /-- `value()`. -/
  value : ν
  deriving DecidableEq, Repr

/-- `ParsedInternalKey`. -/
structure ParsedInternalKey (κ : Type*) where
  /-- `user_key`. -/
  userKey : κ
  /-- `sequence`. -/
  sequence : UInt64
  /-- `type`, the byte as the code reads it. -/
  type : UInt8
  deriving DecidableEq, Repr

/-- `ParseInternalKey` on the key of an entry: the user key, `tag >> 8` and the low byte of the
tag, and whether that byte is at most `kTypeValue`. -/
def parseInternalKey (e : InternalEntry κ ν) : ParsedInternalKey κ × Bool :=
  (⟨e.userKey, e.tag >>> 8, e.tag.toUInt8⟩, decide (e.tag.toUInt8 ≤ kTypeValue))

@[simp] theorem userKey_parseInternalKey (e : InternalEntry κ ν) :
    (parseInternalKey e).1.userKey = e.userKey := rfl

/-- `InternalKeyComparator::Compare(key(), target) < 0` for the internal key `target` with the
user key `userKey` and the tag `tag`. -/
def InternalEntry.below [LinearOrder κ] (userKey : κ) (tag : UInt64) (e : InternalEntry κ ν) :
    Bool :=
  decide (e.userKey < userKey) || (decide (e.userKey = userKey) && decide (tag < e.tag))

/-- The order of the internal iterator: every entry is below every later one. -/
def InternalSorted [LinearOrder κ] (es : List (InternalEntry κ ν)) : Prop :=
  es.Pairwise fun a b ↦ a.below b.userKey b.tag = true

instance InternalSorted.decidable [LinearOrder κ] (es : List (InternalEntry κ ν)) :
    Decidable (InternalSorted es) :=
  inferInstanceAs (Decidable (es.Pairwise fun a b ↦ a.below b.userKey b.tag = true))

section Order

variable [LinearOrder κ]

/-- An entry below one that is below the target is below it: the internal order is transitive. -/
theorem InternalEntry.below_trans {a b : InternalEntry κ ν} {userKey : κ} {tag : UInt64}
    (hab : a.below b.userKey b.tag = true) (hb : b.below userKey tag = true) :
    a.below userKey tag = true := by
  simp only [InternalEntry.below, Bool.or_eq_true, Bool.and_eq_true, decide_eq_true_eq] at *
  rcases hab with hab | ⟨hab, htab⟩ <;> rcases hb with hb | ⟨hb, htb⟩
  · exact .inl (hab.trans hb)
  · exact .inl (hb ▸ hab)
  · exact .inl (hab ▸ hb)
  · exact .inr ⟨hab.trans hb, UInt64.lt_trans htb htab⟩

/-- Along the internal entries the user keys never decrease. -/
theorem InternalSorted.keys {es : List (InternalEntry κ ν)} (h : InternalSorted es) :
    es.Pairwise fun a b ↦ a.userKey ≤ b.userKey :=
  h.imp fun {a b} hab ↦ by
    simp only [InternalEntry.below, Bool.or_eq_true, Bool.and_eq_true, decide_eq_true_eq] at hab
    rcases hab with hab | ⟨hab, -⟩
    · exact hab.le
    · exact hab.le

end Order


/-! ## The iterator -/

/-- `DBIter::Direction`. -/
inductive DBIter.Direction
  /-- `kForward`. -/
  | forward
  /-- `kReverse`. -/
  | reverse
  deriving DecidableEq, Repr

/-- A `DBIter`. -/
structure DBIter (κ ν : Type*) where
  /-- `iter_`, the internal iterator. -/
  iter : Cursor (InternalEntry κ ν)
  /-- `sequence_`, the snapshot. -/
  sequence : UInt64
  /-- `status_`. -/
  status : Table.Status
  /-- `saved_key_`: `key()` in reverse, and the key to skip while `FindNextUserEntry` runs. -/
  savedKey : κ
  /-- `saved_value_`: `value()` in reverse. -/
  savedValue : ν
  /-- `direction_`. -/
  direction : DBIter.Direction
  /-- `valid_`. -/
  valid : Bool

namespace DBIter

variable [LinearOrder κ] [Inhabited κ] [Inhabited ν]

/-- `NewDBIterator` over the internal iterator `iter` at the snapshot `sequence`. -/
def new (iter : Cursor (InternalEntry κ ν)) (sequence : UInt64) : DBIter κ ν :=
  ⟨iter, sequence, .ok, default, default, .forward, false⟩

/-- `key()` and `value()`: forwards those of the internal iterator, in reverse the saved ones;
nothing where the iterator is not valid. -/
def entry (it : DBIter κ ν) : Option (κ × ν) :=
  if it.valid then
    match it.direction with
    | .forward => it.iter.current.map fun e ↦ (e.userKey, e.value)
    | .reverse => some (it.savedKey, it.savedValue)
  else none

/-- `ParseKey(&ikey)` on the entry `e` at the internal iterator: whether its key parses, with
`status_` set to a corruption where it does not. -/
def parseKey (it : DBIter κ ν) (e : InternalEntry κ ν) : DBIter κ ν × Bool :=
  if (parseInternalKey e).2 then (it, true)
  else ({ it with status := .corruption "corrupted internal key in DBIter" }, false)

/-- The body of the loop of `FindNextUserEntry(skipping, &saved_key_)` on the entry `e` at the
internal iterator: the iterator it returns (`.inl`), or `skipping` and the iterator the loop goes
on with (`.inr`). -/
def findNextCase (skipping : Bool) (it : DBIter κ ν) (e : InternalEntry κ ν) :
    DBIter κ ν ⊕ (Bool × DBIter κ ν) :=
  let (it, ok) := it.parseKey e
  let ikey := (parseInternalKey e).1
  if ok && decide (ikey.sequence ≤ it.sequence) then
    if ikey.type = kTypeDeletion then
      -- the older entries of the key are hidden by the deletion
      .inr (true, { it with savedKey := ikey.userKey })
    else if ikey.type = kTypeValue then
      if skipping && decide (ikey.userKey ≤ it.savedKey) then .inr (skipping, it)
      else .inl { it with valid := true, savedKey := default }
    else .inr (skipping, it)
  else .inr (skipping, it)

/-- `FindNextUserEntry(skipping, &saved_key_)`: the `do { ... iter_->Next(); } while
(iter_->Valid())` loop, for at most `fuel` rounds. -/
def findNextUserEntry : ℕ → Bool → DBIter κ ν → Option (DBIter κ ν)
  | 0, _, _ => none
  | fuel + 1, skipping, it =>
    match it.iter.current with
    | none => none
    | some e =>
      match findNextCase skipping it e with
      | .inl it => some it
      | .inr (skipping, it) =>
        let it := { it with iter := it.iter.next }
        if it.iter.valid then findNextUserEntry fuel skipping it
        else some { it with savedKey := default, valid := false }

/-- The body of the loop of `FindPrevUserEntry()` on the entry `e` at the internal iterator, with
`value_type` so far: the `break` (`.inl`), or `value_type` and the iterator the loop goes on with
(`.inr`). -/
def findPrevCase (valueType : UInt8) (it : DBIter κ ν) (e : InternalEntry κ ν) :
    (UInt8 × DBIter κ ν) ⊕ (UInt8 × DBIter κ ν) :=
  let (it, ok) := it.parseKey e
  let ikey := (parseInternalKey e).1
  if ok && decide (ikey.sequence ≤ it.sequence) then
    if valueType ≠ kTypeDeletion ∧ ikey.userKey < it.savedKey then
      -- a value of a later key was seen: it is the entry to yield
      .inl (valueType, it)
    else if ikey.type = kTypeDeletion then
      .inr (ikey.type, { it with savedKey := default, savedValue := default })
    else .inr (ikey.type, { it with savedKey := e.userKey, savedValue := e.value })
  else .inr (valueType, it)

/-- The loop of `FindPrevUserEntry()`, `do { ... iter_->Prev(); } while (iter_->Valid())`, for at
most `fuel` rounds: `value_type` and the iterator where it stops. -/
def findPrevLoop : ℕ → UInt8 → DBIter κ ν → Option (UInt8 × DBIter κ ν)
  | 0, _, _ => none
  | fuel + 1, valueType, it =>
    match it.iter.current with
    | none => none
    | some e =>
      match findPrevCase valueType it e with
      | .inl r => some r
      | .inr (valueType, it) =>
        let it := { it with iter := it.iter.prev }
        if it.iter.valid then findPrevLoop fuel valueType it else some (valueType, it)

/-- `FindPrevUserEntry()`. -/
def findPrevUserEntry (it : DBIter κ ν) : Option (DBIter κ ν) := do
  let (valueType, it) ←
    if it.iter.valid then findPrevLoop it.iter.entries.length kTypeDeletion it
    else some (kTypeDeletion, it)
  if valueType = kTypeDeletion then
    some { it with
      valid := false, savedKey := default, savedValue := default, direction := .forward }
  else some { it with valid := true }

/-- `Next()`. -/
def next (it : DBIter κ ν) : Option (DBIter κ ν) :=
  if it.valid then
    match it.direction with
    | .reverse =>
      -- the internal iterator is just before the entries of `key()`: step into them
      let it := { it with
        direction := .forward
        iter := if it.iter.valid then it.iter.next else it.iter.seekToFirst }
      if it.iter.valid then findNextUserEntry it.iter.entries.length true it
      else some { it with valid := false, savedKey := default }
    | .forward =>
      match it.iter.current with
      | none => none
      | some e => findNextUserEntry it.iter.entries.length true { it with savedKey := e.userKey }
  else none

/-- The loop of `Prev()` that moves the internal iterator back past the entries of `key()`, for
at most `fuel` rounds: the iterator, and whether `Prev()` returned there, the internal iterator
having run off the front. -/
def prevLoop : ℕ → DBIter κ ν → Option (DBIter κ ν × Bool)
  | 0, _ => none
  | fuel + 1, it =>
    let it := { it with iter := it.iter.prev }
    match it.iter.current with
    | none => some ({ it with valid := false, savedKey := default, savedValue := default }, true)
    | some e => if e.userKey < it.savedKey then some (it, false) else prevLoop fuel it

/-- `Prev()`. -/
def prev (it : DBIter κ ν) : Option (DBIter κ ν) :=
  if it.valid then
    match it.direction with
    | .forward =>
      match it.iter.current with
      | none => none
      | some e =>
        match prevLoop it.iter.entries.length { it with savedKey := e.userKey } with
        | none => none
        | some (it, true) => some it
        | some (it, false) => findPrevUserEntry { it with direction := .reverse }
    | .reverse => findPrevUserEntry it
  else none

/-- `Seek(target)`. The code builds the internal key of `target` at the snapshot in `saved_key_`
for `iter_->Seek` to read; the model hands it to the seek, and `saved_key_` is cleared as
`FindNextUserEntry` clears it on every path. -/
def seek (target : κ) (it : DBIter κ ν) : Option (DBIter κ ν) :=
  let tag := packSequenceAndType it.sequence kValueTypeForSeek
  let it := { it with
    direction := .forward, savedValue := default, savedKey := default
    iter := it.iter.seek (InternalEntry.below target tag) }
  if it.iter.valid then findNextUserEntry it.iter.entries.length false it
  else some { it with valid := false }

/-- `SeekToFirst()`. -/
def seekToFirst (it : DBIter κ ν) : Option (DBIter κ ν) :=
  let it := { it with direction := .forward, savedValue := default, iter := it.iter.seekToFirst }
  if it.iter.valid then findNextUserEntry it.iter.entries.length false it
  else some { it with valid := false }

/-- `SeekToLast()`. -/
def seekToLast (it : DBIter κ ν) : Option (DBIter κ ν) :=
  findPrevUserEntry
    { it with direction := .reverse, savedValue := default, iter := it.iter.seekToLast }

/-- One call on the iterator. -/
def step : Cursor.Op κ → DBIter κ ν → Option (DBIter κ ν)
  | .seekToFirst, it => it.seekToFirst
  | .seekToLast, it => it.seekToLast
  | .seek target, it => it.seek target
  | .next, it => it.next
  | .prev, it => it.prev

end DBIter

/-! ## What a snapshot shows

The iterator should show, for every user key, the newest version at most `sequence_` whose key
parses, where that version is a value. Along the internal entries, in their order, that is the
first visible entry of each user key: `visibleFrom s last es` collects those that are values,
`last` being the key of the last visible entry before `es`, whose later entries are older
versions. -/

namespace InternalEntry

/-- The test of both loops: the key parses, and its sequence number is at most `s`. -/
def visibleAt (s : UInt64) (e : InternalEntry κ ν) : Bool :=
  (parseInternalKey e).2 && decide ((parseInternalKey e).1.sequence ≤ s)

/-- The entry is a value, of type `kTypeValue`. -/
def isValue (e : InternalEntry κ ν) : Bool :=
  decide ((parseInternalKey e).1.type = kTypeValue)

/-- A visible entry is a deletion or a value: no other type parses. -/
theorem type_of_visibleAt {s : UInt64} {e : InternalEntry κ ν} (h : e.visibleAt s = true) :
    (parseInternalKey e).1.type = kTypeDeletion ∨ e.isValue = true := by
  have hle : e.tag.toUInt8.toNat ≤ 1 := by
    have h := (Bool.and_eq_true_iff.1 h).1
    simp only [parseInternalKey, decide_eq_true_eq, UInt8.le_iff_toNat_le] at h
    exact h
  rcases Nat.le_one_iff_eq_zero_or_eq_one.1 hle with h0 | h1
  · exact .inl (UInt8.toNat_inj.1 h0)
  · exact .inr (decide_eq_true (UInt8.toNat_inj.1 h1))

/-- A visible entry comes no later than the internal key a read at its snapshot seeks to,
`(s << 8) | kValueTypeForSeek`. -/
theorem tag_le_of_visibleAt {s : UInt64}
    (hs : s.toNat ≤ CompactionWork.kMaxSequenceNumber) {e : InternalEntry κ ν}
    (h : e.visibleAt s = true) : e.tag ≤ packSequenceAndType s kValueTypeForSeek := by
  have h' := Bool.and_eq_true_iff.1 h
  have htype : e.tag.toUInt8 ≤ kTypeValue := of_decide_eq_true h'.1
  have hseq : e.tag >>> 8 ≤ s := of_decide_eq_true h'.2
  rw [UInt8.le_iff_toNat_le, UInt64.toNat_toUInt8] at htype
  rw [UInt64.le_iff_toNat_le, UInt64.toNat_shiftRight] at hseq
  rw [UInt64.le_iff_toNat_le, toNat_packSequenceAndType (by
    unfold CompactionWork.kMaxSequenceNumber at hs; omega)]
  simp only [kValueTypeForSeek, kTypeValue, UInt8.reduceToNat, UInt64.reduceToNat,
    Nat.reduceMod, Nat.shiftRight_eq_div_pow] at htype hseq ⊢
  omega

theorem isValue_of_deletion {e : InternalEntry κ ν}
    (h : (parseInternalKey e).1.type = kTypeDeletion) : e.isValue = false := by
  simp [isValue, h, kTypeDeletion, kTypeValue]

end InternalEntry

section Visible

variable (s : UInt64)

/-- Nothing of `es` is visible. -/
def Quiet (es : List (InternalEntry κ ν)) : Prop :=
  ∀ e ∈ es, e.visibleAt s = false

/-- The key of the last visible entry of `es`, or `last` where there is none. -/
def lastSeen (last : Option κ) (es : List (InternalEntry κ ν)) : Option κ :=
  es.foldl (fun last e ↦ if e.visibleAt s then some e.userKey else last) last

variable {s}

@[simp] theorem lastSeen_nil (last : Option κ) :
    lastSeen s last ([] : List (InternalEntry κ ν)) = last := rfl

theorem lastSeen_cons (last : Option κ) (e : InternalEntry κ ν) (es) :
    lastSeen s last (e :: es) =
      lastSeen s (if e.visibleAt s then some e.userKey else last) es := rfl

theorem lastSeen_append (last : Option κ) (l₁ l₂ : List (InternalEntry κ ν)) :
    lastSeen s last (l₁ ++ l₂) = lastSeen s (lastSeen s last l₁) l₂ :=
  List.foldl_append

theorem lastSeen_of_quiet {es : List (InternalEntry κ ν)} (h : Quiet s es) (last : Option κ) :
    lastSeen s last es = last := by
  induction es generalizing last with
  | nil => rfl
  | cons e es ih =>
    rw [lastSeen_cons, if_neg (Bool.eq_false_iff.1 (h e List.mem_cons_self))]
    exact ih (fun x hx ↦ h x (List.mem_cons_of_mem e hx)) last

/-- The last visible key after `es` is `last` where nothing in `es` is visible, and otherwise
the key of a visible entry of `es`. -/
theorem lastSeen_eq {last : Option κ} {es : List (InternalEntry κ ν)} :
    lastSeen s last es = last ∧ Quiet s es ∨
      ∃ e ∈ es, e.visibleAt s = true ∧ lastSeen s last es = some e.userKey := by
  induction es generalizing last with
  | nil => exact .inl ⟨rfl, fun _ h ↦ absurd h List.not_mem_nil⟩
  | cons e es ih =>
    rw [lastSeen_cons]
    by_cases hv : e.visibleAt s = true
    · rw [if_pos hv]
      rcases @ih (some e.userKey) with ⟨h, -⟩ | ⟨x, hx, hxv, h⟩
      · exact .inr ⟨e, List.mem_cons_self, hv, h⟩
      · exact .inr ⟨x, List.mem_cons_of_mem e hx, hxv, h⟩
    · rw [if_neg hv]
      rcases @ih last with ⟨h, hq⟩ | ⟨x, hx, hxv, h⟩
      · refine .inl ⟨h, fun y hy ↦ ?_⟩
        rcases List.mem_cons.1 hy with rfl | hy
        · exact Bool.eq_false_iff.2 hv
        · exact hq y hy
      · exact .inr ⟨x, List.mem_cons_of_mem e hx, hxv, h⟩

/-- Past a visible entry after entries not visible, the last visible key is that entry's. -/
theorem lastSeen_quiet_cons {pre : List (InternalEntry κ ν)} {e : InternalEntry κ ν}
    (hq : Quiet s pre) (he : e.visibleAt s = true) (last : Option κ) (l : List (InternalEntry κ ν)) :
    lastSeen s last (pre ++ e :: l) = lastSeen s (some e.userKey) l := by
  rw [lastSeen_append, lastSeen_of_quiet hq, lastSeen_cons, if_pos he]

variable (s) [DecidableEq κ]

/-- The user entries that `es` shows at the snapshot `s` after a visible entry of the key `last`:
the first visible entry of each key other than `last`, where it is a value. -/
def visibleFrom : Option κ → List (InternalEntry κ ν) → List (κ × ν)
  | _, [] => []
  | last, e :: es =>
    if e.visibleAt s then
      if e.isValue ∧ last ≠ some e.userKey then
        (e.userKey, e.value) :: visibleFrom (some e.userKey) es
      else visibleFrom (some e.userKey) es
    else visibleFrom last es

/-- The user entries of the snapshot `s`: what the iterator should walk. -/
def visibleEntries (es : List (InternalEntry κ ν)) : List (κ × ν) :=
  visibleFrom s none es

variable {s}

@[simp] theorem visibleFrom_nil (last : Option κ) :
    visibleFrom s last ([] : List (InternalEntry κ ν)) = [] := rfl

theorem visibleFrom_cons (last : Option κ) (e : InternalEntry κ ν) (es) :
    visibleFrom s last (e :: es) =
      if e.visibleAt s then
        if e.isValue ∧ last ≠ some e.userKey then
          (e.userKey, e.value) :: visibleFrom s (some e.userKey) es
        else visibleFrom s (some e.userKey) es
      else visibleFrom s last es := rfl

/-- An entry that is not visible shows nothing. -/
theorem visibleFrom_cons_of_not_visible {e : InternalEntry κ ν} (h : e.visibleAt s = false)
    (last : Option κ) (es) : visibleFrom s last (e :: es) = visibleFrom s last es := by
  rw [visibleFrom_cons, if_neg (Bool.eq_false_iff.1 h)]

/-- The first visible entry of a key, a value, is shown. -/
theorem visibleFrom_cons_of_shown {e : InternalEntry κ ν} {last : Option κ}
    (hv : e.visibleAt s = true) (hval : e.isValue = true) (hlast : last ≠ some e.userKey) (es) :
    visibleFrom s last (e :: es) = (e.userKey, e.value) :: visibleFrom s (some e.userKey) es := by
  rw [visibleFrom_cons, if_pos hv, if_pos ⟨hval, hlast⟩]

/-- A visible entry that is a deletion, or an older version, is not shown. -/
theorem visibleFrom_cons_of_hidden {e : InternalEntry κ ν} {last : Option κ}
    (hv : e.visibleAt s = true) (hhid : e.isValue = true → last = some e.userKey) (es) :
    visibleFrom s last (e :: es) = visibleFrom s (some e.userKey) es := by
  rw [visibleFrom_cons, if_pos hv, if_neg fun h ↦ h.2 (hhid h.1)]

theorem visibleFrom_append (last : Option κ) (l₁ l₂ : List (InternalEntry κ ν)) :
    visibleFrom s last (l₁ ++ l₂) =
      visibleFrom s last l₁ ++ visibleFrom s (lastSeen s last l₁) l₂ := by
  induction l₁ generalizing last with
  | nil => rfl
  | cons e l₁ ih =>
    rw [List.cons_append, visibleFrom_cons, visibleFrom_cons, lastSeen_cons]
    by_cases hv : e.visibleAt s = true
    · simp only [if_pos hv]
      split_ifs <;> simp [ih]
    · simp only [if_neg hv]
      exact ih last

theorem visibleFrom_of_quiet {es : List (InternalEntry κ ν)} (h : Quiet s es) (last : Option κ) :
    visibleFrom s last es = [] := by
  induction es with
  | nil => rfl
  | cons e es ih =>
    rw [visibleFrom_cons_of_not_visible (h e List.mem_cons_self)]
    exact ih fun x hx ↦ h x (List.mem_cons_of_mem e hx)

/-- What is shown comes from visible entries. -/
theorem exists_of_mem_visibleFrom {last : Option κ} {es : List (InternalEntry κ ν)}
    {p : κ × ν} (h : p ∈ visibleFrom s last es) :
    ∃ e ∈ es, e.visibleAt s = true ∧ p = (e.userKey, e.value) := by
  induction es generalizing last with
  | nil => cases h
  | cons e es ih =>
    rw [visibleFrom_cons] at h
    by_cases hv : e.visibleAt s = true
    · rw [if_pos hv] at h
      split_ifs at h
      · rcases List.mem_cons.1 h with rfl | h
        · exact ⟨e, List.mem_cons_self, hv, rfl⟩
        · obtain ⟨x, hx, hxv, rfl⟩ := ih h
          exact ⟨x, List.mem_cons_of_mem e hx, hxv, rfl⟩
      · obtain ⟨x, hx, hxv, rfl⟩ := ih h
        exact ⟨x, List.mem_cons_of_mem e hx, hxv, rfl⟩
    · rw [if_neg hv] at h
      obtain ⟨x, hx, hxv, rfl⟩ := ih h
      exact ⟨x, List.mem_cons_of_mem e hx, hxv, rfl⟩

/-- `e` is shown right after `pre`, read after a visible entry of the key `last`: it is visible,
a value, and not an older version of the last visible key. -/
structure Shown (s : UInt64) (last : Option κ) (pre : List (InternalEntry κ ν))
    (e : InternalEntry κ ν) : Prop where
  visible : e.visibleAt s = true
  value : e.isValue = true
  first : lastSeen s last pre ≠ some e.userKey

theorem Shown.visibleFrom_split {last : Option κ} {pre : List (InternalEntry κ ν)}
    {e : InternalEntry κ ν} (h : Shown s last pre e) (post : List (InternalEntry κ ν)) :
    visibleFrom s last (pre ++ e :: post) =
      visibleFrom s last pre ++ (e.userKey, e.value) :: visibleFrom s (some e.userKey) post := by
  rw [visibleFrom_append, visibleFrom_cons_of_shown h.visible h.value h.first]

theorem visibleFrom_append_quiet {pre : List (InternalEntry κ ν)} (hq : Quiet s pre)
    (last : Option κ) (A : List (InternalEntry κ ν)) :
    visibleFrom s last (A ++ pre) = visibleFrom s last A := by
  rw [visibleFrom_append, visibleFrom_of_quiet hq, List.append_nil]

/-- A visible entry after entries not visible shows nothing more after a visible entry of its
own key. -/
theorem visibleFrom_quiet_cons_self {pre : List (InternalEntry κ ν)} {e : InternalEntry κ ν}
    (hq : Quiet s pre) (he : e.visibleAt s = true) (l : List (InternalEntry κ ν)) :
    visibleFrom s (some e.userKey) (pre ++ e :: l) = visibleFrom s (some e.userKey) l := by
  rw [visibleFrom_append, visibleFrom_of_quiet hq, lastSeen_of_quiet hq, List.nil_append,
    visibleFrom_cons_of_hidden he (fun _ ↦ rfl)]

omit [DecidableEq κ] in
theorem Shown.append_quiet {last : Option κ} {A pre : List (InternalEntry κ ν)}
    {e : InternalEntry κ ν} (h : Shown s last A e) (hq : Quiet s pre) :
    Shown s last (A ++ pre) e :=
  ⟨h.visible, h.value, by rw [lastSeen_append, lastSeen_of_quiet hq]; exact h.first⟩

/-- The entries of a snapshot, split at an entry it shows. -/
theorem visibleEntries_split {A pre : List (InternalEntry κ ν)} {e : InternalEntry κ ν}
    (hq : Quiet s pre) (h : Shown s none A e) (post : List (InternalEntry κ ν)) :
    visibleEntries s (A ++ pre ++ e :: post) =
      visibleFrom s none A ++ (e.userKey, e.value) :: visibleFrom s (some e.userKey) post := by
  rw [visibleEntries, (h.append_quiet hq).visibleFrom_split, visibleFrom_append_quiet hq]

end Visible

end PebblesDB.Db
