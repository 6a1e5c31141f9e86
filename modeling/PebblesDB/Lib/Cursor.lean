import Mathlib

/-!
# Cursors over a finite sequence

An iterator over a finite sequence, as `leveldb::Iterator` moves one: a position in the sequence,
valid within its bounds and read by `current` there, moved by `SeekToFirst`, `SeekToLast`,
`Seek`, `Next` and `Prev`. `Seek` lands on the first entry that is not below the target; on a
sequence in which the entries below the target come first, that is past exactly the entries
below it (`pos_seek`).
-/

/-- A position in a finite sequence. -/
structure Cursor (α : Type*) where
  /-- The entries, in the order of the iterator. -/
  entries : List α
  /-- The position; valid from `0` to the last entry. -/
  pos : ℤ
  deriving DecidableEq, Repr

namespace Cursor

variable {α : Type*} (c : Cursor α)

/-- `Valid()`. -/
def valid : Bool :=
  decide (0 ≤ c.pos) && decide (c.pos < c.entries.length)

/-- The entry at the position, for `key()` and `value()`; `none` off the sequence. -/
def current : Option α :=
  if 0 ≤ c.pos then c.entries[c.pos.toNat]? else none

/-- `SeekToFirst()`. -/
def seekToFirst : Cursor α := { c with pos := 0 }

/-- `SeekToLast()`. -/
def seekToLast : Cursor α := { c with pos := c.entries.length - 1 }

/-- `Seek(target)`, with `below` the entries before the target: the first entry not below it. -/
def seek (below : α → Bool) : Cursor α :=
  { c with pos := (c.entries.takeWhile below).length }

/-- `Next()`. -/
def next : Cursor α := { c with pos := c.pos + 1 }

/-- `Prev()`. -/
def prev : Cursor α := { c with pos := c.pos - 1 }

@[simp] theorem entries_seekToFirst : c.seekToFirst.entries = c.entries := rfl
@[simp] theorem entries_seekToLast : c.seekToLast.entries = c.entries := rfl
@[simp] theorem entries_seek (below : α → Bool) : (c.seek below).entries = c.entries := rfl
@[simp] theorem entries_next : c.next.entries = c.entries := rfl
@[simp] theorem entries_prev : c.prev.entries = c.entries := rfl
@[simp] theorem pos_seekToFirst : c.seekToFirst.pos = 0 := rfl
@[simp] theorem pos_seekToLast : c.seekToLast.pos = c.entries.length - 1 := rfl
@[simp] theorem pos_next : c.next.pos = c.pos + 1 := rfl
@[simp] theorem pos_prev : c.prev.pos = c.pos - 1 := rfl

theorem valid_iff : c.valid = true ↔ 0 ≤ c.pos ∧ c.pos < c.entries.length := by
  simp [valid]

theorem valid_eq_false_iff : c.valid = false ↔ c.pos < 0 ∨ c.entries.length ≤ c.pos := by
  rw [← Bool.not_eq_true, valid_iff]
  omega

/-- A valid cursor reads the entry at its position. -/
theorem current_of_lt {es : List α} {p : ℕ} (hp : p < es.length) :
    (⟨es, p⟩ : Cursor α).current = some es[p] := by
  simp [current, hp]

/-- Past a prefix the cursor reads the entry after it. -/
theorem current_append_cons (l₁ : List α) (a : α) (l₂ : List α) :
    (⟨l₁ ++ a :: l₂, l₁.length⟩ : Cursor α).current = some a := by
  rw [current_of_lt (by simp)]
  simp

theorem current_eq_none_iff : c.current = none ↔ c.valid = false := by
  rw [valid_eq_false_iff, current]
  split_ifs with h
  · rw [List.getElem?_eq_none_iff]
    omega
  · simp only [true_iff]
    omega

theorem valid_of_current {e : α} (h : c.current = some e) : c.valid = true := by
  rw [← Bool.not_eq_false, ← current_eq_none_iff, h]
  simp

theorem exists_current_of_valid (h : c.valid = true) : ∃ e, c.current = some e := by
  cases hc : c.current with
  | none => rw [(current_eq_none_iff c).1 hc] at h; cases h
  | some e => exact ⟨e, rfl⟩

theorem valid_eq_isSome_current : c.valid = c.current.isSome := by
  cases hc : c.current with
  | none => rw [(current_eq_none_iff c).1 hc]; rfl
  | some e => rw [valid_of_current c hc]; rfl

/-- On a sequence in which the entries below the target come first, `Seek` passes exactly the
entries below the target. -/
theorem length_takeWhile_eq_length_filter {below : α → Bool} {l : List α}
    (hl : l.Pairwise fun a b ↦ below b = true → below a = true) :
    (l.takeWhile below).length = (l.filter below).length := by
  induction l with
  | nil => rfl
  | cons a l ih =>
    obtain ⟨ha, hl⟩ := List.pairwise_cons.1 hl
    by_cases hb : below a = true
    · simp [hb, ih hl]
    · -- nothing after an entry not below the target is below it
      have hnone : l.filter below = [] :=
        List.filter_eq_nil_iff.2 fun b hb' hbb ↦ hb (ha b hb' hbb)
      simp [hb, hnone]

/-- On a sequence in which the entries below the target come first, nothing `Seek` lands on or
passes after is below the target. -/
theorem below_eq_false_of_mem_dropWhile {below : α → Bool} {l : List α}
    (hl : l.Pairwise fun a b ↦ below b = true → below a = true) {a : α}
    (ha : a ∈ l.dropWhile below) : below a = false := by
  induction l with
  | nil => cases ha
  | cons b l ih =>
    obtain ⟨hb, hl⟩ := List.pairwise_cons.1 hl
    by_cases hbb : below b = true
    · rw [List.dropWhile_cons_of_pos hbb] at ha
      exact ih hl ha
    · rw [List.dropWhile_cons_of_neg hbb] at ha
      refine Bool.eq_false_iff.2 fun hab ↦ hbb ?_
      rcases List.mem_cons.1 ha with rfl | ha
      · exact hab
      · exact hb a ha hab

theorem pos_seek {below : α → Bool}
    (hl : c.entries.Pairwise fun a b ↦ below b = true → below a = true) :
    (c.seek below).pos = (c.entries.filter below).length := by
  simp [seek, length_takeWhile_eq_length_filter hl]

/-- A call on an iterator. -/
inductive Op (κ : Type*) where
  /-- `SeekToFirst()`. -/
  | seekToFirst
  /-- `SeekToLast()`. -/
  | seekToLast
  /-- `Seek(target)`. -/
  | seek (target : κ)
  /-- `Next()`. -/
  | next
  /-- `Prev()`. -/
  | prev
  deriving DecidableEq, Repr

/-- A call on a cursor over entries `(key, value)` sorted by key; `Next()` and `Prev()` are for a
valid cursor only. -/
def step {κ ν : Type*} [LinearOrder κ] : Op κ → Cursor (κ × ν) → Option (Cursor (κ × ν))
  | .seekToFirst, c => some c.seekToFirst
  | .seekToLast, c => some c.seekToLast
  | .seek t, c => some (c.seek fun e ↦ decide (e.1 < t))
  | .next, c => if c.valid then some c.next else none
  | .prev, c => if c.valid then some c.prev else none

/-- `step` with the keys compared by `below` rather than an order on them: a call on a cursor
over entries that a comparator sorts. -/
def stepBy {κ ν : Type*} (below : κ → κ → Bool) :
    Op κ → Cursor (κ × ν) → Option (Cursor (κ × ν))
  | .seekToFirst, c => some c.seekToFirst
  | .seekToLast, c => some c.seekToLast
  | .seek t, c => some (c.seek fun e ↦ below e.1 t)
  | .next, c => if c.valid then some c.next else none
  | .prev, c => if c.valid then some c.prev else none

theorem valid_eq_false_of_entries_eq_nil {α : Type*} {c : Cursor α} (h : c.entries = []) :
    c.valid = false := by
  rw [valid_eq_false_iff, h, List.length_nil]
  omega

/-- Seeks do not read the position, so two cursors over the same entries, neither valid,
answer every call alike. -/
theorem step_eq_of_invalid {κ ν : Type*} [LinearOrder κ] {c c' : Cursor (κ × ν)}
    (he : c.entries = c'.entries) (hc : c.valid = false) (hc' : c'.valid = false) (op : Op κ) :
    c.step op = c'.step op := by
  obtain ⟨entries, pos⟩ := c
  obtain ⟨entries', pos'⟩ := c'
  dsimp only at he
  subst he
  cases op <;> simp_all [step, seekToFirst, seekToLast, seek]

/-- `Seek` passes the first `k` entries where exactly those are below the target. -/
theorem length_takeWhile_of_getElem {p : α → Bool} :
    ∀ {l : List α} {k : ℕ} (hk : k ≤ l.length), (∀ m (hm : m < k), p l[m] = true) →
      (∀ hk : k < l.length, p l[k] = false) → (l.takeWhile p).length = k
  | [], k, hk, _, _ => by simp at hk; simp [hk]
  | a :: l, 0, _, _, hstop => by
    rw [List.takeWhile_cons_of_neg (by rw [Bool.not_eq_true]; exact hstop (by simp))]
    rfl
  | a :: l, k + 1, hk, hbelow, hstop => by
    have ha : p a = true := hbelow 0 (by omega)
    rw [List.takeWhile_cons_of_pos ha, List.length_cons,
      length_takeWhile_of_getElem (by simpa using hk) (fun m hm ↦ hbelow (m + 1) (by omega))
        (fun h ↦ hstop (by simpa using h))]

end Cursor
