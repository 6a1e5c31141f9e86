import Mathlib
import PebblesDB.Table.MergerUnion
import PebblesDB.Lib.Run

/-!
# The merging iterator walks the sorted union

Children over strictly increasing sequences with no key in two of them (`Separate`), fresh (not
valid), and `KeyNum` monotone in the keys: every run of calls on the iterator that
`NewMergingIterator` builds over them answers as a cursor over the sorted union of their
sequences does, started past its end. The run fails in both (`Next()` or `Prev()` on an invalid
iterator) or leaves both valid or both not, at the same entry (`newMergingIterator_sortedUnion`).

`Sim m c` says where the merging iterator stands against the cursor `c`: forwards at position
`q` with every child placed after it (`PlacedAfter`), or in reverse at `q - 1` with every child
placed before `q` (`PlacedBefore`), with `current_` the top of the heap. By
`PebblesDB.Table.MergerUnion` the top is then the owner of the entry at the cursor. Each call keeps
`Sim`: a seek places every child anew; `Next()` forwards moves the owner one entry on
(`advance`), and in reverse first turns every other child past `key()` (`afterKey_pos`), which
places them forwards (`turnForward`); `Prev()` is the mirror image (`retreat`, `beforeKey_pos`,
`turnBackward`). `Machine.run_lockstep` carries the relation over the run.
-/

namespace PebblesDB.Table.Merger

open BinaryHeap SortedUnion

variable {κ ν : Type} [LinearOrder κ]

/-! ## The calls, unfolded once -/

namespace MergingIterator

variable (keyNum : κ → UInt64) (m : MergingIterator κ ν)

@[simp] theorem children_pushCurrentComparison :
    (m.pushCurrentComparison keyNum).children = m.children := by
  unfold pushCurrentComparison
  split
  · split <;> rfl
  · rfl

@[simp] theorem n_pushCurrentComparison : (m.pushCurrentComparison keyNum).n = m.n := by
  unfold pushCurrentComparison
  split
  · split <;> rfl
  · rfl

@[simp] theorem direction_pushCurrentComparison :
    (m.pushCurrentComparison keyNum).direction = m.direction := by
  unfold pushCurrentComparison
  split
  · split <;> rfl
  · rfl

/-- The end of `Next()`: take `current_` off the heap, move it one entry on, put it back and
find the smallest. -/
def stepForward (c : ℕ) (m₁ : MergingIterator κ ν) : Option (MergingIterator κ ν) := do
  let m₂ ← m₁.popCurrentComparison
  let m₃ := { m₂ with children := Function.update m₂.children c (m₂.children c).next }
  (m₃.pushCurrentComparison keyNum).findSmallest

/-- The end of `Prev()`: take `current_` off the heap, move it one entry back, put it back and
find the largest. -/
def stepBackward (c : ℕ) (m₁ : MergingIterator κ ν) : Option (MergingIterator κ ν) := do
  let m₂ ← m₁.popCurrentComparison
  let m₃ := { m₂ with children := Function.update m₂.children c (m₂.children c).prev }
  (m₃.pushCurrentComparison keyNum).findLargest

/-- `Next()`: the current entry, the turn when the direction was reverse, then `stepForward`. -/
theorem next_eq : m.next keyNum = m.current.bind fun c ↦ (m.children c).current.bind fun e ↦
    stepForward keyNum c (if m.direction = .forward then m else
      { m with children := m.moveChildren fun i ch ↦ if i = c then ch else afterKey e.1 ch,
               direction := .forward }.reinitializeComparisons keyNum) :=
  rfl

/-- `Prev()`: the current entry, the turn when the direction was forward, then `stepBackward`. -/
theorem prev_eq : m.prev keyNum = m.current.bind fun c ↦ (m.children c).current.bind fun e ↦
    stepBackward keyNum c (if m.direction = .reverse then m else
      { m with children := m.moveChildren fun i ch ↦ if i = c then ch else beforeKey e.1 ch,
               direction := .reverse }.reinitializeComparisons keyNum) :=
  rfl

theorem next_of_current {c : ℕ} {e : κ × ν} (hc : m.current = some c)
    (he : (m.children c).current = some e) :
    m.next keyNum = stepForward keyNum c (if m.direction = .forward then m else
      { m with children := m.moveChildren fun i ch ↦ if i = c then ch else afterKey e.1 ch,
               direction := .forward }.reinitializeComparisons keyNum) := by
  simp only [next_eq, hc, he, Option.bind_some]

theorem prev_of_current {c : ℕ} {e : κ × ν} (hc : m.current = some c)
    (he : (m.children c).current = some e) :
    m.prev keyNum = stepBackward keyNum c (if m.direction = .reverse then m else
      { m with children := m.moveChildren fun i ch ↦ if i = c then ch else beforeKey e.1 ch,
               direction := .reverse }.reinitializeComparisons keyNum) := by
  simp only [prev_eq, hc, he, Option.bind_some]

theorem stepForward_eq {c : ℕ} (hc : m.current = some c) (htop : m.heap.head? = some c) :
    stepForward keyNum c m = (MergingIterator.pushCurrentComparison keyNum
      { m with heap := popHeap m.heapComparator m.heap,
               children := Function.update m.children c (m.children c).next }).findSmallest := by
  rw [stepForward, popCurrentComparison_eq m hc htop]
  rfl

theorem stepBackward_eq {c : ℕ} (hc : m.current = some c) (htop : m.heap.head? = some c) :
    stepBackward keyNum c m = (MergingIterator.pushCurrentComparison keyNum
      { m with heap := popHeap m.heapComparator m.heap,
               children := Function.update m.children c (m.children c).prev }).findLargest := by
  rw [stepBackward, popCurrentComparison_eq m hc htop]
  rfl

end MergingIterator

/-! ## Moving one child -/

section Moves

variable {es : List (List (κ × ν))}

theorem passed_succ_of_owns {i q : ℕ} (hq : q < (sortedUnion es).length)
    (hown : owns (es.getD i []) (sortedUnion es)[q] = true) :
    passed es i (q + 1) = passed es i q + 1 := by
  rw [passed_succ es i hq, if_pos hown]

theorem passed_succ_of_not_owns {i q : ℕ} (hq : q < (sortedUnion es).length)
    (hown : owns (es.getD i []) (sortedUnion es)[q] = false) :
    passed es i (q + 1) = passed es i q := by
  rw [passed_succ es i hq, if_neg (Bool.eq_false_iff.1 hown), Nat.add_zero]

omit [LinearOrder κ] in
/-- In a list strictly increasing in key, `Seek` passes the entries below the target. -/
theorem length_takeWhile_below [LinearOrder κ] {l : List (κ × ν)}
    (hl : l.Pairwise fun a b ↦ a.1 < b.1) (t : κ) :
    (l.takeWhile fun e ↦ decide (e.1 < t)).length = (l.filter fun e ↦ decide (e.1 < t)).length :=
  Cursor.length_takeWhile_eq_length_filter (hl.imp fun hab hb ↦ by
    rw [decide_eq_true_eq] at hb ⊢
    exact hab.trans hb)

variable (hsep : Separate es)
include hsep

theorem passed_le_length {i : ℕ} (hi : i < es.length) (q : ℕ) :
    passed es i q ≤ (es.getD i []).length := by
  rw [← hsep.filter_owns (getD_mem hi)]
  exact ((List.take_sublist q _).filter _).length_le

/-- **`Seek` of a child** passes the entries it owns among those of the union below the target. -/
theorem length_takeWhile_eq_passed {i : ℕ} (hi : i < es.length) (t : κ) :
    ((es.getD i []).takeWhile fun e ↦ decide (e.1 < t)).length =
      passed es i ((sortedUnion es).takeWhile fun e ↦ decide (e.1 < t)).length := by
  have hU := hsep.pairwise_sortedUnion
  rw [length_takeWhile_below (hsep.sorted _ (getD_mem hi)), length_takeWhile_below hU, passed,
    ← filter_lt_eq_take hU t, List.filter_comm, hsep.filter_owns (getD_mem hi)]

/-- The union passes `q` entries below the key of its `q`-th. -/
theorem length_takeWhile_lt_getElem {q : ℕ} (hq : q < (sortedUnion es).length) :
    ((sortedUnion es).takeWhile fun e ↦ decide (e.1 < (sortedUnion es)[q].1)).length = q := by
  rw [length_takeWhile_below hsep.pairwise_sortedUnion, length_filter_lt_getElem
    hsep.pairwise_sortedUnion hq]

/-- A child seeked to the key of the entry at `q` stands at the first entry it owns from `q`. -/
theorem pos_seek_getElem {i q : ℕ} (hi : i < es.length) (hq : q < (sortedUnion es).length)
    {c : Cursor (κ × ν)} (hc : c.entries = es.getD i []) :
    (c.seek fun e ↦ decide (e.1 < (sortedUnion es)[q].1)).pos = passed es i q := by
  rw [Cursor.seek, hc, length_takeWhile_eq_passed hsep hi, length_takeWhile_lt_getElem hsep hq]

/-- **Turning forwards**, a child that does not own the entry at `q`, moved past its key, stands
after `q`: at the first entry it owns from `q` on, whose key is not that key. -/
theorem afterKey_pos {i q : ℕ} (hi : i < es.length) (hq : q < (sortedUnion es).length)
    (hown : owns (es.getD i []) (sortedUnion es)[q] = false) {c : Cursor (κ × ν)}
    (hc : c.entries = es.getD i []) :
    (MergingIterator.afterKey (sortedUnion es)[q].1 c).entries = c.entries ∧
      (MergingIterator.afterKey (sortedUnion es)[q].1 c).pos = passed es i (q + 1) := by
  have hseek := pos_seek_getElem hsep hi hq hc
  have hcur := current_of_passed hsep hi (by rw [Cursor.entries_seek, hc]) hseek
  -- the entry the seek lands on, if any, has a larger key
  have hkey : ((c.seek fun e ↦ decide (e.1 < (sortedUnion es)[q].1)).current.map Prod.fst ==
      some (sortedUnion es)[q].1) = false := by
    rw [hcur]
    cases he : (((sortedUnion es).drop q).filter (owns (es.getD i []))).head? with
    | none => rfl
    | some e =>
      have hlt := lt_of_head?_filter_drop hsep hq hown he
      simp [hlt.ne']
  simp only [MergingIterator.afterKey, hkey, Bool.and_false, Bool.false_eq_true, if_false]
  exact ⟨rfl, by rw [hseek, passed_succ_of_not_owns hq hown]⟩

/-- **Turning backwards**, a child that does not own the entry at `q`, moved before its key,
stands at the last entry it owns before `q`. -/
theorem beforeKey_pos {i q : ℕ} (hi : i < es.length) (hq : q < (sortedUnion es).length)
    (hown : owns (es.getD i []) (sortedUnion es)[q] = false) {c : Cursor (κ × ν)}
    (hc : c.entries = es.getD i []) :
    (MergingIterator.beforeKey (sortedUnion es)[q].1 c).entries = c.entries ∧
      (MergingIterator.beforeKey (sortedUnion es)[q].1 c).pos = passed es i (q + 1) - 1 := by
  have hseek := pos_seek_getElem hsep hi hq hc
  rw [passed_succ_of_not_owns hq hown]
  simp only [MergingIterator.beforeKey]
  split
  · exact ⟨rfl, by rw [Cursor.pos_prev, hseek]⟩
  · -- past its last entry: it owns nothing from `q` on, and goes back to its last
    rename_i hv
    rw [Bool.not_eq_true, Cursor.valid_eq_false_iff, hseek, Cursor.entries_seek, hc] at hv
    have hle := passed_le_length hsep hi q
    refine ⟨rfl, ?_⟩
    rw [Cursor.pos_seekToLast, Cursor.entries_seek, hc]
    omega

end Moves

/-! ## Where the merging iterator stands -/

section Sim

variable (keyNum : κ → UInt64) (es : List (List (κ × ν)))

/-- The merging iterator stands where the cursor `c` over the union does: forwards at position
`q` with every child placed after it, or in reverse at `q - 1` with every child placed before
`q`; the heap is kept and `current_` is its top. -/
structure Sim (m : MergingIterator κ ν) (c : Cursor (κ × ν)) : Prop where
  shape : Shape es m
  heapOk : MergingIterator.HeapOk keyNum m
  entries : c.entries = sortedUnion es
  current : m.current = m.heap.head?
  placed : ∃ q ≤ (sortedUnion es).length,
    (m.direction = .forward ∧ c.pos = q ∧ PlacedAfter es m q) ∨
      (m.direction = .reverse ∧ c.pos = q - 1 ∧ PlacedBefore es m q)

variable {keyNum es} {m : MergingIterator κ ν} {c : Cursor (κ × ν)}

/-- `FindSmallest()` over children placed forwards. -/
theorem sim_findSmallest (hshape : Shape es m) (hok : MergingIterator.HeapOk keyNum m)
    (hdir : m.direction = .forward) {q : ℕ} (hq : q ≤ (sortedUnion es).length)
    (hplaced : PlacedAfter es m q) (hc : c.entries = sortedUnion es) (hpos : c.pos = q) :
    ∃ m', m.findSmallest = some m' ∧ Sim keyNum es m' c :=
  ⟨{ m with current := m.heap.head? }, by rw [MergingIterator.findSmallest, if_pos hdir],
    ⟨⟨hshape.n_eq, hshape.entries⟩, ⟨hok.isHeap, hok.nodup, hok.mem, hok.cached⟩, hc, rfl, q, hq,
      .inl ⟨hdir, hpos, hplaced⟩⟩⟩

/-- `FindLargest()` over children placed in reverse. -/
theorem sim_findLargest (hshape : Shape es m) (hok : MergingIterator.HeapOk keyNum m)
    (hdir : m.direction = .reverse) {q : ℕ} (hq : q ≤ (sortedUnion es).length)
    (hplaced : PlacedBefore es m q) (hc : c.entries = sortedUnion es) (hpos : c.pos = q - 1) :
    ∃ m', m.findLargest = some m' ∧ Sim keyNum es m' c :=
  ⟨{ m with current := m.heap.head? }, by rw [MergingIterator.findLargest, if_pos hdir],
    ⟨⟨hshape.n_eq, hshape.entries⟩, ⟨hok.isHeap, hok.nodup, hok.mem, hok.cached⟩, hc, rfl, q, hq,
      .inr ⟨hdir, hpos, hplaced⟩⟩⟩

/-- The children below `n_`, moved by `f`, with the heap made anew. -/
theorem children_moved (hshape : Shape es m) {f : ℕ → Cursor (κ × ν) → Cursor (κ × ν)}
    (d : Direction) {i : ℕ} (hi : i < es.length) :
    ({ m with children := m.moveChildren f, direction := d }.reinitializeComparisons
      keyNum).children i = f i (m.children i) := by
  rw [MergingIterator.children_reinitializeComparisons]
  exact if_pos (hshape.n_eq ▸ hi)

/-- Moves that keep each child over its sequence keep the shape. -/
theorem Shape.moved (hshape : Shape es m) {f : ℕ → Cursor (κ × ν) → Cursor (κ × ν)}
    (hf : ∀ i < es.length, (f i (m.children i)).entries = (m.children i).entries)
    (d : Direction) :
    Shape es ({ m with children := m.moveChildren f, direction := d }.reinitializeComparisons
      keyNum) :=
  ⟨hshape.n_eq, fun i hi ↦ by
    rw [children_moved hshape d hi, hf i hi, hshape.entries i hi]⟩

/-- **`SeekToFirst()`** places every child at its first entry, before position `0`. -/
theorem sim_seekToFirst (hshape : Shape es m) (hce : c.entries = sortedUnion es) :
    ∃ m', m.seekToFirst keyNum = some m' ∧ Sim keyNum es m' c.seekToFirst :=
  sim_findSmallest (hshape.moved (fun _ _ ↦ rfl) _)
    (MergingIterator.heapOk_reinitializeComparisons keyNum _) rfl (Nat.zero_le _)
    (fun i hi ↦ by rw [children_moved hshape _ hi, Cursor.pos_seekToFirst, passed_zero]; rfl)
    hce rfl

/-- **`SeekToLast()`** places every child at its last entry, before the end of the union. -/
theorem sim_seekToLast (hsep : Separate es) (hshape : Shape es m)
    (hce : c.entries = sortedUnion es) :
    ∃ m', m.seekToLast keyNum = some m' ∧ Sim keyNum es m' c.seekToLast :=
  sim_findLargest (hshape.moved (fun _ _ ↦ rfl) _)
    (MergingIterator.heapOk_reinitializeComparisons keyNum _) rfl le_rfl
    (fun i hi ↦ by
      rw [children_moved hshape _ hi, Cursor.pos_seekToLast, hshape.entries i hi,
        passed_length hsep hi])
    hce (by rw [Cursor.pos_seekToLast, hce])

/-- **`Seek(target)`** places every child at its first entry not below the target, after the
entries of the union below it. -/
theorem sim_seek (hsep : Separate es) (hshape : Shape es m) (hce : c.entries = sortedUnion es)
    (target : κ) :
    ∃ m', m.seek keyNum target = some m' ∧
      Sim keyNum es m' (c.seek fun e ↦ decide (e.1 < target)) :=
  sim_findSmallest (hshape.moved (fun _ _ ↦ rfl) _)
    (MergingIterator.heapOk_reinitializeComparisons keyNum _) rfl
    (List.takeWhile_sublist _).length_le
    (fun i hi ↦ by
      rw [children_moved hshape _ hi, Cursor.seek, hshape.entries i hi,
        length_takeWhile_eq_passed hsep hi])
    hce (by rw [Cursor.seek, hce])

/-- `Valid()` says whether there is an entry to read: `current_` is a valid child. -/
theorem valid_eq_isSome_entry (hok : MergingIterator.HeapOk keyNum m)
    (hcur : m.current = m.heap.head?) : m.valid = m.entry.isSome := by
  cases ho : m.current with
  | none => simp [MergingIterator.valid, MergingIterator.entry, ho]
  | some o =>
    have hmem : o ∈ m.heap := List.mem_of_mem_head? (by rw [← hcur]; exact ho)
    obtain ⟨e, he⟩ := (m.children o).exists_current_of_valid ((hok.mem o).1 hmem).2
    simp [MergingIterator.valid, MergingIterator.entry, ho, he]

variable (hsep : Separate es)
include hsep

/-- **Turning forwards**: in reverse before `p + 1`, every child but the owner of the entry at
`p` moved past its key, the children stand placed after `p` and the heap is made anew. -/
theorem turnForward (hshape : Shape es m) {p : ℕ} (hp : p < (sortedUnion es).length)
    (hplaced : PlacedBefore es m (p + 1)) {o : ℕ} (ho : o < es.length)
    (hown : owns (es.getD o []) (sortedUnion es)[p] = true) :
    PlacedAfter es ({ m with
        children := m.moveChildren fun i ch ↦
          if i = o then ch else MergingIterator.afterKey (sortedUnion es)[p].1 ch,
        direction := .forward }.reinitializeComparisons keyNum) p := by
  intro i hi
  rw [children_moved hshape _ hi]
  by_cases hio : i = o
  · subst hio
    rw [if_pos rfl, hplaced i hi, passed_succ_of_owns hp hown]
    push_cast
    ring
  · have hown_i : owns (es.getD i []) (sortedUnion es)[p] = false :=
      Bool.eq_false_iff.2 fun h ↦ hio (owner_unique hsep hp hi ho h hown)
    rw [if_neg hio, (afterKey_pos hsep hi hp hown_i (hshape.entries i hi)).2,
      passed_succ_of_not_owns hp hown_i]

theorem shape_turnForward (hshape : Shape es m) {p : ℕ} (hp : p < (sortedUnion es).length)
    {o : ℕ} (ho : o < es.length) (hown : owns (es.getD o []) (sortedUnion es)[p] = true) :
    Shape es ({ m with
        children := m.moveChildren fun i ch ↦
          if i = o then ch else MergingIterator.afterKey (sortedUnion es)[p].1 ch,
        direction := .forward }.reinitializeComparisons keyNum) :=
  hshape.moved (fun i hi ↦ by
    by_cases hio : i = o
    · rw [if_pos hio]
    · rw [if_neg hio]
      exact (afterKey_pos hsep hi hp (Bool.eq_false_iff.2 fun h ↦
        hio (owner_unique hsep hp hi ho h hown)) (hshape.entries i hi)).1) _

/-- **Turning backwards**: forwards at `q`, every child but the owner of the entry at `q` moved
before its key, the children stand placed before `q + 1` and the heap is made anew. -/
theorem turnBackward (hshape : Shape es m) {q : ℕ} (hq : q < (sortedUnion es).length)
    (hplaced : PlacedAfter es m q) {o : ℕ} (ho : o < es.length)
    (hown : owns (es.getD o []) (sortedUnion es)[q] = true) :
    PlacedBefore es ({ m with
        children := m.moveChildren fun i ch ↦
          if i = o then ch else MergingIterator.beforeKey (sortedUnion es)[q].1 ch,
        direction := .reverse }.reinitializeComparisons keyNum) (q + 1) := by
  intro i hi
  rw [children_moved hshape _ hi]
  by_cases hio : i = o
  · subst hio
    rw [if_pos rfl, hplaced i hi, passed_succ_of_owns hq hown]
    push_cast
    ring
  · have hown_i : owns (es.getD i []) (sortedUnion es)[q] = false :=
      Bool.eq_false_iff.2 fun h ↦ hio (owner_unique hsep hq hi ho h hown)
    rw [if_neg hio, (beforeKey_pos hsep hi hq hown_i (hshape.entries i hi)).2]

theorem shape_turnBackward (hshape : Shape es m) {q : ℕ} (hq : q < (sortedUnion es).length)
    {o : ℕ} (ho : o < es.length) (hown : owns (es.getD o []) (sortedUnion es)[q] = true) :
    Shape es ({ m with
        children := m.moveChildren fun i ch ↦
          if i = o then ch else MergingIterator.beforeKey (sortedUnion es)[q].1 ch,
        direction := .reverse }.reinitializeComparisons keyNum) :=
  hshape.moved (fun i hi ↦ by
    by_cases hio : i = o
    · rw [if_pos hio]
    · rw [if_neg hio]
      exact (beforeKey_pos hsep hi hq (Bool.eq_false_iff.2 fun h ↦
        hio (owner_unique hsep hq hi ho h hown)) (hshape.entries i hi)).1) _

/-- Off the union, no child is valid and the heap is empty. -/
theorem Sim.heap_eq_nil_of_invalid (h : Sim keyNum es m c) (hv : c.valid = false) : m.heap = [] := by
  rw [Cursor.valid_eq_false_iff, h.entries] at hv
  obtain ⟨q, hq, ⟨hdir, hpos, hplaced⟩ | ⟨hdir, hpos, hplaced⟩⟩ := h.placed
  · have hqe : q = (sortedUnion es).length := by omega
    subst hqe
    exact heap_eq_nil keyNum h.shape h.heapOk fun i hi ↦
      valid_eq_false_of_placedAfter hsep h.shape hplaced hi
  · have hq0 : q = 0 := by omega
    subst hq0
    exact heap_eq_nil keyNum h.shape h.heapOk fun i hi ↦
      valid_eq_false_of_placedBefore hplaced hi

variable (hmono : ∀ ⦃a b : κ⦄, a ≤ b → keyNum a ≤ keyNum b)
include hmono

/-- A merging iterator that reads an entry stands at it with the owner of that entry on top:
forwards at its position `q`, or in reverse before `q + 1`. -/
theorem Sim.owner (h : Sim keyNum es m c) (hv : c.valid = true) :
    ∃ q, ∃ hq : q < (sortedUnion es).length, ∃ o < es.length,
      owns (es.getD o []) (sortedUnion es)[q] = true ∧ m.current = some o ∧
      (m.children o).current = some (sortedUnion es)[q] ∧ c.pos = q ∧
      ((m.direction = .forward ∧ PlacedAfter es m q) ∨
        (m.direction = .reverse ∧ PlacedBefore es m (q + 1))) := by
  rw [Cursor.valid_iff, h.entries] at hv
  obtain ⟨q', hq', ⟨hdir, hpos, hplaced⟩ | ⟨hdir, hpos, hplaced⟩⟩ := h.placed
  · have hq : q' < (sortedUnion es).length := by omega
    obtain ⟨o, ho, hown⟩ := exists_owner hq
    have htop := top_of_forward hsep hmono h.shape h.heapOk hdir hplaced hq ho hown
    exact ⟨q', hq, o, ho, hown, h.current.trans htop,
      (current_of_passed hsep ho (h.shape.entries o ho) (hplaced o ho)).trans
        (head?_filter_drop_of_owns hq hown), hpos, .inl ⟨hdir, hplaced⟩⟩
  · obtain ⟨p, rfl⟩ : ∃ p, q' = p + 1 := ⟨q' - 1, by omega⟩
    have hp : p < (sortedUnion es).length := by omega
    obtain ⟨o, ho, hown⟩ := exists_owner hp
    have htop := top_of_reverse hsep hmono h.shape h.heapOk hdir hplaced hp ho hown
    exact ⟨p, hp, o, ho, hown, h.current.trans htop,
      (current_of_passed_sub_one hsep ho (h.shape.entries o ho) (hplaced o ho)).trans
        (getLast?_filter_take_of_owns hp hown), by rw [hpos]; push_cast; ring,
      .inr ⟨hdir, hplaced⟩⟩

/-- **The merging iterator reads the cursor's entry**, and nothing where the cursor is off the
union. -/
theorem Sim.entry (h : Sim keyNum es m c) : m.entry = c.current := by
  cases hv : c.valid
  · rw [(Cursor.current_eq_none_iff c).2 hv, MergingIterator.entry, h.current,
      h.heap_eq_nil_of_invalid hsep hv]
    rfl
  · obtain ⟨q, hq, o, -, -, hc, hco, hpos, -⟩ := h.owner hsep hmono hv
    obtain ⟨entries, pos⟩ := c
    have hce := h.entries
    dsimp only at hce hpos
    subst hce hpos
    rw [MergingIterator.entry, hc, Option.bind_some, hco, Cursor.current_of_lt hq]

theorem Sim.valid (h : Sim keyNum es m c) : m.valid = c.valid := by
  rw [valid_eq_isSome_entry h.heapOk h.current, h.entry hsep hmono, Cursor.valid_eq_isSome_current]

/-- **`Next()` forwards**: the owner of the entry at `q` moves one entry on, and the iterator
stands at `q + 1`. -/
theorem advance (hshape : Shape es m) (hok : MergingIterator.HeapOk keyNum m)
    (hdir : m.direction = .forward) {q : ℕ} (hq : q < (sortedUnion es).length)
    (hplaced : PlacedAfter es m q) {o : ℕ} (ho : o < es.length)
    (hown : owns (es.getD o []) (sortedUnion es)[q] = true) (hc : m.current = some o)
    (hce : c.entries = sortedUnion es) (hpos : c.pos = (q + 1 : ℕ)) :
    ∃ m', MergingIterator.stepForward keyNum o m = some m' ∧ Sim keyNum es m' c := by
  have htop := top_of_forward hsep hmono hshape hok hdir hplaced hq ho hown
  rw [MergingIterator.stepForward_eq keyNum m hc htop]
  refine sim_findSmallest ⟨by simpa using hshape.n_eq, fun i hi ↦ ?_⟩
    (hok.popMovePush keyNum m hc htop _) (by simpa using hdir) hq (fun i hi ↦ ?_) hce hpos
  · by_cases hio : i = o
    · subst hio
      simp [hshape.entries i hi]
    · simp [hio, hshape.entries i hi]
  · -- only the owner moves, and passes the entry at `q`
    by_cases hio : i = o
    · subst hio
      simp [hplaced i hi, passed_succ_of_owns hq hown]
    · have hown_i : owns (es.getD i []) (sortedUnion es)[q] = false :=
        Bool.eq_false_iff.2 fun h ↦ hio (owner_unique hsep hq hi ho h hown)
      simp [hio, hplaced i hi, passed_succ_of_not_owns hq hown_i]

/-- **`Prev()` in reverse**: the owner of the entry at `q` moves one entry back, and the iterator
stands at `q - 1`. -/
theorem retreat (hshape : Shape es m) (hok : MergingIterator.HeapOk keyNum m)
    (hdir : m.direction = .reverse) {q : ℕ} (hq : q < (sortedUnion es).length)
    (hplaced : PlacedBefore es m (q + 1)) {o : ℕ} (ho : o < es.length)
    (hown : owns (es.getD o []) (sortedUnion es)[q] = true) (hc : m.current = some o)
    (hce : c.entries = sortedUnion es) (hpos : c.pos = q - 1) :
    ∃ m', MergingIterator.stepBackward keyNum o m = some m' ∧ Sim keyNum es m' c := by
  have htop := top_of_reverse hsep hmono hshape hok hdir hplaced hq ho hown
  rw [MergingIterator.stepBackward_eq keyNum m hc htop]
  refine sim_findLargest ⟨by simpa using hshape.n_eq, fun i hi ↦ ?_⟩
    (hok.popMovePush keyNum m hc htop _) (by simpa using hdir) hq.le (fun i hi ↦ ?_) hce hpos
  · by_cases hio : i = o
    · subst hio
      simp [hshape.entries i hi]
    · simp [hio, hshape.entries i hi]
  · -- only the owner moves, back before the entry at `q`
    by_cases hio : i = o
    · subst hio
      simp only [MergingIterator.children_pushCurrentComparison, Function.update_self,
        Cursor.pos_prev, hplaced i hi, passed_succ_of_owns hq hown]
      push_cast
      ring
    · have hown_i : owns (es.getD i []) (sortedUnion es)[q] = false :=
        Bool.eq_false_iff.2 fun h ↦ hio (owner_unique hsep hq hi ho h hown)
      simp [hio, hplaced i hi, passed_succ_of_not_owns hq hown_i]

/-- An invalid merging iterator has no `current_`. -/
theorem Sim.current_eq_none (h : Sim keyNum es m c) (hv : c.valid = false) :
    m.current = none := by
  have hvalid : m.current.isSome = false := (h.valid hsep hmono).trans hv
  simpa using hvalid

/-- **`Next()`** reads the entry after, turning the other children forwards first if it was going
in reverse; it asserts a valid iterator. -/
theorem Sim.next (h : Sim keyNum es m c) :
    (c.valid = true → ∃ m', m.next keyNum = some m' ∧ Sim keyNum es m' c.next) ∧
      (c.valid = false → m.next keyNum = none) := by
  refine ⟨fun hv ↦ ?_, fun hv ↦ by rw [MergingIterator.next_eq, h.current_eq_none hsep hmono hv]; rfl⟩
  have hce : c.next.entries = sortedUnion es := by rw [Cursor.entries_next, h.entries]
  obtain ⟨q, hq, o, ho, hown, hc, hco, hpos, ⟨hdir, hplaced⟩ | ⟨hdir, hplaced⟩⟩ :=
    h.owner hsep hmono hv
  all_goals rw [MergingIterator.next_of_current keyNum m hc hco]
  · rw [if_pos hdir]
    exact advance hsep hmono h.shape h.heapOk hdir hq hplaced ho hown hc hce
      (by rw [Cursor.pos_next, hpos]; push_cast; rfl)
  · -- in reverse: the other children turn forwards, then the owner moves on
    rw [if_neg (by rw [hdir]; decide)]
    exact advance hsep hmono (shape_turnForward hsep h.shape hq ho hown)
      (MergingIterator.heapOk_reinitializeComparisons keyNum _) rfl hq
      (turnForward hsep h.shape hq hplaced ho hown) ho hown hc hce
      (by rw [Cursor.pos_next, hpos]; push_cast; rfl)

/-- **`Prev()`** reads the entry before, turning the other children backwards first if it was
going forwards; it asserts a valid iterator. -/
theorem Sim.prev (h : Sim keyNum es m c) :
    (c.valid = true → ∃ m', m.prev keyNum = some m' ∧ Sim keyNum es m' c.prev) ∧
      (c.valid = false → m.prev keyNum = none) := by
  refine ⟨fun hv ↦ ?_, fun hv ↦ by rw [MergingIterator.prev_eq, h.current_eq_none hsep hmono hv]; rfl⟩
  have hce : c.prev.entries = sortedUnion es := by rw [Cursor.entries_prev, h.entries]
  obtain ⟨q, hq, o, ho, hown, hc, hco, hpos, ⟨hdir, hplaced⟩ | ⟨hdir, hplaced⟩⟩ :=
    h.owner hsep hmono hv
  all_goals rw [MergingIterator.prev_of_current keyNum m hc hco]
  · -- forwards: the other children turn backwards, then the owner moves back
    rw [if_neg (by rw [hdir]; decide)]
    exact retreat hsep hmono (shape_turnBackward hsep h.shape hq ho hown)
      (MergingIterator.heapOk_reinitializeComparisons keyNum _) rfl hq
      (turnBackward hsep h.shape hq hplaced ho hown) ho hown hc hce
      (by rw [Cursor.pos_prev, hpos])
  · rw [if_pos hdir]
    exact retreat hsep hmono h.shape h.heapOk hdir hq hplaced ho hown hc hce
      (by rw [Cursor.pos_prev, hpos])

end Sim

/-! ## The iterator `NewMergingIterator` returns -/

section Merged

variable (keyNum : κ → UInt64) (es : List (List (κ × ν)))

/-- Where the iterator `NewMergingIterator` returns stands against a cursor over the union: the
empty iterator against a cursor over nothing; the one child as the cursor itself, or both not
valid before the first seek; a merging iterator in `Sim`, or not valid before the first seek. -/
def MergedSim : Merged κ ν → Cursor (κ × ν) → Prop
  | .empty, c => c.entries = []
  | .single ch, c => ch.entries = c.entries ∧ (ch = c ∨ (ch.valid = false ∧ c.valid = false))
  | .merging m, c => Sim keyNum es m c ∨
      (Shape es m ∧ c.entries = sortedUnion es ∧ m.current = none ∧ c.valid = false)

/-- Calls on the empty iterator: seeks leave it empty; `Next()` and `Prev()` assert. -/
theorem Merged.step_empty (op : Cursor.Op κ) :
    Merged.step keyNum op (.empty : Merged κ ν) =
      if op = .next ∨ op = .prev then none else some .empty := by
  cases op <;> rfl

variable {keyNum es}

/-- **Every call answers as the cursor's**: it fails on both, or leaves them where `MergedSim`
relates them. -/
theorem MergedSim.step (hsep : Separate es) (hmono : ∀ ⦃a b : κ⦄, a ≤ b → keyNum a ≤ keyNum b)
    {it : Merged κ ν} {c : Cursor (κ × ν)} (h : MergedSim keyNum es it c) (op : Cursor.Op κ) :
    (Merged.step keyNum op it = none ∧ c.step op = none) ∨
      ∃ it' c', Merged.step keyNum op it = some it' ∧ c.step op = some c' ∧
        MergedSim keyNum es it' c' := by
  cases it with
  | empty =>
    -- a cursor over nothing is never valid
    have hv : c.valid = false := Cursor.valid_eq_false_of_entries_eq_nil h
    rw [Merged.step_empty]
    cases op with
    | next | prev => exact .inl ⟨rfl, by simp [Cursor.step, hv]⟩
    | seekToFirst | seekToLast | seek t => exact .inr ⟨_, _, rfl, rfl, h⟩
  | single ch =>
    obtain ⟨he, rfl | ⟨hch, hc⟩⟩ := h
    · cases hs : ch.step op with
      | none => exact .inl ⟨by simp [Merged.step, hs], rfl⟩
      | some c' => exact .inr ⟨.single c', c', by simp [Merged.step, hs], rfl, rfl, Or.inl rfl⟩
    · rw [Merged.step, Cursor.step_eq_of_invalid he hch hc op]
      cases hs : c.step op with
      | none => exact .inl ⟨rfl, rfl⟩
      | some c' => exact .inr ⟨.single c', c', rfl, rfl, rfl, Or.inl rfl⟩
  | merging m =>
    -- the seeks need only the shape; `Next()` and `Prev()` need the iterator in `Sim`
    have hshape : Shape es m := h.elim (·.shape) (·.1)
    have hce : c.entries = sortedUnion es := h.elim (·.entries) (·.2.1)
    cases op with
    | seekToFirst =>
      obtain ⟨m', hm', hs⟩ : ∃ m', m.seekToFirst keyNum = some m' ∧
          Sim keyNum es m' c.seekToFirst := sim_seekToFirst hshape hce
      exact .inr ⟨.merging m', _, by rw [Merged.step, hm']; rfl, rfl, Or.inl hs⟩
    | seekToLast =>
      obtain ⟨m', hm', hs⟩ : ∃ m', m.seekToLast keyNum = some m' ∧
          Sim keyNum es m' c.seekToLast := sim_seekToLast hsep hshape hce
      exact .inr ⟨.merging m', _, by rw [Merged.step, hm']; rfl, rfl, Or.inl hs⟩
    | seek t =>
      obtain ⟨m', hm', hs⟩ : ∃ m', m.seek keyNum t = some m' ∧
          Sim keyNum es m' (c.seek fun e ↦ decide (e.1 < t)) := sim_seek hsep hshape hce t
      exact .inr ⟨.merging m', _, by rw [Merged.step, hm']; rfl, rfl, Or.inl hs⟩
    | next =>
      rcases h with h | ⟨-, -, hcur, hv⟩
      · cases hv : c.valid with
        | false =>
          exact .inl ⟨by rw [Merged.step, (h.next hsep hmono).2 hv]; rfl, by simp [Cursor.step, hv]⟩
        | true =>
          obtain ⟨m', hm', hs⟩ := (h.next hsep hmono).1 hv
          exact .inr ⟨.merging m', _, by rw [Merged.step, hm']; rfl, by simp [Cursor.step, hv],
            Or.inl hs⟩
      · exact .inl ⟨by rw [Merged.step, MergingIterator.next_eq, hcur]; rfl,
          by simp [Cursor.step, hv]⟩
    | prev =>
      rcases h with h | ⟨-, -, hcur, hv⟩
      · cases hv : c.valid with
        | false =>
          exact .inl ⟨by rw [Merged.step, (h.prev hsep hmono).2 hv]; rfl, by simp [Cursor.step, hv]⟩
        | true =>
          obtain ⟨m', hm', hs⟩ := (h.prev hsep hmono).1 hv
          exact .inr ⟨.merging m', _, by rw [Merged.step, hm']; rfl, by simp [Cursor.step, hv],
            Or.inl hs⟩
      · exact .inl ⟨by rw [Merged.step, MergingIterator.prev_eq, hcur]; rfl,
          by simp [Cursor.step, hv]⟩

/-- After a run, the iterator is valid where the cursor is, and reads its entry. -/
theorem MergedSim.valid_entry (hsep : Separate es)
    (hmono : ∀ ⦃a b : κ⦄, a ≤ b → keyNum a ≤ keyNum b) {it : Merged κ ν} {c : Cursor (κ × ν)}
    (h : MergedSim keyNum es it c) : it.valid = c.valid ∧ it.entry = c.current := by
  cases it with
  | empty =>
    have hv := Cursor.valid_eq_false_of_entries_eq_nil h
    exact ⟨hv.symm, ((Cursor.current_eq_none_iff c).2 hv).symm⟩
  | single ch =>
    obtain ⟨-, rfl | ⟨hch, hc⟩⟩ := h
    · exact ⟨rfl, rfl⟩
    · exact ⟨hch.trans hc.symm,
        ((Cursor.current_eq_none_iff ch).2 hch).trans ((Cursor.current_eq_none_iff c).2 hc).symm⟩
  | merging m =>
    rcases h with h | ⟨-, -, hcur, hv⟩
    · exact ⟨h.valid hsep hmono, h.entry hsep hmono⟩
    · refine ⟨by simp [Merged.valid, MergingIterator.valid, hcur, hv], ?_⟩
      rw [(Cursor.current_eq_none_iff c).2 hv]
      simp [Merged.entry, MergingIterator.entry, hcur]

variable (keyNum)

/-- A run of calls is a run of the machine whose step is `Merged.step`. -/
theorem Merged.run_eq (ops : List (Cursor.Op κ)) (it : Merged κ ν) :
    Merged.run keyNum ops it = Machine.run (flip (Merged.step keyNum)) it ops := by
  induction ops generalizing it with
  | nil => rfl
  | cons op ops ih =>
    rw [Merged.run, List.foldlM_cons, Machine.run_cons, flip]
    cases Merged.step keyNum op it with
    | none => rfl
    | some it' => exact ih it'

/-- **`NewMergingIterator`** over fresh children stands where a cursor past the end of the
union does. -/
theorem mergedSim_newMergingIterator (list : List (Cursor (κ × ν)))
    (hsep : Separate (list.map Cursor.entries)) (hfresh : ∀ c ∈ list, c.valid = false) :
    MergedSim keyNum (list.map Cursor.entries) (newMergingIterator keyNum list)
      ⟨sortedUnion (list.map Cursor.entries), (sortedUnion (list.map Cursor.entries)).length⟩ := by
  have hend : (⟨sortedUnion (list.map Cursor.entries),
      (sortedUnion (list.map Cursor.entries)).length⟩ : Cursor (κ × ν)).valid = false := by
    rw [Cursor.valid_eq_false_iff]
    exact .inr le_rfl
  rcases list with _ | ⟨ch, _ | ⟨ch', rest⟩⟩
  · -- no child: the empty iterator, and the union is empty
    show sortedUnion [] = []
    simp [sortedUnion]
  · -- one child: the child itself, over the union of its one sequence
    have hU : sortedUnion [ch.entries] = ch.entries :=
      sortedUnion_singleton (hsep.sorted _ (List.mem_singleton_self _))
    exact ⟨hU.symm, .inr ⟨hfresh ch (List.mem_singleton_self _), hend⟩⟩
  · -- more: a merging iterator with no `current_`
    refine Or.inr ⟨⟨by simp, fun i hi ↦ ?_⟩, rfl, rfl, hend⟩
    exact (List.getD_map _ ⟨[], 0⟩ Cursor.entries).symm

/-- **The merging iterator is the sorted union of its children.** Over children that are fresh
(not valid) cursors over strictly increasing sequences with no key in two of them, and with
`KeyNum` monotone in the keys, every run of calls on the iterator `NewMergingIterator` returns
answers as a cursor past the end of the sorted union does: the run fails in both (`Next()` or
`Prev()` on an invalid iterator), or leaves both valid or both not, reading the same entry. -/
theorem newMergingIterator_sortedUnion (hmono : ∀ ⦃a b : κ⦄, a ≤ b → keyNum a ≤ keyNum b)
    (list : List (Cursor (κ × ν))) (hsep : Separate (list.map Cursor.entries))
    (hfresh : ∀ c ∈ list, c.valid = false) (ops : List (Cursor.Op κ)) :
    (Merged.run keyNum ops (newMergingIterator keyNum list) = none ∧
        Machine.run (flip Cursor.step) ⟨sortedUnion (list.map Cursor.entries),
          (sortedUnion (list.map Cursor.entries)).length⟩ ops = none) ∨
      ∃ it c, Merged.run keyNum ops (newMergingIterator keyNum list) = some it ∧
        Machine.run (flip Cursor.step) ⟨sortedUnion (list.map Cursor.entries),
          (sortedUnion (list.map Cursor.entries)).length⟩ ops = some c ∧
        it.valid = c.valid ∧ it.entry = c.current := by
  rw [Merged.run_eq]
  rcases Machine.run_lockstep (MergedSim keyNum (list.map Cursor.entries))
      (fun _ _ op h ↦ h.step hsep hmono op) ops _ _
      (mergedSim_newMergingIterator keyNum list hsep hfresh) with hnone | ⟨it, c, hit, hc, hs⟩
  · exact .inl hnone
  · exact .inr ⟨it, c, hit, hc, hs.valid_entry hsep hmono⟩

/-- Two fresh children, `[1, 4]` and `[2]`. -/
def twoChildren : List (Cursor (ℕ × ℕ)) :=
  [⟨[(1, 10), (4, 40)], 2⟩, ⟨[(2, 20)], 1⟩]

theorem newMergingIterator_sortedUnion_two :
    (∀ ⦃a b : ℕ⦄, a ≤ b → (fun _ ↦ (0 : UInt64)) a ≤ (fun _ ↦ (0 : UInt64)) b) ∧
      Separate (twoChildren.map Cursor.entries) ∧ (∀ c ∈ twoChildren, c.valid = false) ∧
      ∀ ops : List (Cursor.Op ℕ),
        (Merged.run (fun _ ↦ 0) ops (newMergingIterator (fun _ ↦ 0) twoChildren) = none ∧
            Machine.run (flip Cursor.step) ⟨sortedUnion (twoChildren.map Cursor.entries),
              (sortedUnion (twoChildren.map Cursor.entries)).length⟩ ops = none) ∨
          ∃ it c, Merged.run (fun _ ↦ 0) ops (newMergingIterator (fun _ ↦ 0) twoChildren) =
              some it ∧
            Machine.run (flip Cursor.step) ⟨sortedUnion (twoChildren.map Cursor.entries),
              (sortedUnion (twoChildren.map Cursor.entries)).length⟩ ops = some c ∧
            it.valid = c.valid ∧ it.entry = c.current :=
  have hmono : ∀ ⦃a b : ℕ⦄, a ≤ b → (fun _ ↦ (0 : UInt64)) a ≤ (fun _ ↦ (0 : UInt64)) b :=
    fun _ _ _ ↦ UInt64.le_refl 0
  have hsep : Separate (twoChildren.map Cursor.entries) := ⟨by decide, by decide⟩
  have hfresh : ∀ c ∈ twoChildren, c.valid = false := by decide
  ⟨hmono, hsep, hfresh, newMergingIterator_sortedUnion (fun _ ↦ 0) hmono twoChildren hsep hfresh⟩

end Merged

end PebblesDB.Table.Merger
