import Mathlib.Order.WithBot
import Mathlib.Data.Prod.Lex
import PebblesDB.Lib.BinaryHeap
import PebblesDB.Lib.Cursor

/-!
# `MergingIterator`

`NewMergingIterator(cmp, list, n)` merges `n` child iterators into one that yields the entries of
all of them in the comparator's order: no iterator for `n = 0`, the child itself for `n = 1`, and
a `MergingIterator` for more. The merging iterator keeps the valid children in a binary heap
`heap_`, ordered by `HeapComparator`: first by `comparisons_`, the cached `KeyNum` of each
child's key, then by the comparator; forwards the smallest child is on top, in reverse the
largest. `current_` is the child on top. `Next` and `Prev` pop that child, move it and push it
back; when the direction changes they first move every other child to just after (or just
before) the current key and build the heap anew.

The children are cursors over their sequences (`Cursor`), and the keys are any linear order
with `keyNum` for `KeyNum`. Where the code asserts, the model returns `none`.
-/

namespace PebblesDB.Table.Merger

open BinaryHeap

/-- `MergingIterator::Direction`. -/
inductive Direction
  /-- `kForward`. -/
  | forward
  /-- `kReverse`. -/
  | reverse
  deriving DecidableEq, Repr

/-- A `MergingIterator`: `n_` children `children_` with their cached `KeyNum` `comparisons_`, the
heap `heap_[0..heap_sz_)` of child indices, `current_` as the index of a child, and
`direction_`. -/
structure MergingIterator (κ ν : Type) where
  /-- `n_`. -/
  n : ℕ
  /-- `children_`. -/
  children : ℕ → Cursor (κ × ν)
  /-- `comparisons_`. -/
  comparisons : ℕ → UInt64
  /-- `heap_[0..heap_sz_)`. -/
  heap : List ℕ
  /-- `current_`, `none` for `NULL`. -/
  current : Option ℕ
  /-- `direction_`. -/
  direction : Direction

namespace MergingIterator

variable {κ ν : Type} [LinearOrder κ] (keyNum : κ → UInt64) (m : MergingIterator κ ν)

/-- The key of child `i`, `⊥` off its sequence (where the heap never reads it). -/
def childKey (i : ℕ) : WithBot κ :=
  ((m.children i).current.map Prod.fst : Option κ)

/-- Whether child `i` sorts below child `j`: by `comparisons_`, then by the comparator. -/
def keyLess (i j : ℕ) : Bool :=
  decide (m.comparisons i < m.comparisons j) ||
    (decide (m.comparisons i = m.comparisons j) && decide (m.childKey i < m.childKey j))

/-- `HeapComparator`: in `kForward` it swaps its arguments, so that the smallest child is on top
of the heap. -/
def heapComparator (lhs rhs : ℕ) : Bool :=
  if m.direction = .forward then m.keyLess rhs lhs else m.keyLess lhs rhs

/-- `comparator_->KeyNum(children_[i].key())` for a valid child, the cached value otherwise. -/
def keyNumOf (i : ℕ) : UInt64 :=
  ((m.children i).current.map fun (e : κ × ν) ↦ keyNum e.1).getD (m.comparisons i)

/-- `ReinitializeComparisons()`: cache `KeyNum` of the key of each valid child, then make a heap
of the valid children. -/
def reinitializeComparisons : MergingIterator κ ν :=
  let cached := fun i ↦ if i < m.n then m.keyNumOf keyNum i else m.comparisons i
  let m' := { m with comparisons := cached }
  let valid := (List.range m.n).filter fun i ↦ (m.children i).valid
  { m' with heap := makeHeap m'.heapComparator valid }

/-- `PopCurrentComparison()`: take `current_`, which must be on top, off the heap. -/
def popCurrentComparison : Option (MergingIterator κ ν) :=
  match m.current with
  | some c =>
    if m.heap.head? = some c then some { m with heap := popHeap m.heapComparator m.heap }
    else none
  | none => none

/-- `PushCurrentComparison()`: put `current_` back on the heap if it is still valid, with its
`KeyNum` cached again. -/
def pushCurrentComparison : MergingIterator κ ν :=
  match m.current with
  | some c =>
    match (m.children c).current with
    | some e =>
      let m' := { m with comparisons := Function.update m.comparisons c (keyNum e.1) }
      { m' with heap := pushHeap m'.heapComparator m.heap c }
    | none => m
  | none => m

/-- `FindSmallest()`: the top of the heap, or `NULL`; it asserts the forward direction. -/
def findSmallest : Option (MergingIterator κ ν) :=
  if m.direction = .forward then some { m with current := m.heap.head? } else none

/-- `FindLargest()`: the top of the heap, or `NULL`; it asserts the reverse direction. -/
def findLargest : Option (MergingIterator κ ν) :=
  if m.direction = .reverse then some { m with current := m.heap.head? } else none

/-- The children below `n_` moved by `f`, the others left as they are. -/
def moveChildren (f : ℕ → Cursor (κ × ν) → Cursor (κ × ν)) :
    ℕ → Cursor (κ × ν) :=
  fun i ↦ if i < m.n then f i (m.children i) else m.children i

/-- `SeekToFirst()`. -/
def seekToFirst : Option (MergingIterator κ ν) :=
  ({ m with children := m.moveChildren (fun _ c ↦ c.seekToFirst), direction := .forward }
    |>.reinitializeComparisons keyNum).findSmallest

/-- `SeekToLast()`. -/
def seekToLast : Option (MergingIterator κ ν) :=
  ({ m with children := m.moveChildren (fun _ c ↦ c.seekToLast), direction := .reverse }
    |>.reinitializeComparisons keyNum).findLargest

/-- `Seek(target)`: every child to its first entry at or after the target. -/
def seek (target : κ) : Option (MergingIterator κ ν) :=
  let moved := m.moveChildren fun _ c ↦ c.seek fun e ↦ decide (e.1 < target)
  ({ m with children := moved, direction := .forward }.reinitializeComparisons keyNum).findSmallest

/-- How `Next()` places a child other than `current_` when it turns forward: at the first entry
at or after `key()`, and one further if that entry has the key itself. -/
def afterKey (k : κ) (c : Cursor (κ × ν)) : Cursor (κ × ν) :=
  let c' := c.seek fun e ↦ decide (e.1 < k)
  if c'.valid && c'.current.map Prod.fst == some k then c'.next else c'

/-- How `Prev()` places a child other than `current_` when it turns backward: one before the
first entry at or after `key()`, or at its last entry if there is none. -/
def beforeKey (k : κ) (c : Cursor (κ × ν)) : Cursor (κ × ν) :=
  let c' := c.seek fun e ↦ decide (e.1 < k)
  if c'.valid then c'.prev else c'.seekToLast

/-- `Next()`; `none` where an assert fails. -/
def next : Option (MergingIterator κ ν) := do
  let c ← m.current
  let e ← (m.children c).current
  let moved := m.moveChildren fun i ch ↦ if i = c then ch else afterKey e.1 ch
  let m₁ := if m.direction = .forward then m else
    { m with children := moved, direction := .forward }.reinitializeComparisons keyNum
  let m₂ ← m₁.popCurrentComparison
  let m₃ := { m₂ with children := Function.update m₂.children c (m₂.children c).next }
  (m₃.pushCurrentComparison keyNum).findSmallest

/-- `Prev()`; `none` where an assert fails. -/
def prev : Option (MergingIterator κ ν) := do
  let c ← m.current
  let e ← (m.children c).current
  let moved := m.moveChildren fun i ch ↦ if i = c then ch else beforeKey e.1 ch
  let m₁ := if m.direction = .reverse then m else
    { m with children := moved, direction := .reverse }.reinitializeComparisons keyNum
  let m₂ ← m₁.popCurrentComparison
  let m₃ := { m₂ with children := Function.update m₂.children c (m₂.children c).prev }
  (m₃.pushCurrentComparison keyNum).findLargest

/-- `Valid()`: `current_ != NULL`. -/
def valid : Bool :=
  m.current.isSome

/-- `key()` and `value()`: the entry of `current_`. -/
def entry : Option (κ × ν) :=
  m.current.bind fun c ↦ (m.children c).current

/-! ## The heap discipline -/

/-- The order of the heap as a rank: the cached `KeyNum`, then the key. -/
def rank (i : ℕ) : Lex (ℕ × WithBot κ) :=
  toLex ((m.comparisons i).toNat, m.childKey i)

theorem keyLess_eq (i j : ℕ) : m.keyLess i j = decide (m.rank i < m.rank j) := by
  simp [keyLess, rank, Prod.Lex.toLex_lt_toLex, UInt64.lt_iff_toNat_lt, ← UInt64.toNat_inj]

theorem heapComparator_of_forward (h : m.direction = .forward) (i j : ℕ) :
    m.heapComparator i j = decide (OrderDual.toDual (m.rank i) < OrderDual.toDual (m.rank j)) := by
  simp only [heapComparator, if_pos h, keyLess_eq, OrderDual.toDual_lt_toDual]

theorem heapComparator_of_reverse (h : m.direction = .reverse) (i j : ℕ) :
    m.heapComparator i j = decide (m.rank i < m.rank j) := by
  rw [heapComparator, if_neg (by simp [h]), keyLess_eq]

/-- The heap compares two children by their cursors and cached `KeyNum`s only. -/
theorem heapComparator_congr (m' : MergingIterator κ ν) (hdir : m'.direction = m.direction)
    {i j : ℕ} (hi : m'.children i = m.children i) (hci : m'.comparisons i = m.comparisons i)
    (hj : m'.children j = m.children j) (hcj : m'.comparisons j = m.comparisons j) :
    m'.heapComparator i j = m.heapComparator i j := by
  unfold heapComparator keyLess childKey
  rw [hdir, hi, hci, hj, hcj]

theorem isHeap_makeHeap (l : List ℕ) : IsHeap m.heapComparator (makeHeap m.heapComparator l) := by
  cases hd : m.direction
  · exact BinaryHeap.isHeap_makeHeap (heapComparator_of_forward m hd) l
  · exact BinaryHeap.isHeap_makeHeap (heapComparator_of_reverse m hd) l

theorem isHeap_popHeap {l : List ℕ} (h : IsHeap m.heapComparator l) :
    IsHeap m.heapComparator (popHeap m.heapComparator l) := by
  cases hd : m.direction
  · exact h.popHeap (heapComparator_of_forward m hd)
  · exact h.popHeap (heapComparator_of_reverse m hd)

theorem isHeap_pushHeap {l : List ℕ} (h : IsHeap m.heapComparator l) (c : ℕ) :
    IsHeap m.heapComparator (pushHeap m.heapComparator l c) := by
  cases hd : m.direction
  · exact h.pushHeap (heapComparator_of_forward m hd) c
  · exact h.pushHeap (heapComparator_of_reverse m hd) c

/-- What the code keeps of `heap_`: a heap of exactly the valid children, each with the `KeyNum`
of its key cached. -/
structure HeapOk : Prop where
  /-- `heap_` is a heap for `HeapComparator`. -/
  isHeap : IsHeap m.heapComparator m.heap
  /-- No child is in it twice. -/
  nodup : m.heap.Nodup
  /-- It holds the valid children. -/
  mem : ∀ i, i ∈ m.heap ↔ i < m.n ∧ (m.children i).valid = true
  /-- Their `comparisons_` are the `KeyNum` of their keys. -/
  cached : ∀ i ∈ m.heap, m.keyNumOf keyNum i = m.comparisons i

@[simp] theorem children_reinitializeComparisons :
    (m.reinitializeComparisons keyNum).children = m.children := rfl

@[simp] theorem n_reinitializeComparisons : (m.reinitializeComparisons keyNum).n = m.n := rfl

@[simp] theorem direction_reinitializeComparisons :
    (m.reinitializeComparisons keyNum).direction = m.direction := rfl

@[simp] theorem current_reinitializeComparisons :
    (m.reinitializeComparisons keyNum).current = m.current := rfl

theorem heap_reinitializeComparisons : (m.reinitializeComparisons keyNum).heap =
    makeHeap (m.reinitializeComparisons keyNum).heapComparator
      ((List.range m.n).filter fun i ↦ (m.children i).valid) := rfl

omit [LinearOrder κ] in
theorem keyNumOf_of_current {i : ℕ} {e : κ × ν} (he : (m.children i).current = some e) :
    m.keyNumOf keyNum i = keyNum e.1 := by
  simp [keyNumOf, he]

/-- `ReinitializeComparisons()` makes the heap anew, wherever the children are. -/
theorem heapOk_reinitializeComparisons : HeapOk keyNum (m.reinitializeComparisons keyNum) := by
  have hperm := perm_makeHeap (m.reinitializeComparisons keyNum).heapComparator
    ((List.range m.n).filter fun i ↦ (m.children i).valid)
  have hmem : ∀ i, i ∈ (m.reinitializeComparisons keyNum).heap ↔
      i < m.n ∧ (m.children i).valid = true := fun i ↦ by
    rw [heap_reinitializeComparisons, hperm.mem_iff, List.mem_filter, List.mem_range]
  refine ⟨?_, ?_, hmem, ?_⟩
  · rw [heap_reinitializeComparisons]
    exact isHeap_makeHeap _ _
  · rw [heap_reinitializeComparisons]
    exact hperm.nodup_iff.2 (List.nodup_range.filter _)
  intro i hi
  obtain ⟨hin, hvalid⟩ := (hmem i).1 hi
  obtain ⟨e, he⟩ := (m.children i).exists_current_of_valid hvalid
  simp [reinitializeComparisons, keyNumOf, he, hin]

theorem popCurrentComparison_eq {c : ℕ} (hc : m.current = some c) (htop : m.heap.head? = some c) :
    m.popCurrentComparison = some { m with heap := popHeap m.heapComparator m.heap } := by
  simp [popCurrentComparison, hc, htop]

/-- `PushCurrentComparison()` puts `current_` back where the heap holds every other valid child. -/
theorem heapOk_pushCurrentComparison {c : ℕ} (hc : m.current = some c) (hcn : c < m.n)
    (hheap : IsHeap m.heapComparator m.heap) (hnodup : m.heap.Nodup)
    (hmem : ∀ i, i ∈ m.heap ↔ (i < m.n ∧ (m.children i).valid = true) ∧ i ≠ c)
    (hcached : ∀ i ∈ m.heap, m.keyNumOf keyNum i = m.comparisons i) :
    HeapOk keyNum (m.pushCurrentComparison keyNum) := by
  have hcnot : c ∉ m.heap := fun h ↦ ((hmem c).1 h).2 rfl
  have hne : ∀ i ∈ m.heap, i ≠ c := fun i hi hic ↦ hcnot (hic ▸ hi)
  cases hx : (m.children c).current with
  | none =>
    -- `current_` ran off its sequence: it stays out of the heap
    have hinvalid : (m.children c).valid = false := (Cursor.current_eq_none_iff _).1 hx
    have hpush : m.pushCurrentComparison keyNum = m := by simp [pushCurrentComparison, hc, hx]
    rw [hpush]
    refine ⟨hheap, hnodup, fun i ↦ ?_, hcached⟩
    rw [hmem i]
    by_cases hic : i = c
    · subst hic
      simp [hinvalid]
    · simp [hic]
  | some e =>
    have hvalid : (m.children c).valid = true := by
      rw [← Bool.not_eq_false, ← Cursor.current_eq_none_iff, hx]
      simp
    let m' : MergingIterator κ ν :=
      { m with comparisons := Function.update m.comparisons c (keyNum e.1) }
    have hpush : m.pushCurrentComparison keyNum =
        { m' with heap := pushHeap m'.heapComparator m.heap c } := by
      simp [pushCurrentComparison, hc, hx, m']
    -- only the comparison of `current_`, which is off the heap, has changed
    have hheap' : IsHeap m'.heapComparator m.heap := hheap.congr fun i hi j hj ↦
      (heapComparator_congr m m' rfl rfl (by simp [m', hne i hi]) rfl (by simp [m', hne j hj])).symm
    have hperm := perm_pushHeap m'.heapComparator m.heap c
    rw [hpush]
    refine ⟨isHeap_pushHeap m' hheap' c, ?_, fun i ↦ ?_, fun i hi ↦ ?_⟩
    · exact hperm.nodup_iff.2 (List.nodup_append.2 ⟨hnodup, by simp,
        fun i hi j hj hij ↦ hcnot (by simp_all)⟩)
    · show i ∈ pushHeap m'.heapComparator m.heap c ↔ i < m.n ∧ (m.children i).valid = true
      rw [hperm.mem_iff, List.mem_append, List.mem_singleton, hmem i]
      by_cases hic : i = c
      · subst hic
        simp [hcn, hvalid]
      · simp [hic]
    · replace hi : i ∈ m.heap ∨ i = c := by
        simpa using hperm.mem_iff.1 hi
      by_cases hic : i = c
      · subst hic
        simp [keyNumOf, m', hx]
      · have := hcached i (hi.resolve_right hic)
        simp only [keyNumOf] at this ⊢
        simpa [m', hic] using this

/-- `PopCurrentComparison()` takes `current_` off the top and leaves a heap of the others. -/
theorem HeapOk.pop (hok : HeapOk keyNum m) {c : ℕ} (htop : m.heap.head? = some c) :
    IsHeap m.heapComparator (popHeap m.heapComparator m.heap) ∧
      (popHeap m.heapComparator m.heap).Nodup ∧
      ∀ i, i ∈ popHeap m.heapComparator m.heap ↔
        (i < m.n ∧ (m.children i).valid = true) ∧ i ≠ c := by
  obtain ⟨tl, hcons⟩ : ∃ tl, m.heap = c :: tl := by
    cases hh : m.heap with
    | nil => simp [hh] at htop
    | cons d tl =>
      rw [hh, List.head?_cons, Option.some.injEq] at htop
      exact ⟨tl, by rw [htop]⟩
  have hperm : (popHeap m.heapComparator m.heap).Perm tl := by
    rw [hcons]
    exact perm_popHeap m.heapComparator (List.cons_ne_nil c tl)
  have hnd := hok.nodup
  rw [hcons, List.nodup_cons] at hnd
  refine ⟨isHeap_popHeap m hok.isHeap, hperm.nodup_iff.2 hnd.2, fun i ↦ ?_⟩
  rw [hperm.mem_iff, ← hok.mem i, hcons, List.mem_cons]
  constructor
  · intro hi
    exact ⟨Or.inr hi, fun hic ↦ hnd.1 (hic ▸ hi)⟩
  · rintro ⟨hi | hi, hic⟩
    · exact absurd hi hic
    · exact hi

/-- **The step of `Next()` and `Prev()` on the heap.** Popping `current_` from the top, moving
it to `x` and pushing it back leaves a heap of exactly the valid children. -/
theorem HeapOk.popMovePush (hok : HeapOk keyNum m) {c : ℕ} (hc : m.current = some c)
    (htop : m.heap.head? = some c) (x : Cursor (κ × ν)) :
    HeapOk keyNum (MergingIterator.pushCurrentComparison keyNum
      { m with heap := popHeap m.heapComparator m.heap,
               children := Function.update m.children c x }) := by
  obtain ⟨hheap, hnodup, hmem⟩ := hok.pop keyNum m htop
  let m₃ : MergingIterator κ ν := { m with heap := popHeap m.heapComparator m.heap,
                                           children := Function.update m.children c x }
  have hcn : c < m.n := ((hok.mem c).1 (List.mem_of_mem_head? htop)).1
  have hne : ∀ i ∈ popHeap m.heapComparator m.heap, i ≠ c := fun i hi ↦ ((hmem i).1 hi).2
  refine heapOk_pushCurrentComparison keyNum _ hc hcn ?_ hnodup (fun i ↦ ?_) (fun i hi ↦ ?_)
  · -- the other children have not moved
    exact hheap.congr fun i hi j hj ↦ (heapComparator_congr m m₃ rfl
      (by simp [m₃, hne i hi]) rfl (by simp [m₃, hne j hj]) rfl).symm
  · by_cases hic : i = c
    · subst hic
      exact ⟨fun h ↦ absurd rfl (hne i h), fun h ↦ absurd rfl h.2⟩
    · simpa [hic] using hmem i
  · have := hok.cached i ((hok.mem i).2 ((hmem i).1 hi).1)
    simpa [keyNumOf, hne i hi] using this

end MergingIterator

/-- The iterator `NewMergingIterator` returns. -/
inductive Merged (κ ν : Type)
  /-- `NewEmptyIterator()`, for no child. -/
  | empty
  /-- The one child itself. -/
  | single (c : Cursor (κ × ν))
  /-- A `MergingIterator`. -/
  | merging (m : MergingIterator κ ν)

variable {κ ν : Type} [LinearOrder κ] (keyNum : κ → UInt64)

/-- `NewMergingIterator(cmp, list, n)` (and `NewMergingIteratorForFiles`, which builds the same):
the constructor of `MergingIterator` stores the children, leaves `current_` `NULL` and calls
`ReinitializeComparisons()`. -/
def newMergingIterator (list : List (Cursor (κ × ν))) : Merged κ ν :=
  match list with
  | [] => .empty
  | [c] => .single c
  | list => .merging <| MergingIterator.reinitializeComparisons keyNum
    ⟨list.length, fun i ↦ list.getD i ⟨[], 0⟩, fun _ ↦ 0, [], none, .forward⟩

namespace Merged

/-- A call on the iterator; `none` where an assert fails (`Next()` and `Prev()` of the empty
iterator assert `false`, and a child's assert `Valid()`). -/
def step : Cursor.Op κ → Merged κ ν → Option (Merged κ ν)
  | .next, .empty | .prev, .empty => none
  | _, .empty => some .empty
  | op, .single c => (c.step op).map .single
  | .seekToFirst, .merging m => (m.seekToFirst keyNum).map .merging
  | .seekToLast, .merging m => (m.seekToLast keyNum).map .merging
  | .seek t, .merging m => (m.seek keyNum t).map .merging
  | .next, .merging m => (m.next keyNum).map .merging
  | .prev, .merging m => (m.prev keyNum).map .merging

/-- A run of calls. -/
def run (ops : List (Cursor.Op κ)) (it : Merged κ ν) : Option (Merged κ ν) :=
  ops.foldlM (fun it op ↦ step keyNum op it) it

/-- `Valid()`; the empty iterator is never valid. -/
def valid : Merged κ ν → Bool
  | .empty => false
  | .single c => c.valid
  | .merging m => m.valid

/-- `key()` and `value()`, for a valid iterator. -/
def entry : Merged κ ν → Option (κ × ν)
  | .empty => none
  | .single c => c.current
  | .merging m => m.entry

end Merged

end PebblesDB.Table.Merger
