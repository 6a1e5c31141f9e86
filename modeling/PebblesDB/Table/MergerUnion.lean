import Mathlib.Data.List.GetD
import PebblesDB.Lib.SortedUnion
import PebblesDB.Table.Merger

/-!
# Where the children of a merging iterator stand

Children over strictly increasing sequences with no key in two of them (`Separate`): this file
says where they stand while the merging iterator walks the sorted union of their sequences, and
which child is then on top of the heap. `PebblesDB.Table.MergerWalk` uses it to show that the
iterator answers every run of calls as a cursor over the union does
(`newMergingIterator_sortedUnion`).

While the merging iterator is at position `q` of the union, forwards each child stands at the
first entry it owns from `q` on, and in reverse at the last entry it owns up to `q`: at `passed`
or `passed - 1`, the count of its entries before a position of the union. The child that owns the
entry at `q` is then on top of the heap in either direction (`top_of_forward`,
`top_of_reverse`), since every other valid child stands at a key on the far side of that entry's
and `KeyNum` is monotone. `Next` and `Prev` move only that child, by one entry; a change of
direction first moves every other child to the other side of `key()`, which for a child that does
not own `key()` leaves it at the same count (`afterKey_pos`, `beforeKey_pos`).
-/

namespace PebblesDB.Table.Merger

open BinaryHeap SortedUnion

variable {κ ν : Type} [LinearOrder κ]

/-! ## The walk over the union -/

section Walk

variable (es : List (List (κ × ν)))

/-- How many entries of child `i` lie before position `q` of the union. -/
def passed (i q : ℕ) : ℕ :=
  (((sortedUnion es).take q).filter (owns (es.getD i []))).length

@[simp] theorem passed_zero (i : ℕ) : passed es i 0 = 0 := by
  simp [passed]

/-- One position further, a child has passed one entry more if it owns the entry there. -/
theorem passed_succ (i : ℕ) {q : ℕ} (hq : q < (sortedUnion es).length) :
    passed es i (q + 1) =
      passed es i q + if owns (es.getD i []) (sortedUnion es)[q] then 1 else 0 :=
  length_filter_take_succ _ _ hq

variable {es}

omit [LinearOrder κ] in
theorem getD_mem {i : ℕ} (hi : i < es.length) : es.getD i [] ∈ es := by
  rw [List.getD_eq_getElem _ _ hi]
  exact List.getElem_mem hi

/-- The entry at each position of the union is owned by a child. -/
theorem exists_owner {q : ℕ} (hq : q < (sortedUnion es).length) :
    ∃ o < es.length, owns (es.getD o []) (sortedUnion es)[q] = true := by
  obtain ⟨l, hl, he⟩ := mem_sortedUnion.1 (List.getElem_mem hq)
  obtain ⟨o, ho, rfl⟩ := List.getElem_of_mem hl
  refine ⟨o, ho, ?_⟩
  rw [List.getD_eq_getElem _ _ ho]
  exact owns_of_mem he

variable (hsep : Separate es)
include hsep

theorem passed_length {i : ℕ} (hi : i < es.length) :
    passed es i (sortedUnion es).length = (es.getD i []).length := by
  rw [passed, length_filter_take_length, hsep.filter_owns (getD_mem hi)]

/-- Only one child owns the entry at a position of the union. -/
theorem owner_unique {q : ℕ} (hq : q < (sortedUnion es).length) {i j : ℕ} (hi : i < es.length)
    (hj : j < es.length) (hown_i : owns (es.getD i []) (sortedUnion es)[q] = true)
    (hown_j : owns (es.getD j []) (sortedUnion es)[q] = true) : i = j := by
  have hmi := hsep.mem_of_owns (getD_mem hi) (List.getElem_mem hq) hown_i
  have hmj := hsep.mem_of_owns (getD_mem hj) (List.getElem_mem hq) hown_j
  rw [List.getD_eq_getElem _ _ hi] at hmi
  rw [List.getD_eq_getElem _ _ hj] at hmj
  by_contra hij
  rcases Nat.lt_or_gt_of_ne hij with hij | hij
  · exact List.pairwise_iff_getElem.1 hsep.disjoint i j hi hj hij _ hmi _ hmj rfl
  · exact List.pairwise_iff_getElem.1 hsep.disjoint j i hj hi hij _ hmj _ hmi rfl

/-- Forwards, a child at `passed i q` reads the first entry it owns from `q` on. -/
theorem current_of_passed {i q : ℕ} (hi : i < es.length) {c : Cursor (κ × ν)}
    (hc : c.entries = es.getD i []) (hpos : c.pos = passed es i q) :
    c.current = (((sortedUnion es).drop q).filter (owns (es.getD i []))).head? := by
  have h := getElem?_filter_length_take (owns (es.getD i [])) (sortedUnion es) q
  rw [hsep.filter_owns (getD_mem hi)] at h
  rw [Cursor.current, if_pos (by omega), hpos, Int.toNat_natCast, hc]
  exact h

/-- In reverse, a child at `passed i q - 1` reads the last entry it owns before `q`. -/
theorem current_of_passed_sub_one {i q : ℕ} (hi : i < es.length) {c : Cursor (κ × ν)}
    (hc : c.entries = es.getD i []) (hpos : c.pos = passed es i q - 1) :
    c.current = (((sortedUnion es).take q).filter (owns (es.getD i []))).getLast? := by
  have hlen : passed es i q = (((sortedUnion es).take q).filter (owns (es.getD i []))).length :=
    rfl
  rcases Nat.eq_zero_or_pos (passed es i q) with h0 | h0
  · -- the child owns nothing before `q`: it stands before its first entry
    have hnil : ((sortedUnion es).take q).filter (owns (es.getD i [])) = [] :=
      List.eq_nil_of_length_eq_zero (hlen ▸ h0)
    rw [hnil, Cursor.current, if_neg (by omega)]
    rfl
  · have h := getElem?_filter_length_take_sub_one (owns (es.getD i [])) (sortedUnion es) q
      (hlen ▸ h0)
    rw [hsep.filter_owns (getD_mem hi)] at h
    rw [Cursor.current, if_pos (by omega), hc, ← h]
    congr 1
    omega

omit hsep in
/-- Forwards, the owner of the entry at `q` reads that entry... -/
theorem head?_filter_drop_of_owns {l : List (κ × ν)} {q : ℕ} (hq : q < (sortedUnion es).length)
    (hown : owns l (sortedUnion es)[q] = true) :
    (((sortedUnion es).drop q).filter (owns l)).head? = some (sortedUnion es)[q] := by
  rw [List.drop_eq_getElem_cons hq, List.filter_cons_of_pos hown, List.head?_cons]

/-- ... and every other child an entry past it. -/
theorem lt_of_head?_filter_drop {l : List (κ × ν)} {q : ℕ} (hq : q < (sortedUnion es).length)
    (hown : owns l (sortedUnion es)[q] = false) {e : κ × ν}
    (he : (((sortedUnion es).drop q).filter (owns l)).head? = some e) :
    (sortedUnion es)[q].1 < e.1 := by
  rw [List.drop_eq_getElem_cons hq, List.filter_cons_of_neg (by simp [hown])] at he
  exact lt_of_mem_drop hsep.pairwise_sortedUnion hq
    (List.mem_of_mem_filter (List.mem_of_mem_head? he))

omit hsep in
/-- In reverse, the owner of the entry at `q` reads that entry... -/
theorem getLast?_filter_take_of_owns {l : List (κ × ν)} {q : ℕ}
    (hq : q < (sortedUnion es).length) (hown : owns l (sortedUnion es)[q] = true) :
    (((sortedUnion es).take (q + 1)).filter (owns l)).getLast? = some (sortedUnion es)[q] := by
  rw [List.take_add_one, List.getElem?_eq_getElem hq, Option.toList_some, List.filter_append,
    List.filter_singleton, hown]
  simp

/-- ... and every other child an entry before it. -/
theorem lt_of_getLast?_filter_take {l : List (κ × ν)} {q : ℕ} (hq : q < (sortedUnion es).length)
    (hown : owns l (sortedUnion es)[q] = false) {e : κ × ν}
    (he : (((sortedUnion es).take (q + 1)).filter (owns l)).getLast? = some e) :
    e.1 < (sortedUnion es)[q].1 := by
  rw [List.take_add_one, List.getElem?_eq_getElem hq, Option.toList_some, List.filter_append,
    List.filter_singleton, hown, cond_false, List.append_nil] at he
  exact lt_of_mem_take hsep.pairwise_sortedUnion hq
    (List.mem_of_mem_filter (List.mem_of_getLast? he))

end Walk

/-! ## Where the children stand -/

section Placed

variable (es : List (List (κ × ν))) (m : MergingIterator κ ν)

/-- The children of `m` are cursors over the sequences `es`. -/
structure Shape : Prop where
  /-- One child per sequence. -/
  n_eq : m.n = es.length
  /-- Child `i` is a cursor over sequence `i`. -/
  entries : ∀ i < es.length, (m.children i).entries = es.getD i []

/-- Forwards at position `q`: every child at the first entry it owns from `q` on. -/
def PlacedAfter (q : ℕ) : Prop :=
  ∀ i < es.length, (m.children i).pos = passed es i q

/-- In reverse before position `q`: every child at the last entry it owns before `q`. -/
def PlacedBefore (q : ℕ) : Prop :=
  ∀ i < es.length, (m.children i).pos = passed es i q - 1

variable {es m}

/-- Forwards past the end of the union, no child is valid. -/
theorem valid_eq_false_of_placedAfter (hsep : Separate es) (hshape : Shape es m)
    (h : PlacedAfter es m (sortedUnion es).length) {i : ℕ} (hi : i < es.length) :
    (m.children i).valid = false := by
  rw [Cursor.valid_eq_false_iff, h i hi, hshape.entries i hi, passed_length hsep hi]
  omega

/-- In reverse before the start of the union, no child is valid. -/
theorem valid_eq_false_of_placedBefore (h : PlacedBefore es m 0) {i : ℕ} (hi : i < es.length) :
    (m.children i).valid = false := by
  rw [Cursor.valid_eq_false_iff, h i hi, passed_zero]
  omega

variable (keyNum : κ → UInt64)

/-- With no valid child the heap is empty. -/
theorem heap_eq_nil (hshape : Shape es m) (hok : MergingIterator.HeapOk keyNum m)
    (h : ∀ i < es.length, (m.children i).valid = false) : m.heap = [] := by
  refine List.eq_nil_iff_forall_not_mem.2 fun i hi ↦ ?_
  obtain ⟨hin, hvalid⟩ := (hok.mem i).1 hi
  rw [h i (hshape.n_eq ▸ hin)] at hvalid
  exact Bool.false_ne_true hvalid

variable {keyNum}

/-- A child in the heap ranks by the `KeyNum` of its key and the key. -/
theorem rank_of_current (hok : MergingIterator.HeapOk keyNum m) {i : ℕ} (hi : i ∈ m.heap)
    {e : κ × ν} (he : (m.children i).current = some e) :
    m.rank i = toLex ((keyNum e.1).toNat, (e.1 : WithBot κ)) := by
  rw [MergingIterator.rank, ← hok.cached i hi, MergingIterator.keyNumOf_of_current keyNum m he]
  simp [MergingIterator.childKey, he]
  rfl

omit [LinearOrder κ] in
/-- With `KeyNum` monotone, the rank orders keys as the comparator does. -/
theorem toLex_lt_of_lt [LinearOrder κ] (hmono : ∀ ⦃a b : κ⦄, a ≤ b → keyNum a ≤ keyNum b)
    {a b : κ} (hab : a < b) :
    toLex ((keyNum a).toNat, (a : WithBot κ)) < toLex ((keyNum b).toNat, (b : WithBot κ)) := by
  rw [Prod.Lex.toLex_lt_toLex]
  rcases Nat.lt_or_eq_of_le (UInt64.le_iff_toNat_le.1 (hmono hab.le)) with h | h
  · exact Or.inl h
  · exact Or.inr ⟨h, WithBot.coe_lt_coe.2 hab⟩

variable (hsep : Separate es) (hmono : ∀ ⦃a b : κ⦄, a ≤ b → keyNum a ≤ keyNum b)
  (hshape : Shape es m) (hok : MergingIterator.HeapOk keyNum m)
include hsep hmono hshape hok

/-- **Forwards the owner of the entry at `q` is on top of the heap.** Every other valid child
stands at a larger key. -/
theorem top_of_forward (hdir : m.direction = .forward) {q : ℕ} (hplaced : PlacedAfter es m q)
    (hq : q < (sortedUnion es).length) {o : ℕ} (ho : o < es.length)
    (hown : owns (es.getD o []) (sortedUnion es)[q] = true) : m.heap.head? = some o := by
  have hcur : ∀ i < es.length, (m.children i).current =
      (((sortedUnion es).drop q).filter (owns (es.getD i []))).head? := fun i hi ↦
    current_of_passed hsep hi (hshape.entries i hi) (hplaced i hi)
  have hco : (m.children o).current = some (sortedUnion es)[q] :=
    (hcur o ho).trans (head?_filter_drop_of_owns hq hown)
  have hmem : o ∈ m.heap :=
    (hok.mem o).2 ⟨hshape.n_eq ▸ ho, (m.children o).valid_of_current hco⟩
  refine IsHeap.head?_eq (MergingIterator.heapComparator_of_forward m hdir) hok.isHeap hmem
    fun y hy hyo ↦ ?_
  obtain ⟨hyn, hyv⟩ := (hok.mem y).1 hy
  rw [hshape.n_eq] at hyn
  obtain ⟨e, he⟩ := (m.children y).exists_current_of_valid hyv
  -- `y` does not own the entry at `q`, so it reads a later one
  have hown_y : owns (es.getD y []) (sortedUnion es)[q] = false :=
    Bool.eq_false_iff.2 fun h ↦ hyo (owner_unique hsep hq hyn ho h hown)
  have hlt := lt_of_head?_filter_drop hsep hq hown_y ((hcur y hyn).symm.trans he)
  rw [OrderDual.toDual_lt_toDual, rank_of_current hok hy he, rank_of_current hok hmem hco]
  exact toLex_lt_of_lt hmono hlt

/-- **In reverse the owner of the entry at `q` is on top of the heap.** Every other valid child
stands at a smaller key. -/
theorem top_of_reverse (hdir : m.direction = .reverse) {q : ℕ}
    (hplaced : PlacedBefore es m (q + 1)) (hq : q < (sortedUnion es).length) {o : ℕ}
    (ho : o < es.length) (hown : owns (es.getD o []) (sortedUnion es)[q] = true) :
    m.heap.head? = some o := by
  have hcur : ∀ i < es.length, (m.children i).current =
      (((sortedUnion es).take (q + 1)).filter (owns (es.getD i []))).getLast? := fun i hi ↦
    current_of_passed_sub_one hsep hi (hshape.entries i hi) (hplaced i hi)
  have hco : (m.children o).current = some (sortedUnion es)[q] :=
    (hcur o ho).trans (getLast?_filter_take_of_owns hq hown)
  have hmem : o ∈ m.heap :=
    (hok.mem o).2 ⟨hshape.n_eq ▸ ho, (m.children o).valid_of_current hco⟩
  refine IsHeap.head?_eq (MergingIterator.heapComparator_of_reverse m hdir) hok.isHeap hmem
    fun y hy hyo ↦ ?_
  obtain ⟨hyn, hyv⟩ := (hok.mem y).1 hy
  rw [hshape.n_eq] at hyn
  obtain ⟨e, he⟩ := (m.children y).exists_current_of_valid hyv
  -- `y` does not own the entry at `q`, so it reads an earlier one
  have hown_y : owns (es.getD y []) (sortedUnion es)[q] = false :=
    Bool.eq_false_iff.2 fun h ↦ hyo (owner_unique hsep hq hyn ho h hown)
  have hlt := lt_of_getLast?_filter_take hsep hq hown_y ((hcur y hyn).symm.trans he)
  rw [rank_of_current hok hy he, rank_of_current hok hmem hco]
  exact toLex_lt_of_lt hmono hlt

end Placed

end PebblesDB.Table.Merger
