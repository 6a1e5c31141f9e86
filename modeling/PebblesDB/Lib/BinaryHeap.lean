import Mathlib

/-!
# Binary heaps in an array

A binary max-heap laid out in an array, as `<algorithm>`'s `make_heap`, `push_heap` and
`pop_heap` keep one under a comparison `lt`: the parent of position `i > 0` is `(i - 1) / 2`, and
no element sorts above its parent. The operations move elements the textbook way (`siftUp` after
an element is appended, `siftDown` after the last element replaces the top). The standard fixes
their result only up to the heap property, and the lemmas use nothing else.

For a comparison by rank into a linear order, every operation keeps the heap property
(`IsHeap.pushHeap`, `IsHeap.popHeap`, `isHeap_makeHeap`) and the elements (`perm_pushHeap`,
`perm_popHeap`, `perm_makeHeap`), and the top of a heap ranks at least as high as every element
(`IsHeap.rank_le_top`). While an element moves, the heap property holds everywhere but at that
element, and the element's parent ranks above its children: `UpInv` going up, `DownInv` going
down.
-/

namespace BinaryHeap

variable {α : Type*} (lt : α → α → Bool)

/-- No element of `a` sorts above its parent. -/
def IsHeap (a : List α) : Prop :=
  ∀ j (hj : j < a.length), 0 < j → lt a[(j - 1) / 2] a[j] = false

/-- Sift the element at `i` up, swapping it with its parent while it sorts above it. Each round
halves the position, so `i` rounds are enough. -/
def siftUp : ℕ → List α → ℕ → List α
  | 0, a, _ => a
  | fuel + 1, a, i =>
    if h : 0 < i ∧ i < a.length then
      if lt a[(i - 1) / 2] a[i] then siftUp fuel (a.swap ((i - 1) / 2) i) ((i - 1) / 2) else a
    else a

/-- Of the children of `i`, the one that sorts higher: the left one on a tie or when alone. -/
def largerChild (a : List α) (i : ℕ) : ℕ :=
  if h : 2 * i + 2 < a.length then
    if lt a[2 * i + 1] a[2 * i + 2] then 2 * i + 2 else 2 * i + 1
  else 2 * i + 1

theorem largerChild_ge (a : List α) (i : ℕ) : 2 * i + 1 ≤ largerChild lt a i := by
  unfold largerChild
  split_ifs <;> omega

theorem largerChild_le (a : List α) (i : ℕ) : largerChild lt a i ≤ 2 * i + 2 := by
  unfold largerChild
  split_ifs <;> omega

theorem largerChild_lt_length {a : List α} {i : ℕ} (h : 2 * i + 1 < a.length) :
    largerChild lt a i < a.length := by
  unfold largerChild
  split_ifs <;> omega

/-- Sift the element at `i` down, swapping it with its larger child while that child sorts above
it. Each round moves at least one position down, so `a.length` rounds are enough. -/
def siftDown : ℕ → List α → ℕ → List α
  | 0, a, _ => a
  | fuel + 1, a, i =>
    if h : i < a.length ∧ largerChild lt a i < a.length then
      if lt a[i] a[largerChild lt a i] then
        siftDown fuel (a.swap i (largerChild lt a i)) (largerChild lt a i)
      else a
    else a

/-- `push_heap` on `a` with `x` appended. -/
def pushHeap (a : List α) (x : α) : List α :=
  siftUp lt a.length (a ++ [x]) a.length

/-- `pop_heap` followed by dropping the last position: the last element takes the top's place
and sinks. -/
def popHeap (a : List α) : List α :=
  siftDown lt a.length (a.swap 0 (a.length - 1)).dropLast 0

/-- `make_heap`, by pushing the elements in turn. -/
def makeHeap (a : List α) : List α :=
  a.foldl (pushHeap lt) []

/-! ## The elements -/

theorem perm_siftUp (fuel : ℕ) (a : List α) (i : ℕ) : (siftUp lt fuel a i).Perm a := by
  induction fuel generalizing a i with
  | zero => exact List.Perm.refl a
  | succ fuel ih =>
    rw [siftUp]
    split_ifs
    · exact (ih _ _).trans (List.swap_perm a _ _)
    · exact List.Perm.refl a
    · exact List.Perm.refl a

theorem perm_siftDown (fuel : ℕ) (a : List α) (i : ℕ) : (siftDown lt fuel a i).Perm a := by
  induction fuel generalizing a i with
  | zero => exact List.Perm.refl a
  | succ fuel ih =>
    rw [siftDown]
    split_ifs
    · exact (ih _ _).trans (List.swap_perm a _ _)
    · exact List.Perm.refl a
    · exact List.Perm.refl a

theorem perm_pushHeap (a : List α) (x : α) : (pushHeap lt a x).Perm (a ++ [x]) :=
  perm_siftUp lt _ _ _

/-- Popping removes the top. -/
theorem perm_popHeap {a : List α} (ha : a ≠ []) : (popHeap lt a).Perm a.tail := by
  obtain ⟨t, rest, rfl⟩ := List.exists_cons_of_ne_nil ha
  have hlen : ((t :: rest).swap 0 rest.length).length = rest.length + 1 := by simp
  -- the swap puts the top last, so dropping the last position leaves the rest
  have hlast : ((t :: rest).swap 0 rest.length).getLast (List.ne_nil_of_length_pos (by omega)) =
      t := by
    rw [List.getLast_eq_getElem]
    simp
  have hsplit := List.dropLast_concat_getLast (List.ne_nil_of_length_pos (by omega) :
    (t :: rest).swap 0 rest.length ≠ [])
  rw [hlast] at hsplit
  have hperm : List.Perm (((t :: rest).swap 0 rest.length).dropLast ++ [t]) (t :: rest) := by
    rw [hsplit]
    exact List.swap_perm _ _ _
  exact (perm_siftDown lt _ _ _).trans
    ((List.perm_cons t).1 ((List.perm_append_singleton t _).symm.trans hperm))

theorem perm_makeHeap (a : List α) : (makeHeap lt a).Perm a := by
  suffices h : ∀ h : List α, (a.foldl (pushHeap lt) h).Perm (h ++ a) by
    simpa [makeHeap] using h []
  induction a with
  | nil => simp
  | cons x a ih =>
    intro h
    rw [List.foldl_cons]
    refine (ih _).trans ?_
    have := (perm_pushHeap lt h x).append_right a
    simpa using this

/-! ## The heap property, for a comparison by rank -/

section Rank

variable {β : Type*} [LinearOrder β] (rank : α → β)

/-- The heap property everywhere but between `i` and its parent, with the parent of `i` ranking
above the children of `i`: what holds while the element at `i` sifts up. -/
structure UpInv (a : List α) (i : ℕ) : Prop where
  /-- Every other element ranks at most its parent. -/
  heap : ∀ j (hj : j < a.length), 0 < j → j ≠ i → rank a[j] ≤ rank a[(j - 1) / 2]
  /-- The children of `i` rank at most the parent of `i`. -/
  skip : ∀ j (hj : j < a.length) (_ : 0 < i) (_ : 0 < j) (_ : (j - 1) / 2 = i),
    rank a[j] ≤ rank a[(i - 1) / 2]

/-- The heap property everywhere but between `i` and its children, with the parent of `i`
ranking above the children of `i`: what holds while the element at `i` sifts down. -/
structure DownInv (a : List α) (i : ℕ) : Prop where
  /-- Every element not a child of `i` ranks at most its parent. -/
  heap : ∀ j (hj : j < a.length), 0 < j → (j - 1) / 2 ≠ i → rank a[j] ≤ rank a[(j - 1) / 2]
  /-- The children of `i` rank at most the parent of `i`. -/
  skip : ∀ j (hj : j < a.length) (_ : 0 < i) (_ : 0 < j) (_ : (j - 1) / 2 = i),
    rank a[j] ≤ rank a[(i - 1) / 2]

variable {lt} {rank}
variable (hlt : ∀ x y, lt x y = decide (rank x < rank y))
include hlt

theorem isHeap_iff {a : List α} :
    IsHeap lt a ↔ ∀ j (hj : j < a.length), 0 < j → rank a[j] ≤ rank a[(j - 1) / 2] := by
  simp [IsHeap, hlt]

/-- **The top ranks highest.** -/
theorem IsHeap.rank_le_top {a : List α} (h : IsHeap lt a) (h0 : 0 < a.length) {x : α}
    (hx : x ∈ a) : rank x ≤ rank a[0] := by
  obtain ⟨j, hj, rfl⟩ := List.getElem_of_mem hx
  induction j using Nat.strongRecOn with
  | _ j ih =>
    rcases Nat.eq_zero_or_pos j with rfl | hpos
    · exact le_refl _
    · -- up one parent, which is closer to the top
      calc rank a[j] ≤ rank a[(j - 1) / 2] := (isHeap_iff hlt).1 h j hj hpos
        _ ≤ rank a[0] := ih _ (by omega) (by omega) (List.getElem_mem _)

/-- An element that ranks above every other element is on top. -/
theorem IsHeap.head?_eq {a : List α} (h : IsHeap lt a) {x : α} (hx : x ∈ a)
    (hmax : ∀ y ∈ a, y ≠ x → rank y < rank x) : a.head? = some x := by
  have h0 : 0 < a.length := List.length_pos_of_mem hx
  have htop := h.rank_le_top hlt h0 hx
  have hx0 : a[0] = x := by
    by_contra hne
    exact absurd htop (not_le.2 (hmax _ (List.getElem_mem _) hne))
  rw [List.head?_eq_getElem?, List.getElem?_eq_getElem h0, hx0]

omit hlt in
theorem IsHeap.congr {lt' : α → α → Bool} {a : List α} (h : IsHeap lt a)
    (heq : ∀ x ∈ a, ∀ y ∈ a, lt x y = lt' x y) : IsHeap lt' a := by
  intro j hj hpos
  rw [← heq _ (List.getElem_mem _) _ (List.getElem_mem _)]
  exact h j hj hpos

omit hlt in
/-- One round of sifting up: the element swaps with a parent it ranks above. -/
theorem UpInv.swap {a : List α} {i : ℕ} (hinv : UpInv rank a i) (hpos : 0 < i)
    (hi : i < a.length) (hup : rank a[(i - 1) / 2] < rank a[i]) :
    UpInv rank (a.swap ((i - 1) / 2) i) ((i - 1) / 2) := by
  constructor
  · intro j hj hj0 hjp
    simp only [List.length_swap] at hj
    have h1 := hinv.heap j hj hj0
    have h2 := hinv.skip j hj hpos hj0
    have h3 := hinv.heap ((i - 1) / 2)
    simp only [List.getElem_swap]
    split_ifs <;> grind
  · intro j hj hp0 hj0 hjp
    simp only [List.length_swap] at hj
    have h1 := hinv.heap j hj hj0
    have h3 := hinv.heap ((i - 1) / 2) (by omega) hp0 (by omega)
    simp only [List.getElem_swap]
    split_ifs <;> grind

theorem UpInv.isHeap {a : List α} {i : ℕ} (hinv : UpInv rank a i)
    (hi : ∀ (hi : i < a.length), 0 < i → rank a[i] ≤ rank a[(i - 1) / 2]) : IsHeap lt a := by
  refine (isHeap_iff hlt).2 fun j hj hj0 ↦ ?_
  by_cases hji : j = i
  · subst hji
    exact hi hj hj0
  · exact hinv.heap j hj hj0 hji

theorem isHeap_siftUp (fuel : ℕ) (a : List α) (i : ℕ) (hinv : UpInv rank a i)
    (hfuel : i ≤ fuel) : IsHeap lt (siftUp lt fuel a i) := by
  induction fuel generalizing a i with
  | zero =>
    obtain rfl : i = 0 := by omega
    exact hinv.isHeap hlt fun _ h ↦ absurd h (Nat.lt_irrefl 0)
  | succ fuel ih =>
    rw [siftUp]
    split_ifs with h hup
    · -- the element ranks above its parent: swap and go on from the parent
      have hup' : rank a[(i - 1) / 2] < rank a[i] := by simpa [hlt] using hup
      exact ih _ _ (hinv.swap h.1 h.2 hup') (by omega)
    · have hup' : rank a[i] ≤ rank a[(i - 1) / 2] := by simpa [hlt] using hup
      exact hinv.isHeap hlt fun _ _ ↦ hup'
    · exact hinv.isHeap hlt fun hi hpos ↦ absurd ⟨hpos, hi⟩ h

theorem rank_le_largerChild {a : List α} {i j : ℕ} (hj : j < a.length) (hj0 : 0 < j)
    (hji : (j - 1) / 2 = i) (hc : largerChild lt a i < a.length) :
    rank a[j] ≤ rank a[largerChild lt a i] := by
  unfold largerChild at hc ⊢
  split_ifs at hc ⊢ with h2 hlr
  · -- the right child ranks above the left one
    have := (decide_eq_true_iff.1 ((hlt _ _).symm.trans hlr)).le
    obtain rfl | rfl : j = 2 * i + 1 ∨ j = 2 * i + 2 := by omega
    · exact this
    · exact le_refl _
  · have := not_lt.1 (decide_eq_false_iff_not.1 ((hlt _ _).symm.trans (Bool.of_not_eq_true hlr)))
    obtain rfl | rfl : j = 2 * i + 1 ∨ j = 2 * i + 2 := by omega
    · exact le_refl _
    · exact this
  · obtain rfl : j = 2 * i + 1 := by omega
    exact le_refl _

/-- One round of sifting down: the element swaps with its larger child, which ranks above it. -/
theorem DownInv.swap {a : List α} {i : ℕ} (hinv : DownInv rank a i) (h : 2 * i + 1 < a.length)
    (hc : largerChild lt a i < a.length) (hdown : rank a[i] < rank a[largerChild lt a i]) :
    DownInv rank (a.swap i (largerChild lt a i)) (largerChild lt a i) := by
  have hge := largerChild_ge lt a i
  have hle := largerChild_le lt a i
  have hpar : (largerChild lt a i - 1) / 2 = i := by omega
  constructor
  · intro j hj hj0 hjp
    simp only [List.length_swap] at hj
    have h1 := hinv.heap j hj hj0
    have hm := fun hji ↦ rank_le_largerChild hlt hj hj0 hji hc
    have hs := fun hi0 ↦ hinv.skip _ hc hi0 (by omega) hpar
    simp only [List.getElem_swap]
    split_ifs <;> grind
  · intro j hj hp0 hj0 hjp
    simp only [List.length_swap] at hj
    have h1 := hinv.heap j hj hj0 (by omega)
    simp only [List.getElem_swap]
    split_ifs <;> grind

theorem isHeap_siftDown (fuel : ℕ) (a : List α) (i : ℕ) (hinv : DownInv rank a i)
    (hfuel : a.length ≤ i + fuel) : IsHeap lt (siftDown lt fuel a i) := by
  induction fuel generalizing a i with
  | zero =>
    show IsHeap lt a
    exact (isHeap_iff hlt).2 fun j hj hj0 ↦ hinv.heap j hj hj0 (by omega)
  | succ fuel ih =>
    rw [siftDown]
    split_ifs with h hdown
    · -- the larger child ranks above the element: swap and go on from the child
      have hdown' := decide_eq_true_iff.1 ((hlt _ _).symm.trans hdown)
      have hge := largerChild_ge lt a i
      exact ih _ _ (hinv.swap hlt (by omega) h.2 hdown') (by simp only [List.length_swap]; omega)
    · have hc := h.2
      have hdown' : rank a[largerChild lt a i] ≤ rank a[i] :=
        not_lt.1 (decide_eq_false_iff_not.1 ((hlt _ _).symm.trans (Bool.of_not_eq_true hdown)))
      refine (isHeap_iff hlt).2 fun j hj hj0 ↦ ?_
      by_cases hji : (j - 1) / 2 = i
      · have := rank_le_largerChild hlt hj hj0 hji hc
        simp only [hji]
        exact this.trans hdown'
      · exact hinv.heap j hj hj0 hji
    · -- no child: the element is a leaf
      have hge := largerChild_ge lt a i
      have hc : ¬ 2 * i + 1 < a.length := fun h2 ↦
        h ⟨by omega, largerChild_lt_length lt h2⟩
      exact (isHeap_iff hlt).2 fun j hj hj0 ↦ hinv.heap j hj hj0 (by omega)

omit hlt in
theorem isHeap_nil : IsHeap lt ([] : List α) :=
  fun _ hj ↦ absurd hj (Nat.not_lt_zero _)

/-- `push_heap` keeps the heap property. -/
theorem IsHeap.pushHeap {a : List α} (h : IsHeap lt a) (x : α) :
    IsHeap lt (BinaryHeap.pushHeap lt a x) := by
  refine isHeap_siftUp hlt _ _ _ ⟨fun j hj hj0 hji ↦ ?_, fun j hj _ _ hji ↦ ?_⟩ (Nat.le_refl _)
  · simp only [List.length_append, List.length_singleton] at hj
    have hj' : j < a.length := by omega
    simp only [List.getElem_append_left hj', List.getElem_append_left (by omega :
      (j - 1) / 2 < a.length)]
    exact (isHeap_iff hlt).1 h j hj' hj0
  · -- the appended element has no children yet
    simp only [List.length_append, List.length_singleton] at hj
    omega

/-- `pop_heap` keeps the heap property. -/
theorem IsHeap.popHeap {a : List α} (h : IsHeap lt a) : IsHeap lt (BinaryHeap.popHeap lt a) := by
  refine isHeap_siftDown hlt _ _ _ ⟨fun j hj hj0 hji ↦ ?_, fun _ _ h0 ↦ absurd h0 (Nat.lt_irrefl 0)⟩
    (by simp)
  -- below the top, the swap and the drop leave the elements in place
  simp only [List.length_dropLast, List.length_swap] at hj
  simp only [List.getElem_dropLast, List.getElem_swap]
  split_ifs <;> first | omega | exact (isHeap_iff hlt).1 h j (by omega) hj0

theorem isHeap_makeHeap (a : List α) : IsHeap lt (makeHeap lt a) := by
  suffices hfold : ∀ h : List α, IsHeap lt h → IsHeap lt (a.foldl (BinaryHeap.pushHeap lt) h) from
    hfold [] isHeap_nil
  induction a with
  | nil => exact fun _ h ↦ h
  | cons x a ih => exact fun h hh ↦ ih _ (hh.pushHeap hlt x)

end Rank

end BinaryHeap
