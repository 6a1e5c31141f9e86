import Mathlib.Data.List.Basic

/-!
# Ordered sets as sorted lists

A `std::set` under a comparator `lt` keeps its elements in increasing order, one of each class
of equivalent elements, and iterates in that order. As a list: `insert` puts an element before
the first larger one, and leaves the set as it is when an equivalent one is there.

Inserting keeps the list sorted when `lt` is transitive (`sorted_insert`). An element larger than
all is appended (`insert_of_forall_lt`), so inserting the elements of a sorted list one after the
other, in its order, rebuilds it (`foldl_insert`): that is how a set written out in its order
reads back.
-/

namespace OrderedSet

variable {α : Type*} (lt : α → α → Bool)

/-- `std::set::insert`: the elements below `x` stay in front, `x` goes before the first element
above it, and an element neither below nor above `x` keeps its place instead of `x`. -/
def insert (x : α) : List α → List α
  | [] => [x]
  | y :: ys => if lt y x then y :: insert x ys else if lt x y then x :: y :: ys else y :: ys

/-- The elements in strictly increasing order. -/
def Sorted (l : List α) : Prop :=
  l.Pairwise fun a b ↦ lt a b = true

variable {lt}

theorem mem_insert {x z : α} {l : List α} (hz : z ∈ insert lt x l) : z = x ∨ z ∈ l := by
  induction l with
  | nil => simpa [insert] using hz
  | cons y ys ih =>
    simp only [insert] at hz
    split at hz
    · rcases List.mem_cons.1 hz with rfl | hz
      · exact .inr List.mem_cons_self
      · rcases ih hz with rfl | hz
        · exact .inl rfl
        · exact .inr (List.mem_cons_of_mem _ hz)
    · split at hz
      · exact List.mem_cons.1 hz
      · exact .inr hz

/-- Inserting drops nothing. -/
theorem mem_insert_of_mem (x : α) {z : α} {l : List α} (hz : z ∈ l) : z ∈ insert lt x l := by
  induction l with
  | nil => cases hz
  | cons y ys ih =>
    simp only [insert]
    split
    · rcases List.mem_cons.1 hz with rfl | hz
      · exact List.mem_cons_self
      · exact List.mem_cons_of_mem _ (ih hz)
    · split
      · exact List.mem_cons_of_mem _ hz
      · exact hz

/-- The element inserted is in the set, or an element equivalent to it was already. -/
theorem mem_insert_self (x : α) (l : List α) :
    x ∈ insert lt x l ∨ ∃ y ∈ l, lt y x = false ∧ lt x y = false := by
  induction l with
  | nil => exact .inl List.mem_cons_self
  | cons y ys ih =>
    simp only [insert]
    split
    · rcases ih with h | ⟨z, hz, hzx⟩
      · exact .inl (List.mem_cons_of_mem _ h)
      · exact .inr ⟨z, List.mem_cons_of_mem _ hz, hzx⟩
    · split
      · exact .inl List.mem_cons_self
      · rename_i hyx hxy
        exact .inr ⟨y, List.mem_cons_self, by simpa using hyx, by simpa using hxy⟩

/-- An element above all of the set goes last. -/
theorem insert_of_forall_lt {x : α} {l : List α} (h : ∀ y ∈ l, lt y x = true) :
    insert lt x l = l ++ [x] := by
  induction l with
  | nil => rfl
  | cons y ys ih =>
    rw [insert, if_pos (h y List.mem_cons_self),
      ih fun z hz ↦ h z (List.mem_cons_of_mem _ hz), List.cons_append]

section Trans

variable (htrans : ∀ a b c, lt a b = true → lt b c = true → lt a c = true)
include htrans

/-- **Inserting keeps a set sorted.** -/
theorem sorted_insert (x : α) {l : List α} (hl : Sorted lt l) : Sorted lt (insert lt x l) := by
  induction l with
  | nil => exact List.pairwise_singleton _ _
  | cons y ys ih =>
    obtain ⟨hy, hys⟩ := List.pairwise_cons.1 hl
    simp only [insert]
    split
    · -- `x` goes into the tail, above `y`
      rename_i hyx
      refine List.pairwise_cons.2 ⟨fun z hz ↦ ?_, ih hys⟩
      rcases mem_insert hz with rfl | hz
      · exact hyx
      · exact hy z hz
    · split
      · -- `x` goes in front, below `y` and so below the tail
        rename_i hxy
        refine List.pairwise_cons.2 ⟨fun z hz ↦ ?_, hl⟩
        rcases List.mem_cons.1 hz with rfl | hz
        · exact hxy
        · exact htrans _ _ _ hxy (hy z hz)
      · exact hl

end Trans

/-- **A sorted list reads back** by inserting its elements in order, after a sorted part below
them all. -/
theorem foldl_insert {pre l : List α} (h : Sorted lt (pre ++ l)) :
    l.foldl (fun s x ↦ insert lt x s) pre = pre ++ l := by
  induction l generalizing pre with
  | nil => simp
  | cons x l ih =>
    have hx : ∀ y ∈ pre, lt y x = true := fun y hy ↦
      (List.pairwise_append.1 h).2.2 y hy x List.mem_cons_self
    rw [List.foldl_cons, insert_of_forall_lt hx, ih (by simpa using h), List.append_assoc,
      List.singleton_append]

end OrderedSet
