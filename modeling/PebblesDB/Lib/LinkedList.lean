import Mathlib.Data.List.Nodup

/-!
# Linked lists in a heap

A heap of cells, each of which may link to a following cell. `IsList next a l` says that
following `next` from the cell `a` visits the cells `l`, in order, and then meets a null link: it
is the representation predicate of a singly linked list headed by `a`. A skip list is one such
list per level, all headed by the same cell.

The lemmas are the ones a proof about code that walks and splices such lists uses. The list from
a cell is unique (`IsList.unique`) and never repeats a cell (`IsList.nodup`), since a repeated
cell would make the walk go round for ever. A walk that stays on the list sees the rest of it:
from a cell of a prefix the link leads into the prefix or, from its last cell, to the head of
the remainder (`IsList.next_mem_or_eq_getLast`, `IsList.next_getLast`), and the order of the list
holds between a cell and the one it links to (`IsList.rel_next`). The list survives writes
to cells that are not on it (`IsList.frame`), and linking a fresh cell after a cell of it splices
the fresh cell in (`IsList.splice`).
-/

namespace LinkedList

variable {α : Type*}

/-- Following `next` from `a` visits `l` and then meets a null link. -/
inductive IsList (next : α → Option α) : α → List α → Prop
  /-- The link of `a` is null. -/
  | nil {a : α} : next a = none → IsList next a []
  /-- The link of `a` leads to `b`, and the list goes on from `b`. -/
  | cons {a b : α} {l : List α} : next a = some b → IsList next b l → IsList next a (b :: l)

variable {next next' : α → Option α} {a b c : α} {l l₁ l₂ : List α}

namespace IsList

theorem next_eq_head? (h : IsList next a l) : next a = l.head? := by
  cases h with
  | nil hnil => exact hnil
  | cons hb _ => exact hb

/-- **The list from a cell is unique.** -/
theorem unique {l' : List α} (h : IsList next a l) (h' : IsList next a l') : l = l' := by
  induction h generalizing l' with
  | nil hnil =>
    cases h' with
    | nil _ => rfl
    | cons hb _ => rw [hnil] at hb; cases hb
  | cons hb _ ih =>
    cases h' with
    | nil hnil => rw [hnil] at hb; cases hb
    | cons hb' hrest =>
      rw [hb] at hb'
      cases hb'
      rw [ih hrest]

/-- Every cell of the list heads the rest of it, which is shorter. -/
theorem exists_of_mem (h : IsList next a l) (hc : c ∈ l) :
    ∃ l', IsList next c l' ∧ l'.length < l.length := by
  induction h with
  | nil _ => cases hc
  | @cons a b l _ hrest ih =>
    rcases List.mem_cons.1 hc with rfl | hc
    · exact ⟨l, hrest, Nat.lt_succ_self _⟩
    · obtain ⟨l', hl', hlen⟩ := ih hc
      exact ⟨l', hl', Nat.lt_succ_of_lt hlen⟩

/-- **A list never repeats a cell**: a repeated cell would make the walk go round for ever. -/
theorem nodup (h : IsList next a l) : (a :: l).Nodup := by
  induction h with
  | nil _ => exact List.nodup_singleton _
  | @cons a b l hb hrest ih =>
    refine List.nodup_cons.2 ⟨fun ha ↦ ?_, ih⟩
    -- the list from `a` would be a strictly shorter suffix of itself
    obtain ⟨l', hl', hlen⟩ := (IsList.cons hb hrest).exists_of_mem ha
    rw [(IsList.cons hb hrest).unique hl'] at hlen
    exact Nat.lt_irrefl _ hlen

/-- The remainder of the list after a prefix is headed by the prefix's last cell. -/
theorem of_append (h : IsList next a (l₁ ++ l₂)) :
    IsList next ((a :: l₁).getLast (List.cons_ne_nil a l₁)) l₂ := by
  induction l₁ generalizing a with
  | nil => exact h
  | cons b l₁ ih =>
    cases h with
    | cons _ hrest =>
      rw [List.getLast_cons (List.cons_ne_nil b l₁)]
      exact ih hrest

theorem next_getLast (h : IsList next a (l₁ ++ l₂)) :
    next ((a :: l₁).getLast (List.cons_ne_nil a l₁)) = l₂.head? :=
  h.of_append.next_eq_head?

/-- From a cell of a prefix, the link stays in the prefix, unless the cell is its last. -/
theorem next_mem_or_eq_getLast (h : IsList next a (l₁ ++ l₂)) (hc : c ∈ a :: l₁) :
    (∃ d ∈ l₁, next c = some d) ∨ c = (a :: l₁).getLast (List.cons_ne_nil a l₁) := by
  induction l₁ generalizing a with
  | nil =>
    rw [List.mem_singleton] at hc
    exact .inr hc
  | cons b l₁ ih =>
    cases h with
    | cons hb hrest =>
      rcases List.mem_cons.1 hc with rfl | hc
      · exact .inl ⟨b, List.mem_cons_self, hb⟩
      · rw [List.getLast_cons (List.cons_ne_nil b l₁)]
        rcases ih hrest hc with ⟨d, hd, hnext⟩ | hlast
        · exact .inl ⟨d, List.mem_cons_of_mem b hd, hnext⟩
        · exact .inr hlast

/-- A cell the list leads to from one of its cells is on it. -/
theorem mem_of_next (h : IsList next a l) (hc : c ∈ a :: l) (hnext : next c = some b) :
    b ∈ l := by
  induction h with
  | nil hnil =>
    rw [List.mem_singleton] at hc
    rw [hc, hnil] at hnext
    cases hnext
  | @cons a d l hd _ ih =>
    rcases List.mem_cons.1 hc with rfl | hc
    · rw [hd] at hnext
      cases hnext
      exact List.mem_cons_self
    · exact List.mem_cons_of_mem d (ih hc)

/-- On a list whose cells are pairwise related in order, a cell of it is related to the cell it
links to. -/
theorem rel_next {r : α → α → Prop} {d : α} (h : IsList next a l) (hl : l.Pairwise r)
    (hc : c ∈ l) (hnext : next c = some d) : r c d := by
  induction h with
  | nil _ => cases hc
  | @cons a b l _ hrest ih =>
    rw [List.pairwise_cons] at hl
    rcases List.mem_cons.1 hc with rfl | hc
    · exact hl.1 d (hrest.mem_of_next List.mem_cons_self hnext)
    · exact ih hl.2 hc

/-- **Frame**: writes to cells off the list leave it. -/
theorem frame (h : IsList next a l) (hsame : ∀ c ∈ a :: l, next' c = next c) :
    IsList next' a l := by
  induction h with
  | nil hnil => exact .nil ((hsame _ List.mem_cons_self).trans hnil)
  | @cons a b l hb _ ih =>
    refine .cons ((hsame a List.mem_cons_self).trans hb) (ih fun c hc ↦ ?_)
    exact hsame c (List.mem_cons_of_mem a hc)

/-- A walk along a prefix whose links are unchanged reaches the prefix's last cell, and goes on
from there as the new links say. -/
theorem append_of_prefix {l₃ : List α} (h : IsList next a (l₁ ++ l₂)) (hnd : (a :: l₁).Nodup)
    (hsame : ∀ c ∈ a :: l₁, c ≠ (a :: l₁).getLast (List.cons_ne_nil a l₁) → next' c = next c)
    (hlast : IsList next' ((a :: l₁).getLast (List.cons_ne_nil a l₁)) l₃) :
    IsList next' a (l₁ ++ l₃) := by
  induction l₁ generalizing a with
  | nil => exact hlast
  | cons d l₁ ih =>
    cases h with
    | cons hd hrest =>
      rw [List.getLast_cons (List.cons_ne_nil d l₁)] at hsame hlast
      -- `a` is not the last cell, so its link is unchanged
      have hne : a ≠ (d :: l₁).getLast (List.cons_ne_nil d l₁) := fun heq ↦
        (List.nodup_cons.1 hnd).1 (heq ▸ List.getLast_mem (List.cons_ne_nil d l₁))
      refine .cons ((hsame a List.mem_cons_self hne).trans hd) (ih hrest (List.nodup_cons.1 hnd).2
        (fun c hc ↦ hsame c (List.mem_cons_of_mem a hc)) hlast)

/-- **Splice**: linking a cell `b` after the last cell of a prefix, with `b` linked to
where that cell led, puts `b` between the prefix and the remainder. -/
theorem splice (h : IsList next a (l₁ ++ l₂))
    (hlast : next' ((a :: l₁).getLast (List.cons_ne_nil a l₁)) = some b)
    (hnext : next' b = l₂.head?)
    (hsame : ∀ c ∈ a :: (l₁ ++ l₂), c ≠ (a :: l₁).getLast (List.cons_ne_nil a l₁) →
      next' c = next c) :
    IsList next' a (l₁ ++ b :: l₂) := by
  have hnd : ((a :: l₁) ++ l₂).Nodup := h.nodup
  obtain ⟨hnd₁, -, hdisj⟩ := List.nodup_append.1 hnd
  have hlast_mem := List.getLast_mem (List.cons_ne_nil a l₁)
  -- the remainder keeps its links, and `b` leads to it
  have hrest : IsList next' b l₂ := by
    have hafter := h.of_append
    cases hafter with
    | nil _ => exact .nil hnext
    | @cons _ d l₂ _ hd =>
      refine .cons hnext (hd.frame fun e he ↦ hsame e ?_ ?_)
      · exact List.mem_cons_of_mem a (List.mem_append_right l₁ he)
      · exact (hdisj _ hlast_mem e he).symm
  refine h.append_of_prefix hnd₁ (fun c hc hne ↦ hsame c ?_ hne) (.cons hlast hrest)
  rcases List.mem_cons.1 hc with rfl | hc
  · exact List.mem_cons_self
  · exact List.mem_cons_of_mem a (List.mem_append_left l₂ hc)

end IsList

end LinkedList
