import Mathlib.Data.List.Sort

/-!
# The sorted union of key-disjoint sorted sequences

Sequences of entries `(key, value)`, each strictly increasing in key and no key in two of them
(`Separate`): their union sorted by key (`sortedUnion`) is strictly increasing, and each sequence
is the part of the union it owns (`Separate.filter_owns`).

A walk over the union passes, by position `q`, the part of each sequence that `(U.take q).filter`
keeps; one step more passes one entry more of the sequence that owns the entry at `q`
(`length_filter_take_succ`). The entry of a sequence just after that part is the first it owns
from `q` on, and the one just before is the last it owns below `q`
(`getElem?_filter_length_take`, `getElem?_filter_length_take_sub_one`). These are where
cursors over the sequences stand while a cursor walks the union.
-/

namespace SortedUnion

/-! ## Prefixes of a filtered list -/

section Filter

variable {α : Type*} (p : α → Bool) (l : List α)

theorem filter_eq_take_append_drop (q : ℕ) :
    l.filter p = (l.take q).filter p ++ (l.drop q).filter p := by
  rw [← List.filter_append, List.take_append_drop]

theorem length_filter_take_succ {q : ℕ} (hq : q < l.length) :
    ((l.take (q + 1)).filter p).length =
      ((l.take q).filter p).length + if p l[q] then 1 else 0 := by
  rw [List.take_add_one, List.getElem?_eq_getElem hq, List.filter_append]
  by_cases h : p l[q] <;> simp [h]

theorem length_filter_take_length : ((l.take l.length).filter p).length = (l.filter p).length := by
  rw [List.take_length]

/-- The entry of the filtered list just after the part within the first `q` positions is the
first one kept from `q` on. -/
theorem getElem?_filter_length_take (q : ℕ) :
    (l.filter p)[((l.take q).filter p).length]? = ((l.drop q).filter p).head? := by
  rw [filter_eq_take_append_drop p l q, List.getElem?_append_right (le_refl _), Nat.sub_self,
    List.head?_eq_getElem?]

/-- The entry of the filtered list just before the part after the first `q` positions is the last
one kept below `q`. -/
theorem getElem?_filter_length_take_sub_one (q : ℕ) (hq : 0 < ((l.take q).filter p).length) :
    (l.filter p)[((l.take q).filter p).length - 1]? = ((l.take q).filter p).getLast? := by
  rw [filter_eq_take_append_drop p l q, List.getElem?_append_left (by omega),
    List.getLast?_eq_getElem?]

end Filter

/-! ## Strictly increasing keys -/

section Keys

variable {κ ν : Type*} [LinearOrder κ] {U : List (κ × ν)}

/-- Entries after position `q` have larger keys. -/
theorem lt_of_mem_drop (hU : U.Pairwise fun a b ↦ a.1 < b.1) {q : ℕ} (hq : q < U.length)
    {e : κ × ν} (he : e ∈ U.drop (q + 1)) : U[q].1 < e.1 := by
  rw [← List.take_append_drop (q + 1) U] at hU
  exact (List.pairwise_append.1 hU).2.2 _ (List.mem_take_iff_getElem.2 ⟨q, by simp; omega, rfl⟩) _
    he

/-- Entries before position `q` have smaller keys. -/
theorem lt_of_mem_take (hU : U.Pairwise fun a b ↦ a.1 < b.1) {q : ℕ} (hq : q < U.length)
    {e : κ × ν} (he : e ∈ U.take q) : e.1 < U[q].1 := by
  rw [← List.take_append_drop q U] at hU
  exact (List.pairwise_append.1 hU).2.2 _ he _ (List.mem_iff_getElem.2 ⟨0, by simp; omega,
    by simp⟩)

/-- The entries below a key come first. -/
theorem filter_lt_eq_take (hU : U.Pairwise fun a b ↦ a.1 < b.1) (t : κ) :
    U.filter (fun e ↦ decide (e.1 < t)) = U.take (U.filter fun e ↦ decide (e.1 < t)).length := by
  induction U with
  | nil => simp
  | cons a U ih =>
    obtain ⟨ha, hU⟩ := List.pairwise_cons.1 hU
    by_cases hat : a.1 < t
    · rw [List.filter_cons_of_pos (by simpa using hat), List.length_cons, List.take_succ_cons]
      exact congrArg (a :: ·) (ih hU)
    · -- every later key is above `a`'s, so none is below `t`
      have hnone : U.filter (fun e ↦ decide (e.1 < t)) = [] :=
        List.filter_eq_nil_iff.2 fun b hb hbt ↦ hat ((ha b hb).trans (by simpa using hbt))
      simp [hat, hnone]

/-- In a strictly increasing list, exactly the first `q` entries are below the `q`-th. -/
theorem length_filter_lt_getElem (hU : U.Pairwise fun a b ↦ a.1 < b.1) {q : ℕ}
    (hq : q < U.length) : (U.filter fun e ↦ decide (e.1 < U[q].1)).length = q := by
  have hsplit := filter_eq_take_append_drop (fun e : κ × ν ↦ decide (e.1 < U[q].1)) U q
  have htake : (U.take q).filter (fun e ↦ decide (e.1 < U[q].1)) = U.take q :=
    List.filter_eq_self.2 fun e he ↦ by simpa using lt_of_mem_take hU hq he
  have hdrop : (U.drop q).filter (fun e ↦ decide (e.1 < U[q].1)) = [] := by
    refine List.filter_eq_nil_iff.2 fun e he h ↦ ?_
    rw [List.drop_eq_getElem_cons hq, List.mem_cons] at he
    rcases he with rfl | he
    · simp at h
    · exact lt_asymm (lt_of_mem_drop hU hq he) (by simpa using h)
  rw [hsplit, htake, hdrop, List.append_nil, List.length_take]
  omega

end Keys

/-! ## The union -/

section Union

variable {κ ν : Type*} [LinearOrder κ]

/-- The entries of all the sequences, sorted by key. -/
def sortedUnion (ls : List (List (κ × ν))) : List (κ × ν) :=
  ls.flatten.mergeSort fun a b ↦ decide (a.1 ≤ b.1)

/-- Whether an entry's key is one of a sequence's keys. -/
def owns (l : List (κ × ν)) (e : κ × ν) : Bool :=
  decide (e.1 ∈ l.map Prod.fst)

/-- Sequences each strictly increasing in key, with no key in two of them. -/
structure Separate (ls : List (List (κ × ν))) : Prop where
  /-- Each sequence is strictly increasing in key. -/
  sorted : ∀ l ∈ ls, l.Pairwise fun a b ↦ a.1 < b.1
  /-- No key is in two sequences. -/
  disjoint : ls.Pairwise fun l l' ↦ ∀ e ∈ l, ∀ e' ∈ l', e.1 ≠ e'.1

variable {ls : List (List (κ × ν))}

theorem mem_sortedUnion {e : κ × ν} : e ∈ sortedUnion ls ↔ ∃ l ∈ ls, e ∈ l := by
  rw [sortedUnion, (List.mergeSort_perm _ _).mem_iff, List.mem_flatten]

theorem owns_of_mem {l : List (κ × ν)} {e : κ × ν} (he : e ∈ l) : owns l e = true := by
  simpa [owns] using ⟨e.2, he⟩

namespace Separate

variable (h : Separate ls)
include h

theorem pairwise_flatten : ls.flatten.Pairwise fun a b ↦ a.1 ≠ b.1 :=
  List.pairwise_flatten.2 ⟨fun l hl ↦ (h.sorted l hl).imp ne_of_lt, h.disjoint⟩

/-- **The union is strictly increasing.** -/
theorem pairwise_sortedUnion : (sortedUnion ls).Pairwise fun a b ↦ a.1 < b.1 := by
  have hle := @List.pairwise_mergeSort _ (fun a b : κ × ν ↦ decide (a.1 ≤ b.1))
    (fun a b c hab hbc ↦ by simp_all only [decide_eq_true_eq]; exact hab.trans hbc)
    (fun a b ↦ by simpa using le_total a.1 b.1) ls.flatten
  have hne : (sortedUnion ls).Pairwise fun a b ↦ a.1 ≠ b.1 :=
    h.pairwise_flatten.perm (List.mergeSort_perm _ _).symm fun hne ↦ Ne.symm hne
  exact (hle.and hne).imp fun ⟨hab, hne⟩ ↦ lt_of_le_of_ne (by simpa using hab) hne

/-- An entry with a key of a sequence is in that sequence. -/
theorem mem_of_owns {l : List (κ × ν)} (hl : l ∈ ls) {e : κ × ν} (he : e ∈ sortedUnion ls)
    (hown : owns l e = true) : e ∈ l := by
  obtain ⟨l', hl', hel'⟩ := mem_sortedUnion.1 he
  obtain ⟨e', he', hkey⟩ : ∃ e' ∈ l, e'.1 = e.1 := by simpa [owns] using hown
  by_cases hll : l' = l
  · exact hll ▸ hel'
  · -- a key shared by two different sequences
    obtain ⟨i, hi, rfl⟩ := List.getElem_of_mem hl'
    obtain ⟨j, hj, rfl⟩ := List.getElem_of_mem hl
    have hij : i ≠ j := fun hij ↦ hll (by subst hij; rfl)
    rcases Nat.lt_or_gt_of_ne hij with hij | hij
    · exact absurd hkey.symm (List.pairwise_iff_getElem.1 h.disjoint i j hi hj hij e hel' e' he')
    · exact absurd hkey (List.pairwise_iff_getElem.1 h.disjoint j i hj hi hij e' he' e hel')

/-- **Each sequence is the part of the union it owns.** -/
theorem filter_owns {l : List (κ × ν)} (hl : l ∈ ls) : (sortedUnion ls).filter (owns l) = l := by
  have hU := h.pairwise_sortedUnion.filter (owns l)
  have hsorted := h.sorted l hl
  have hnodup : ∀ {l' : List (κ × ν)}, (l'.Pairwise fun a b ↦ a.1 < b.1) → l'.Nodup := by
    intro l' hl'
    exact hl'.imp fun hab ↦ ne_of_apply_ne Prod.fst (ne_of_lt hab)
  refine List.Perm.eq_of_pairwise (fun a b _ _ hab hba ↦ absurd (hab.trans hba) (lt_irrefl _))
    hU hsorted ((List.perm_ext_iff_of_nodup (hnodup hU) (hnodup hsorted)).2 fun e ↦ ?_)
  rw [List.mem_filter]
  constructor
  · rintro ⟨he, hown⟩
    exact h.mem_of_owns hl he hown
  · intro he
    exact ⟨mem_sortedUnion.2 ⟨l, hl, he⟩, owns_of_mem he⟩

end Separate

/-- The union of one strictly increasing sequence is that sequence. -/
theorem sortedUnion_singleton {l : List (κ × ν)} (hl : l.Pairwise fun a b ↦ a.1 < b.1) :
    sortedUnion [l] = l := by
  have hsep : Separate [l] := ⟨by simpa using hl, List.pairwise_singleton _ _⟩
  calc sortedUnion [l] = (sortedUnion [l]).filter (owns l) := by
        refine (List.filter_eq_self.2 fun e he ↦ ?_).symm
        obtain ⟨l', hl', hel'⟩ := mem_sortedUnion.1 he
        rw [List.mem_singleton.1 hl'] at hel'
        exact owns_of_mem hel'
    _ = l := hsep.filter_owns (List.mem_singleton_self l)

end Union

end SortedUnion
