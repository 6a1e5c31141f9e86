import Mathlib

/-!
# Lists of buckets

A chained hash table keeps its entries in an array of chains; as a list of lists, what the
table holds is the flattening, up to order. Replacing one chain changes that by the chain only
(`perm_flatten_set`), and pushing an entry onto a chain adds the entry
(`perm_flatten_modify_cons`), so a rehash that pushes every entry of a list onto some chain of
an empty table keeps them all (`perm_flatten_foldl_push`).

Inside one chain a search stops at the first match, `List.findIdx`. Where at most one entry of
the chain matches, cutting that slot out is filtering the matches out (`eraseIdx_findIdx`), and
writing an entry into it is that and one entry more (`perm_put_findIdx`).
-/

namespace Buckets

variable {α : Type*}

/-! ## Chains of a table -/

/-- The contents of a table are one chain and the others. -/
theorem perm_flatten_eraseIdx {l : List (List α)} {i : ℕ} (hi : i < l.length) :
    l.flatten.Perm (l[i] ++ (l.eraseIdx i).flatten) := by
  have hsplit : l = l.take i ++ l[i] :: l.drop (i + 1) := by
    conv_lhs => rw [← List.set_getElem_self hi]
    exact List.set_eq_take_cons_drop _ hi
  rw [List.eraseIdx_eq_take_drop_succ, List.flatten_append]
  conv_lhs => rw [hsplit]
  rw [List.flatten_append, List.flatten_cons, ← List.append_assoc, ← List.append_assoc]
  -- the chain moves to the front
  exact List.perm_append_comm.append_right _

/-- **Replacing one chain** changes the contents by that chain. -/
theorem perm_flatten_set {l : List (List α)} {i : ℕ} (hi : i < l.length) (c : List α) :
    (l.set i c).flatten.Perm (c ++ (l.eraseIdx i).flatten) := by
  have hi' : i < (l.set i c).length := by rwa [List.length_set]
  have hrest : (l.set i c).eraseIdx i = l.eraseIdx i := by
    rw [List.eraseIdx_eq_take_drop_succ, List.eraseIdx_eq_take_drop_succ, List.take_set_of_le
      (Nat.le_refl i), List.drop_set_of_lt (Nat.lt_succ_self i)]
  have hperm := perm_flatten_eraseIdx hi'
  rwa [List.getElem_set_self, hrest] at hperm

/-- **Pushing an entry onto a chain** adds it to the contents. -/
theorem perm_flatten_modify_cons {l : List (List α)} {i : ℕ} (hi : i < l.length) (e : α) :
    (l.modify i (e :: ·)).flatten.Perm (e :: l.flatten) := by
  have hset : l.modify i (e :: ·) = l.set i (e :: l[i]) := by
    rw [List.modify_eq_set_getElem? (fun c ↦ e :: c) i l, List.getElem?_eq_getElem hi]
    rfl
  rw [hset]
  refine (perm_flatten_set hi _).trans ?_
  rw [List.cons_append]
  exact List.Perm.cons e (perm_flatten_eraseIdx hi).symm

/-- **A rehash keeps every entry**: pushing the entries of `l` one after the other onto chains
of a table, each onto the chain `bucket` names inside the table, adds exactly them. -/
theorem perm_flatten_foldl_push (bucket : α → ℕ) :
    ∀ (l : List α) {t : List (List α)}, (∀ e ∈ l, bucket e < t.length) →
      (l.foldl (fun t e ↦ t.modify (bucket e) (e :: ·)) t).flatten.Perm (l.reverse ++ t.flatten)
  | [], t, _ => by simp
  | e :: l, t, hb => by
    have hlen : (t.modify (bucket e) (e :: ·)).length = t.length := List.length_modify _ _ _
    have hrest : ∀ x ∈ l, bucket x < (t.modify (bucket e) (e :: ·)).length := fun x hx ↦
      hlen ▸ hb x (List.mem_cons_of_mem e hx)
    refine (perm_flatten_foldl_push bucket l hrest).trans ?_
    rw [List.reverse_cons, List.append_assoc, List.singleton_append]
    exact ((perm_flatten_modify_cons (hb e List.mem_cons_self) e).append_left l.reverse)

theorem length_foldl_push (bucket : α → ℕ) (l : List α) (t : List (List α)) :
    (l.foldl (fun t e ↦ t.modify (bucket e) (e :: ·)) t).length = t.length := by
  induction l generalizing t with
  | nil => rfl
  | cons e l ih => rw [List.foldl_cons, ih, List.length_modify]

/-! ## Entries in their chains -/

/-- Every entry sits in the chain that `bucket` names. -/
def Placed (bucket : α → ℕ) (t : List (List α)) : Prop :=
  ∀ i (hi : i < t.length), ∀ e ∈ t[i], bucket e = i

variable {bucket : α → ℕ} {t : List (List α)}

theorem placed_replicate_nil (n : ℕ) : Placed bucket (List.replicate n []) := by
  intro i hi e he
  rw [List.getElem_replicate] at he
  cases he

/-- A chain of entries that belong in it keeps a table placed. -/
theorem Placed.set (h : Placed bucket t) {i : ℕ} {c : List α} (hc : ∀ e ∈ c, bucket e = i) :
    Placed bucket (t.set i c) := by
  intro j hj e he
  rw [List.getElem_set] at he
  split at he
  · rename_i hij
    exact hij ▸ hc e he
  · exact h j (by rwa [List.length_set] at hj) e he

theorem Placed.modify_cons (h : Placed bucket t) (e : α) :
    Placed bucket (t.modify (bucket e) (e :: ·)) := by
  intro j hj x hx
  rw [List.getElem_modify] at hx
  split at hx
  · rename_i hej
    rcases List.mem_cons.1 hx with rfl | hx
    · exact hej
    · exact h j (by rwa [List.length_modify] at hj) x hx
  · exact h j (by rwa [List.length_modify] at hj) x hx

theorem Placed.foldl_push (h : Placed bucket t) (l : List α) :
    Placed bucket (l.foldl (fun t e ↦ t.modify (bucket e) (e :: ·)) t) := by
  induction l generalizing t with
  | nil => exact h
  | cons e l ih => exact ih (h.modify_cons e)

/-- In a placed table, the chain of bucket `i` holds exactly the entries that belong there. -/
theorem Placed.mem_getD_iff (h : Placed bucket t) {i : ℕ} (hi : i < t.length) {e : α} :
    e ∈ t.getD i [] ↔ e ∈ t.flatten ∧ bucket e = i := by
  rw [List.getD_eq_getElem _ _ hi]
  constructor
  · intro he
    exact ⟨List.mem_flatten.2 ⟨t[i], List.getElem_mem hi, he⟩, h i hi e he⟩
  · rintro ⟨he, rfl⟩
    obtain ⟨c, hc, hec⟩ := List.mem_flatten.1 he
    obtain ⟨j, hj, rfl⟩ := List.getElem_of_mem hc
    have hbj : bucket e = j := h j hj e hec
    subst hbj
    exact hec

/-! ## Matches -/

/-- Entries that no two of a list share: at most one entry of the list has them. -/
theorem length_filter_le_one {R : α → α → Prop} {l : List α} (hl : l.Pairwise R)
    {p : α → Bool} (hp : ∀ a b, p a → p b → ¬ R a b) : (l.filter p).length ≤ 1 := by
  have hf := hl.filter p
  match hm : l.filter p, hf with
  | [], _ => exact Nat.zero_le _
  | [_], _ => exact Nat.le_refl _
  | a :: b :: _, hab =>
    have ha : p a := (List.mem_filter.1 (hm ▸ List.mem_cons_self)).2
    have hb : p b := (List.mem_filter.1 (hm ▸ List.mem_cons_of_mem a List.mem_cons_self)).2
    exact absurd ((List.pairwise_cons.1 hab).1 b List.mem_cons_self) (hp a b ha hb)

/-! ## The slot a search stops at -/

variable {p : α → Bool}

/-- Where at most one entry matches, the matches are the entry at the first match. -/
theorem eraseIdx_findIdx {c : List α} (hone : (c.filter p).length ≤ 1) :
    c.eraseIdx (c.findIdx p) = c.filter fun x ↦ !p x := by
  induction c with
  | nil => rfl
  | cons x c ih =>
    by_cases hx : p x
    · -- the head matches: the tail has no match left
      have hnone : ∀ y ∈ c, p y = false := by
        rw [List.filter_cons_of_pos hx, List.length_cons] at hone
        intro y hy
        by_contra hy'
        have hpos : 0 < (c.filter p).length :=
          List.length_pos_of_mem (List.mem_filter.2 ⟨hy, by simpa using hy'⟩)
        omega
      rw [List.findIdx_cons, hx, cond_true, List.eraseIdx_cons_zero, List.filter_cons_of_neg
        (by simp [hx]), List.filter_eq_self.2 (fun y hy ↦ by simp [hnone y hy])]
    · rw [List.filter_cons_of_neg hx] at hone
      rw [List.findIdx_cons, Bool.eq_false_iff.2 hx, cond_false, List.eraseIdx_cons_succ,
        ih hone, List.filter_cons_of_pos (by simp [hx])]

/-- Writing an entry into the slot a search stops at: the chain without its matches, and the
entry. -/
theorem perm_put_findIdx {c : List α} (hone : (c.filter p).length ≤ 1) (e : α) :
    (c.take (c.findIdx p) ++ e :: c.drop (c.findIdx p + 1)).Perm
      (e :: c.filter fun x ↦ !p x) := by
  rw [← eraseIdx_findIdx hone, List.eraseIdx_eq_take_drop_succ]
  exact List.perm_middle

end Buckets
