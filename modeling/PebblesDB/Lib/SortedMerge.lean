import Mathlib

/-!
# Merging sorted runs by key

Elements are ordered by a key in a strict total order. Two runs sorted by key merge the way
`std::upper_bound` merges a sorted vector with a sorted set: before each element of the second
run come the elements of the first that do not come after it (`merge`). The merge holds both runs
(`merge_perm`), and is sorted when they are (`ascending_merge`), equal keys allowed.

Appending the elements of a sorted run one after the other, each unless it has the key of the
last element appended or is to be skipped (`appendNew`), leaves the keys strictly increasing
(`increasing_foldl_appendNew`). Where no two of the elements share a key, what is appended is
every element not skipped (`mem_foldl_appendNew`).
-/

namespace SortedMerge

variable {α κ : Type*} [LT κ] [IsStrictTotalOrder κ (· < ·)]

/-! ## Keys in a strict total order -/

theorem not_lt_trans {a b c : κ} (hab : ¬ b < a) (hbc : ¬ c < b) : ¬ c < a := by
  intro hca
  rcases trichotomous_of (· < ·) b a with hba | rfl | hab'
  · exact hab hba
  · exact hbc hca
  · exact hbc (IsTrans.trans _ _ _ hca hab')

theorem lt_of_lt_of_not_lt {a b c : κ} (hab : a < b) (hcb : ¬ c < b) : a < c := by
  rcases trichotomous_of (· < ·) a c with hac | rfl | hca
  · exact hac
  · exact absurd hab hcb
  · exact absurd (IsTrans.trans _ _ _ hca hab) hcb

theorem lt_of_not_lt_of_ne {a b : κ} (hba : ¬ b < a) (hne : a ≠ b) : a < b := by
  rcases trichotomous_of (· < ·) a b with hab | heq | hba'
  · exact hab
  · exact absurd heq hne
  · exact absurd hba' hba

variable (key : α → κ)

/-- Keys ascending, equal keys allowed. -/
def Ascending (l : List α) : Prop :=
  l.Pairwise fun a b ↦ ¬ key b < key a

/-- Keys strictly increasing. -/
def Increasing (l : List α) : Prop :=
  l.Pairwise fun a b ↦ key a < key b

variable {key}

theorem Increasing.ascending {l : List α} (h : Increasing key l) : Ascending key l :=
  h.imp fun hab hba ↦ asymm hab hba

omit [IsStrictTotalOrder κ (· < ·)] in
/-- In a run with strictly increasing keys, every element but the last is below the last. -/
theorem Increasing.lt_of_getLast? {l : List α} (h : Increasing key l) {z : α}
    (hz : l.getLast? = some z) {y : α} (hy : y ∈ l) : y = z ∨ key y < key z := by
  obtain ⟨init, rfl⟩ : ∃ init, l = init ++ [z] := List.getLast?_eq_some_iff.1 hz
  rcases List.mem_append.1 hy with hy | hy
  · exact .inr ((List.pairwise_append.1 h).2.2 y hy z List.mem_cons_self)
  · exact .inl (List.mem_singleton.1 hy)

/-- In an ascending run, no element lies above the last. -/
theorem Ascending.not_lt_of_getLast? {l : List α} (h : Ascending key l) {z : α}
    (hz : l.getLast? = some z) {y : α} (hy : y ∈ l) : ¬ key z < key y := by
  obtain ⟨init, rfl⟩ : ∃ init, l = init ++ [z] := List.getLast?_eq_some_iff.1 hz
  rcases List.mem_append.1 hy with hy | hy
  · exact (List.pairwise_append.1 h).2.2 y hy z List.mem_cons_self
  · rw [List.mem_singleton.1 hy]
    exact irrefl _

omit [IsStrictTotalOrder κ (· < ·)] in
/-- A run stays ascending with an element appended that lies below none of it. -/
theorem Ascending.concat {l : List α} (h : Ascending key l) {x : α}
    (hx : ∀ y ∈ l, ¬ key x < key y) : Ascending key (l ++ [x]) :=
  List.pairwise_append.2 ⟨h, List.pairwise_singleton _ _, fun y hy _ hx' ↦
    (List.mem_singleton.1 hx') ▸ hx y hy⟩

/-! ## The merge of `std::upper_bound` -/

section Merge

variable [DecidableRel (α := κ) (· < ·)]

variable (key) in
/-- The merge: before each element `a` of `added`, the elements of `base` whose key is not above
that of `a` (`std::upper_bound`), then `a`. -/
def merge : List α → List α → List α
  | base, [] => base
  | base, a :: added =>
    let r := base.span fun b ↦ !decide (key a < key b)
    r.1 ++ a :: merge r.2 added

omit [IsStrictTotalOrder κ (· < ·)] in
theorem merge_cons (base added : List α) (a : α) :
    merge key base (a :: added) =
      base.takeWhile (fun b ↦ !decide (key a < key b)) ++
        a :: merge key (base.dropWhile fun b ↦ !decide (key a < key b)) added := by
  rw [merge, List.span_eq_takeWhile_dropWhile]

omit [IsStrictTotalOrder κ (· < ·)] in
/-- **The merge holds both runs.** -/
theorem merge_perm : ∀ base added : List α, (merge key base added).Perm (base ++ added)
  | base, [] => by rw [merge, List.append_nil]
  | base, a :: added => by
    rw [merge_cons]
    have ih := merge_perm (base.dropWhile fun b ↦ !decide (key a < key b)) added
    -- `a` moves past the rest of `base`, which then joins the part before it
    refine (((ih.cons a).trans List.perm_middle.symm).append_left _).trans ?_
    rw [← List.append_assoc, List.takeWhile_append_dropWhile]

/-- What an ascending run has left past the elements not above `a` lies above `a`. -/
theorem lt_of_mem_dropWhile (a : α) :
    ∀ {base : List α}, Ascending key base → ∀ {y : α},
      y ∈ base.dropWhile (fun b ↦ !decide (key a < key b)) → key a < key y
  | [], _, _, hy => absurd hy List.not_mem_nil
  | b :: base, hb, y, hy => by
    obtain ⟨hbelow, hrest⟩ := List.pairwise_cons.1 hb
    by_cases hab : key a < key b
    · -- the run stops at `b`, above `a`, and the rest is not below `b`
      rw [List.dropWhile_cons_of_neg (by simp [hab])] at hy
      rcases List.mem_cons.1 hy with rfl | hy
      · exact hab
      · exact lt_of_lt_of_not_lt hab (hbelow y hy)
    · rw [List.dropWhile_cons_of_pos (by simp [hab])] at hy
      exact lt_of_mem_dropWhile a hrest hy

/-- **The merge of sorted runs is sorted.** -/
theorem ascending_merge : ∀ {base added : List α}, Ascending key base → Ascending key added →
    Ascending key (merge key base added)
  | base, [], hb, _ => by rwa [merge]
  | base, a :: added, hb, ha => by
    obtain ⟨ha_le, ha_rest⟩ := List.pairwise_cons.1 ha
    have hdrop : Ascending key (base.dropWhile fun b ↦ !decide (key a < key b)) :=
      hb.sublist (List.dropWhile_sublist _)
    -- nothing of the merge of the rest lies below `a`
    have habove : ∀ y ∈ merge key (base.dropWhile fun b ↦ !decide (key a < key b)) added,
        ¬ key y < key a := by
      intro y hy
      rcases List.mem_append.1 ((merge_perm _ _).subset hy) with hy | hy
      · exact asymm (lt_of_mem_dropWhile a hb hy)
      · exact ha_le y hy
    rw [merge_cons]
    refine List.pairwise_append.2 ⟨hb.sublist (List.takeWhile_sublist _),
      List.pairwise_cons.2 ⟨habove, ascending_merge hdrop ha_rest⟩, fun x hx y hy ↦ ?_⟩
    -- what the run gives before `a` is not above `a`
    have hxa : ¬ key a < key x := by simpa using List.mem_takeWhile_imp hx
    rcases List.mem_cons.1 hy with rfl | hy
    · exact hxa
    · exact not_lt_trans hxa (habove y hy)

end Merge

/-! ## Appending new keys -/

variable [DecidableEq κ]

variable (key) in
/-- Append `x` unless it has the key of the last element appended, or `skip x`; the second
component is the last element appended. -/
def appendNew (skip : α → Prop) [DecidablePred skip] (acc : List α × Option α) (x : α) :
    List α × Option α :=
  if acc.2.map key = some (key x) then acc
  else if skip x then acc
  else (acc.1 ++ [x], some x)

variable {skip : α → Prop} [DecidablePred skip]

omit [LT κ] [IsStrictTotalOrder κ (· < ·)] in
theorem appendNew_of_key {acc : List α × Option α} {x : α} (h : acc.2.map key = some (key x)) :
    appendNew key skip acc x = acc := by
  rw [appendNew, if_pos h]

omit [LT κ] [IsStrictTotalOrder κ (· < ·)] in
theorem appendNew_of_skip {acc : List α × Option α} {x : α} (h : skip x) :
    appendNew key skip acc x = acc := by
  unfold appendNew
  split <;> rfl

omit [LT κ] [IsStrictTotalOrder κ (· < ·)] in
theorem appendNew_of_new {acc : List α × Option α} {x : α} (hkey : acc.2.map key ≠ some (key x))
    (hskip : ¬ skip x) : appendNew key skip acc x = (acc.1 ++ [x], some x) := by
  rw [appendNew, if_neg hkey, if_neg hskip]

/-- **Appending new keys from a sorted run keeps the keys strictly increasing**, and records
the last element appended. The induction is on the run, and the invariant is that no element
left in the run lies below an element appended. -/
theorem increasing_foldl_appendNew : ∀ (l : List α) (acc : List α × Option α),
    Ascending key l → Increasing key acc.1 → acc.2 = acc.1.getLast? →
    (∀ y ∈ acc.1, ∀ x ∈ l, ¬ key x < key y) →
    Increasing key (l.foldl (appendNew key skip) acc).1 ∧
      (l.foldl (appendNew key skip) acc).2 = (l.foldl (appendNew key skip) acc).1.getLast?
  | [], acc, _, hinc, hlast, _ => ⟨hinc, hlast⟩
  | x :: l, acc, hl, hinc, hlast, hbelow => by
    obtain ⟨hx_le, hl_rest⟩ := List.pairwise_cons.1 hl
    have hrest : ∀ y ∈ acc.1, ∀ z ∈ l, ¬ key z < key y := fun y hy z hz ↦
      hbelow y hy z (List.mem_cons_of_mem x hz)
    rw [List.foldl_cons]
    by_cases hkey : acc.2.map key = some (key x)
    · rw [appendNew_of_key hkey]
      exact increasing_foldl_appendNew l acc hl_rest hinc hlast hrest
    · by_cases hskip : skip x
      · rw [appendNew_of_skip hskip]
        exact increasing_foldl_appendNew l acc hl_rest hinc hlast hrest
      · -- `x` is above everything appended: above the last element, so above the others
        rw [appendNew_of_new hkey hskip]
        refine increasing_foldl_appendNew l _ hl_rest ?_ List.getLast?_concat.symm ?_
        · refine List.pairwise_append.2 ⟨hinc, List.pairwise_singleton _ _, fun y hy x' hx' ↦ ?_⟩
          rw [List.mem_singleton.1 hx']
          obtain ⟨z, hz⟩ : ∃ z, acc.1.getLast? = some z :=
            Option.isSome_iff_exists.1 (List.getLast?_isSome.2 (List.ne_nil_of_mem hy))
          have hzx : key z < key x := by
            refine lt_of_not_lt_of_ne (hbelow z (List.mem_of_getLast? hz) x List.mem_cons_self)
              fun h ↦ hkey ?_
            rw [hlast, hz, Option.map_some, h]
          rcases hinc.lt_of_getLast? hz hy with rfl | hyz
          · exact hzx
          · exact IsTrans.trans _ _ _ hyz hzx
        · intro y hy z hz
          rcases List.mem_append.1 hy with hy | hy
          · exact hrest y hy z hz
          · rw [List.mem_singleton.1 hy]
            exact hx_le z hz

omit [LT κ] [IsStrictTotalOrder κ (· < ·)] in
/-- **What is appended**: where no two elements share a key, every element of the run not
skipped, since an element with the key of the last one appended is that element. -/
theorem mem_foldl_appendNew : ∀ (l : List α) (acc : List α × Option α),
    acc.2 = acc.1.getLast? → (∀ a ∈ acc.1 ++ l, ∀ b ∈ acc.1 ++ l, key a = key b → a = b) →
    ∀ z, z ∈ (l.foldl (appendNew key skip) acc).1 ↔ z ∈ acc.1 ∨ z ∈ l ∧ ¬ skip z
  | [], acc, _, _, z => by simp
  | x :: l, acc, hlast, hinj, z => by
    have hsub : ∀ a ∈ acc.1 ++ l, a ∈ acc.1 ++ x :: l := fun a ha ↦ by
      rcases List.mem_append.1 ha with ha | ha
      · exact List.mem_append_left _ ha
      · exact List.mem_append_right _ (List.mem_cons_of_mem x ha)
    rw [List.foldl_cons]
    by_cases hkey : acc.2.map key = some (key x)
    · -- `x` has the key of the last element appended, so it is that element
      rw [appendNew_of_key hkey]
      obtain ⟨y, hy, hyx⟩ := Option.map_eq_some_iff.1 hkey
      rw [hlast] at hy
      have hmem := List.mem_of_getLast? hy
      have hxy : x = y := hinj x (List.mem_append_right _ List.mem_cons_self) y
        (List.mem_append_left _ hmem) hyx.symm
      rw [mem_foldl_appendNew l acc hlast fun a ha b hb ↦ hinj a (hsub a ha) b (hsub b hb),
        List.mem_cons]
      constructor
      · rintro (h | ⟨h, hs⟩)
        · exact .inl h
        · exact .inr ⟨.inr h, hs⟩
      · rintro (h | ⟨rfl | h, hs⟩)
        · exact .inl h
        · exact .inl (hxy ▸ hmem)
        · exact .inr ⟨h, hs⟩
    · by_cases hskip : skip x
      · rw [appendNew_of_skip hskip,
          mem_foldl_appendNew l acc hlast fun a ha b hb ↦ hinj a (hsub a ha) b (hsub b hb),
          List.mem_cons]
        constructor
        · rintro (h | ⟨h, hs⟩)
          · exact .inl h
          · exact .inr ⟨.inr h, hs⟩
        · rintro (h | ⟨rfl | h, hs⟩)
          · exact .inl h
          · exact absurd hskip hs
          · exact .inr ⟨h, hs⟩
      · have hinj' : ∀ a ∈ (acc.1 ++ [x]) ++ l, ∀ b ∈ (acc.1 ++ [x]) ++ l,
            key a = key b → a = b := by
          intro a ha b hb
          rw [List.append_assoc, List.singleton_append] at ha hb
          exact hinj a ha b hb
        rw [appendNew_of_new hkey hskip, mem_foldl_appendNew l _ List.getLast?_concat.symm hinj',
          List.mem_append,
          List.mem_singleton, List.mem_cons]
        constructor
        · rintro ((h | rfl) | ⟨h, hs⟩)
          · exact .inl h
          · exact .inr ⟨.inl rfl, hskip⟩
          · exact .inr ⟨.inr h, hs⟩
        · rintro (h | ⟨rfl | h, hs⟩)
          · exact .inl (.inl h)
          · exact .inl (.inr rfl)
          · exact .inr ⟨h, hs⟩

end SortedMerge
