import PebblesDB.Db.SkipListSearch

/-!
# Inserting into the skip list

`Insert` keeps the shape `Wf`, and a run of inserts of distinct keys builds a list whose bottom
level holds exactly the inserted keys, in order. That is the whole of `Insert`'s contract, and
with `PebblesDB.Db.SkipListSearch` it makes the skip list a sorted set.

One level of `Insert` links the new node `x` after the node `FindGreaterOrEqual` left the level
from (`predOf`), to the node that one linked to (`succOf`). The observation the search made
there is that node, or null where a hint made it drop the level early; in the first case the
compare-and-swap succeeds at once, in the second it fails when the level goes on after
`predOf`, and the re-read loop finds `succOf` at its first step, so the second round succeeds.
Either way the level ends as `linked` says (`linkLevel_eq`), and `linked` splices `x` into the
level and keeps every hint exact (`Wf.linked`). `CasNext` lowers the hint of `predOf`'s link
to the new node's value, which is right because the extractor is monotone: `succOf`'s value is
at least the new key's.

The levels are linked from the bottom up, so at each step the level below already holds `x`
and the sublist order between levels is kept (`Linking`). The fuel of the retry loops is never
the limit (`insert_eq`), and `RandomHeight` stays within `kMaxHeight`.
-/

namespace PebblesDB.Db.SkipList

open LinkedList

variable {κ : Type} {ι : Type} [LinearOrder ι] {ikey : κ → ι} {ext : κ → UInt64}
  {s : SkipList κ} {L : ℕ → List ℕ}

/-! ## One level -/

/-- The list once `x` is linked on `level` between `prev` and the node `prev` linked to. -/
def linked (s : SkipList κ) (x level prev : ℕ) (succ : Option ℕ) : SkipList κ :=
  (s.setLink x level ⟨s.cmpOf succ, succ⟩).setLink prev level ⟨s.cmpAt x, some x⟩

section Linked

variable {x level prev : ℕ} {succ : Option ℕ}

@[simp] theorem keyAt_linked [Inhabited κ] (y : ℕ) :
    (linked s x level prev succ).keyAt y = s.keyAt y := by
  simp [linked]

@[simp] theorem cmpAt_linked (y : ℕ) : (linked s x level prev succ).cmpAt y = s.cmpAt y := by
  simp [linked]

@[simp] theorem cmpOf_linked (n : Option ℕ) : (linked s x level prev succ).cmpOf n = s.cmpOf n := by
  simp [linked]

@[simp] theorem height_linked (y : ℕ) : (linked s x level prev succ).height y = s.height y := by
  simp [linked]

@[simp] theorem length_linked : (linked s x level prev succ).nodes.length = s.nodes.length := by
  simp [linked]

theorem link_linked (y ℓ : ℕ) :
    (linked s x level prev succ).link y ℓ =
      if y = prev ∧ ℓ = level ∧ level < s.height prev then ⟨s.cmpAt x, some x⟩
      else if y = x ∧ ℓ = level ∧ level < s.height x then ⟨s.cmpOf succ, succ⟩
      else s.link y ℓ := by
  simp only [linked, link_setLink, height_setLink]

/-- Off `level`, and away from `prev` and `x`, the links are those before. -/
theorem next_linked_of_ne {y ℓ : ℕ} (hy : ℓ ≠ level ∨ (y ≠ prev ∧ y ≠ x)) :
    (linked s x level prev succ).next ℓ y = s.next ℓ y := by
  unfold next
  rw [link_linked]
  rcases hy with hℓ | ⟨hp, hx⟩
  · simp [hℓ]
  · simp [hp, hx]

end Linked

/-! ## Allocating the node -/

section Push

variable (ext) (s : SkipList κ) (key : κ) (h r : ℕ)

/-- The arena with `NewNode(key, height)` allocated at its end. -/
abbrev push : SkipList κ :=
  SkipList.mk (s.nodes ++ [newNode ext key h]) r

theorem link_push (y ℓ : ℕ) :
    (push ext s key h r).link y ℓ = if y < s.nodes.length then s.link y ℓ else .null := by
  split
  · next hy => exact link_append s _ r hy ℓ
  · next hy =>
    -- the new node's links are null, and past it there is nothing
    unfold link
    rw [List.getElem?_append_right (Nat.le_of_not_lt hy)]
    cases y - s.nodes.length <;> simp [newNode, List.getElem?_replicate]
    split <;> rfl

theorem keyAt_push_self [Inhabited κ] :
    (push ext s key h r).keyAt s.nodes.length = key := by
  simp [keyAt, newNode]

theorem cmpAt_push_self : (push ext s key h r).cmpAt s.nodes.length = ext key := by
  simp [cmpAt, newNode]

theorem height_push_self : (push ext s key h r).height s.nodes.length = h := by
  simp [height, newNode]

theorem length_push : (push ext s key h r).nodes.length = s.nodes.length + 1 := by
  simp

/-- A link to an allocated node reads the same value after the allocation. -/
theorem cmpOf_push {o : Option ℕ} (ho : ∀ n, o = some n → n < s.nodes.length) :
    (push ext s key h r).cmpOf o = s.cmpOf o := by
  cases o with
  | none => rfl
  | some n => exact cmpAt_append s _ r (ho n rfl)

end Push

variable [Inhabited κ]

variable (ikey) in
/-- The node a level links to `x` from: the last node below `x`'s key, or `head_`. -/
def predOf (s : SkipList κ) (x : ℕ) (l : List ℕ) : ℕ :=
  lastLower (belowKey ikey s (s.keyAt x)) l

variable (ikey) in
/-- The node `x` links to on a level: the first node at or after its key. -/
def succOf (s : SkipList κ) (x : ℕ) (l : List ℕ) : Option ℕ :=
  firstUpper (belowKey ikey s (s.keyAt x)) l

variable (ikey) in
/-- A level with `x` in its place, after the nodes below its key. -/
def spliceIn (s : SkipList κ) (x : ℕ) (l : List ℕ) : List ℕ :=
  lowerPart (belowKey ikey s (s.keyAt x)) l ++ x :: upperPart (belowKey ikey s (s.keyAt x)) l


/-! ### Linking `x` on level `i` -/

/-- **One round of a level**: when `prev`'s link still points to `n`, with its exact hint, and
the new node's value is at most `n`'s, the swap succeeds and the level is linked. -/
theorem linkLevel_of_link {x level p : ℕ} {n : Option ℕ} (fuel : ℕ) (hne : p ≠ x)
    (hlink : s.link p level = ⟨s.cmpOf n, n⟩) (hle : s.cmpAt x ≤ s.cmpOf n) :
    linkLevel ikey s x level (fuel + 1) p n = some (linked s x level p n) := by
  have hlink' : (s.setLink x level ⟨s.cmpOf n, n⟩).link p level = ⟨s.cmpOf n, n⟩ := by
    rw [link_setLink, if_neg fun h ↦ hne h.1, hlink]
  -- the hint loop leaves the new node's value, at most the old hint
  have hcas : casCmp (s.cmpAt x) 3 uint64Max (s.cmpOf n) = s.cmpAt x := by
    rw [casCmp_eq]
    split
    · rfl
    · next hnlt => exact UInt64.le_antisymm (UInt64.not_lt.1 hnlt) hle
  rw [linkLevel]
  simp only [cmpAt_setLink, if_pos hle, casNext, hlink', hcas, if_true]
  rfl

/-- The re-read loop stops at once where the link leads to a node at or after the new key. -/
theorem advance_of_link {xKey : κ} {xCmp : UInt64} {level p d : ℕ} (fuel : ℕ)
    (hlink : s.link p level = ⟨s.cmpAt d, some d⟩) (hcmp : xCmp ≤ s.cmpAt d)
    (hkey : ¬ ikey (s.keyAt d) < ikey xKey) :
    advance ikey s xKey xCmp level (fuel + 1) p = some (p, some d) := by
  rw [advance]
  simp [hlink, keyIsAfterNode, hkey, UInt64.not_lt.2 hcmp]

theorem mem_spliceIn {j : ℕ} {l : List ℕ} : j ∈ spliceIn ikey s x l ↔ j = x ∨ j ∈ l := by
  simp only [spliceIn, List.mem_append, List.mem_cons, lowerPart, upperPart, List.mem_filter]
  constructor
  · rintro ((⟨hj, -⟩) | rfl | ⟨hj, -⟩)
    · exact .inr hj
    · exact .inl rfl
    · exact .inr hj
  · rintro (rfl | hj)
    · exact .inr (.inl rfl)
    · cases hb : belowKey ikey s (s.keyAt x) j
      · exact .inr (.inr ⟨hj, rfl⟩)
      · exact .inl ⟨hj, rfl⟩

section Splice

variable {x : ℕ} {l l' : List ℕ}

theorem le_of_mem_upperPart {key : κ} {j : ℕ} (hj : j ∈ upperPart (belowKey ikey s key) l) :
    ikey key ≤ ikey (s.keyAt j) := by
  simpa [belowKey] using (List.mem_filter.1 hj).2

theorem lt_of_mem_upperPart (hkey : ∀ j ∈ l, j ≠ x → ikey (s.keyAt j) ≠ ikey (s.keyAt x))
    (hxl : x ∉ l) {j : ℕ} (hj : j ∈ upperPart (belowKey ikey s (s.keyAt x)) l) :
    ikey (s.keyAt x) < ikey (s.keyAt j) := by
  have hjl : j ∈ l := (List.mem_filter.1 hj).1
  refine lt_of_le_of_ne (le_of_mem_upperPart hj) fun heq ↦ ?_
  exact hkey j hjl (fun h ↦ hxl (h ▸ hjl)) heq.symm

/-- Splicing a node into a strictly increasing level keeps it strictly increasing, when no node
of the level has the new key. -/
theorem pairwise_spliceIn (hl : l.Pairwise fun i j ↦ ikey (s.keyAt i) < ikey (s.keyAt j))
    (hkey : ∀ j ∈ l, j ≠ x → ikey (s.keyAt j) ≠ ikey (s.keyAt x)) (hxl : x ∉ l) :
    (spliceIn ikey s x l).Pairwise fun i j ↦ ikey (s.keyAt i) < ikey (s.keyAt j) := by
  have hup := fun j hj ↦ lt_of_mem_upperPart hkey hxl (j := j) hj
  have hlow : ∀ j ∈ lowerPart (belowKey ikey s (s.keyAt x)) l,
      ikey (s.keyAt j) < ikey (s.keyAt x) := fun j hj ↦ by
    simpa [belowKey] using (mem_lowerPart.1 hj).2
  refine List.pairwise_append.2 ⟨hl.filter _, List.pairwise_cons.2 ⟨hup, hl.filter _⟩,
    fun a ha b hb ↦ ?_⟩
  rcases List.mem_cons.1 hb with rfl | hb
  · exact hlow a ha
  · exact lt_trans (hlow a ha) (hup b hb)

/-- A strictly increasing level is a sublist of itself with a node spliced in. -/
theorem sublist_spliceIn (hl : l.Pairwise fun i j ↦ ikey (s.keyAt i) < ikey (s.keyAt j)) :
    l.Sublist (spliceIn ikey s x l) := by
  have hsplit := filter_append_filter_not hl (lower_belowKey s (s.keyAt x))
  have h := ((List.sublist_cons_self x (upperPart (belowKey ikey s (s.keyAt x)) l)).append_left
    (lowerPart (belowKey ikey s (s.keyAt x)) l))
  rwa [lowerPart, upperPart, hsplit] at h

/-- In a strictly increasing level that holds `x`, the nodes at or after `x`'s key start with
`x`. -/
theorem upperPart_eq_cons (hl : l.Pairwise fun i j ↦ ikey (s.keyAt i) < ikey (s.keyAt j))
    (hx : x ∈ l) :
    ∃ rest, upperPart (belowKey ikey s (s.keyAt x)) l = x :: rest := by
  have hxu : x ∈ upperPart (belowKey ikey s (s.keyAt x)) l :=
    List.mem_filter.2 ⟨hx, by simp [belowKey]⟩
  obtain ⟨y, rest, hyr⟩ := List.exists_cons_of_ne_nil (List.ne_nil_of_mem hxu)
  refine ⟨rest, ?_⟩
  rw [hyr] at hxu ⊢
  rcases List.mem_cons.1 hxu with rfl | hxr
  · rfl
  · -- a node before `x` at or after its key would have a smaller key
    have hpu : (y :: rest).Pairwise fun i j ↦ ikey (s.keyAt i) < ikey (s.keyAt j) :=
      hyr ▸ hl.filter _
    have hlt := (List.pairwise_cons.1 hpu).1 x hxr
    have hle := le_of_mem_upperPart (hyr ▸ List.mem_cons_self : y ∈ upperPart _ l)
    exact absurd hle (not_le.2 hlt)

/-- **A spliced level stays below the level under it**, once that level holds `x`. -/
theorem spliceIn_sublist (hl' : l'.Pairwise fun i j ↦ ikey (s.keyAt i) < ikey (s.keyAt j))
    (hsub : l.Sublist l') (hx : x ∈ l') (hxl : x ∉ l) :
    (spliceIn ikey s x l).Sublist l' := by
  obtain ⟨rest, hrest⟩ := upperPart_eq_cons hl' hx
  have hsplit := filter_append_filter_not hl' (lower_belowKey s (s.keyAt x))
  -- the upper part of `l` misses `x`, so it is a sublist of `rest`
  have hup : (upperPart (belowKey ikey s (s.keyAt x)) l).Sublist rest := by
    have h := hsub.filter fun i ↦ !belowKey ikey s (s.keyAt x) i
    rw [← upperPart, ← upperPart, hrest] at h
    rcases List.sublist_cons_iff.1 h with h | ⟨r, hr, -⟩
    · exact h
    · exact absurd (List.mem_filter.1 (hr ▸ List.mem_cons_self : x ∈ upperPart _ l)).1 hxl
  have h := (hsub.filter (belowKey ikey s (s.keyAt x))).append (hup.cons_cons x)
  rw [← lowerPart, ← hrest] at h
  unfold lowerPart upperPart at h
  rwa [hsplit] at h

end Splice

/-- A node of a level with `x` spliced in on level `i` is `x`, or was on the level before. -/
theorem mem_update_spliceIn {x i ℓ j : ℕ}
    (hj : j ∈ Function.update L i (spliceIn ikey s x (L i)) ℓ) : (j = x ∧ ℓ = i) ∨ j ∈ L ℓ := by
  rcases eq_or_ne ℓ i with rfl | hne
  · rw [Function.update_self] at hj
    exact (mem_spliceIn.1 hj).imp (fun h ↦ ⟨h, rfl⟩) id
  · rw [Function.update_of_ne hne] at hj
    exact .inr hj

theorem predOf_ne {x i : ℕ} (hx0 : x ≠ 0) (hxi : x ∉ L i) : predOf ikey s x (L i) ≠ x := by
  have hmem := mem_cons_of_mem_lower (List.getLast_mem (List.cons_ne_nil 0
    (lowerPart (belowKey ikey s (s.keyAt x)) (L i))))
  intro heq
  rw [← lastLower, ← predOf, heq] at hmem
  rcases List.mem_cons.1 hmem with h | h
  · exact hx0 h
  · exact hxi h

namespace Wf

variable (hwf : Wf ikey ext s L) (hext : ∀ a b, ikey a ≤ ikey b → ext a ≤ ext b)
  {x i : ℕ} (hi : i < kMaxHeight) (hx0 : x ≠ 0) (hxi : x ∉ L i)
  (hkey : ∀ j ∈ L 0, j ≠ x → ikey (s.keyAt j) ≠ ikey (s.keyAt x))
include hwf hi

theorem height_predOf : i < s.height (predOf ikey s x (L i)) := by
  have hmem := mem_cons_of_mem_lower (List.getLast_mem (List.cons_ne_nil 0
    (lowerPart (belowKey ikey s (s.keyAt x)) (L i))))
  rw [← lastLower, ← predOf] at hmem
  rcases List.mem_cons.1 hmem with h | h
  · rw [h, hwf.headHeight]
    exact hi
  · exact hwf.height i hi _ h

/-- `predOf`'s link is to `succOf`, with its exact hint. -/
theorem link_predOf :
    s.link (predOf ikey s x (L i)) i =
      ⟨s.cmpOf (succOf ikey s x (L i)), succOf ikey s x (L i)⟩ := by
  have hnext := hwf.next_lastLower (lower_belowKey s (s.keyAt x)) hi
  have hhint := hwf.hint (predOf ikey s x (L i)) i
  rw [← predOf, ← succOf] at hnext
  rcases hl : s.link (predOf ikey s x (L i)) i with ⟨c, n⟩
  rw [hl] at hhint
  unfold next at hnext
  rw [hl] at hnext
  simp only at hnext hhint
  rw [hhint, hnext]

include hxi hkey in
/-- The node `x` links to has a larger key: the keys are distinct. -/
theorem lt_of_succOf {d : ℕ} (hsucc : succOf ikey s x (L i) = some d) :
    ikey (s.keyAt x) < ikey (s.keyAt d) := by
  obtain ⟨hd, hnb⟩ := List.mem_filter.1 (List.mem_of_mem_head? hsucc)
  have hne : d ≠ x := fun h ↦ hxi (h ▸ hd)
  refine lt_of_le_of_ne (not_lt.1 (by simpa [belowKey] using hnb)) fun heq ↦ ?_
  exact hkey d (hwf.mem_zero hi hd) hne heq.symm

include hext hxi hkey in
/-- The new node's value is at most that of the node it links to. -/
theorem cmpAt_le_cmpOf_succOf (hcmp : s.cmpAt x = ext (s.keyAt x)) :
    s.cmpAt x ≤ s.cmpOf (succOf ikey s x (L i)) := by
  cases hsucc : succOf ikey s x (L i) with
  | none => exact uint64Max_le _
  | some d =>
    have hd := hwf.mem_zero hi (List.mem_filter.1 (List.mem_of_mem_head? hsucc)).1
    rw [cmpOf_some, hwf.cmp d hd, hcmp]
    exact hext _ _ (le_of_lt (hwf.lt_of_succOf hi hxi hkey hsucc))

include hext hx0 hxi hkey in
/-- **One level of `Insert`** links `x` between `predOf` and `succOf`, whether the search saw
`succOf` there or dropped the level early with a null observation. Two rounds suffice. -/
theorem linkLevel_eq (hcmp : s.cmpAt x = ext (s.keyAt x)) {fuel : ℕ} (hfuel : 2 ≤ fuel)
    {obs : Option ℕ} (hobs : obs = succOf ikey s x (L i) ∨ (0 < i ∧ obs = none)) :
    linkLevel ikey s x i fuel (predOf ikey s x (L i)) obs =
      some (linked s x i (predOf ikey s x (L i)) (succOf ikey s x (L i))) := by
  obtain ⟨fuel, rfl⟩ := Nat.exists_eq_add_of_le' hfuel
  have hne : predOf ikey s x (L i) ≠ x := predOf_ne hx0 hxi
  have hlink := hwf.link_predOf hi (x := x)
  have hle := hwf.cmpAt_le_cmpOf_succOf hext hi hxi hkey hcmp
  rcases hobs with rfl | ⟨-, rfl⟩
  · exact linkLevel_of_link _ hne hlink hle
  · cases hsucc : succOf ikey s x (L i) with
    | none =>
      rw [hsucc] at hlink
      exact linkLevel_of_link _ hne hlink (uint64Max_le _)
    | some d =>
      -- the null observation is stale: the swap fails, the re-read finds `d`
      rw [hsucc] at hlink
      have hlink' : (s.setLink x i ⟨uint64Max, none⟩).link (predOf ikey s x (L i)) i =
          ⟨(s.setLink x i ⟨uint64Max, none⟩).cmpAt d, some d⟩ := by
        rw [link_setLink, if_neg fun h ↦ hne h.1, hlink, cmpOf_some, cmpAt_setLink]
      have hcmpd : s.cmpAt x ≤ s.cmpAt d := by
        simpa [hsucc] using hle
      rw [linkLevel]
      simp only [cmpOf_none]
      simp only [cmpAt_setLink, keyAt_setLink, if_pos (uint64Max_le (s.cmpAt x)), casNext, hlink',
        reduceCtorEq, if_false]
      have hlink'' : (s.setLink x i ⟨uint64Max, none⟩).link (predOf ikey s x (L i)) i =
          ⟨(s.setLink x i ⟨uint64Max, none⟩).cmpOf (some d), some d⟩ := hlink'
      rw [advance_of_link _ hlink' (by simpa using hcmpd)
          (by simpa using not_lt.2 (le_of_lt (hwf.lt_of_succOf hi hxi hkey hsucc)))]
      dsimp only
      rw [linkLevel_of_link _ hne hlink'' (by simpa using hcmpd)]
      simp [linked, setLink_setLink]

include hx0 hxi in
/-- On level `i`, `linked` splices `x` in between `predOf` and `succOf`. -/
theorem isList_linked (hheight : i < s.height x) :
    IsList ((linked s x i (predOf ikey s x (L i)) (succOf ikey s x (L i))).next i) 0
      (spliceIn ikey s x (L i)) := by
  have hne : predOf ikey s x (L i) ≠ x := predOf_ne hx0 hxi
  refine (hwf.isList_split (lower_belowKey s (s.keyAt x)) hi).splice ?_ ?_ fun c hc hcne ↦ ?_
  · -- `predOf` now links to `x`
    show (linked s x i (predOf ikey s x (L i)) (succOf ikey s x (L i))).next i
      (predOf ikey s x (L i)) = some x
    rw [next, link_linked, if_pos ⟨rfl, rfl, hwf.height_predOf hi⟩]
  · -- and `x` to `succOf`
    show (linked s x i (predOf ikey s x (L i)) (succOf ikey s x (L i))).next i x =
      succOf ikey s x (L i)
    rw [next, link_linked, if_neg fun h ↦ hne h.1.symm, if_pos ⟨rfl, rfl, hheight⟩]
  · -- every other node of the level keeps its link
    refine next_linked_of_ne (.inr ⟨hcne, fun hcx ↦ ?_⟩)
    rcases List.mem_cons.1 hc with h0 | hc
    · exact hx0 (hcx ▸ h0)
    · rcases List.mem_append.1 hc with h | h <;> exact hxi (hcx ▸ (List.mem_filter.1 h).1)

include hx0 hxi hkey in
/-- **Linking level `i` keeps the shape**, with `x` spliced into level `i`, once the level
below holds `x` and `x` is tall enough. -/
theorem insertLevel (hxlen : x < s.nodes.length) (hheight : i < s.height x)
    (hcmp : s.cmpAt x = ext (s.keyAt x)) (hbelow : 0 < i → x ∈ L (i - 1)) :
    Wf ikey ext (linked s x i (predOf ikey s x (L i)) (succOf ikey s x (L i)))
      (Function.update L i (spliceIn ikey s x (L i))) where
  isList ℓ hℓ := by
    rcases eq_or_ne ℓ i with rfl | hne
    · rw [Function.update_self]
      exact hwf.isList_linked hi hx0 hxi hheight
    · rw [Function.update_of_ne hne]
      exact (hwf.isList ℓ hℓ).frame fun c _ ↦ next_linked_of_ne (.inl hne)
  sorted := by
    simp only [keyAt_linked]
    rcases eq_or_ne i 0 with rfl | hi0
    · rw [Function.update_self]
      exact pairwise_spliceIn hwf.sorted hkey hxi
    · rw [Function.update_of_ne (Ne.symm hi0)]
      exact hwf.sorted
  sublist ℓ hℓ := by
    by_cases hℓi : ℓ = i
    · -- the level above the spliced one is below the old level `i`
      rw [hℓi, Function.update_of_ne (Nat.succ_ne_self i), Function.update_self]
      exact (hwf.sublist i (hℓi ▸ hℓ)).trans (sublist_spliceIn (hwf.pairwise hi))
    by_cases hsi : ℓ + 1 = i
    · -- the spliced level is below the level under it, which holds `x` already
      rw [hsi, Function.update_self, Function.update_of_ne hℓi]
      have hx : x ∈ L ℓ := by simpa [← hsi] using hbelow (hsi ▸ Nat.succ_pos ℓ)
      exact spliceIn_sublist (hwf.pairwise (Nat.lt_of_succ_lt hℓ)) (hsi ▸ hwf.sublist ℓ hℓ) hx
        hxi
    · rw [Function.update_of_ne hsi, Function.update_of_ne hℓi]
      exact hwf.sublist ℓ hℓ
  height ℓ hℓ j hj := by
    rw [height_linked]
    rcases mem_update_spliceIn hj with ⟨rfl, rfl⟩ | hj
    · exact hheight
    · exact hwf.height ℓ hℓ j hj
  headHeight := by
    rw [height_linked]
    exact hwf.headHeight
  node j hj := by
    rw [length_linked]
    rcases mem_update_spliceIn hj with ⟨rfl, -⟩ | hj
    · exact ⟨Nat.pos_of_ne_zero hx0, hxlen⟩
    · exact hwf.node j hj
  hint y ℓ := by
    rw [link_linked, cmpOf_linked]
    split_ifs
    · rfl
    · rfl
    · exact hwf.hint y ℓ
  cmp j hj := by
    rw [cmpAt_linked, keyAt_linked]
    rcases mem_update_spliceIn hj with ⟨rfl, -⟩ | hj
    · exact hcmp
    · exact hwf.cmp j hj
  target y ℓ n hn := by
    rw [length_linked]
    unfold next at hn
    rw [link_linked] at hn
    split_ifs at hn
    · -- `predOf` links to `x`
      obtain rfl : x = n := Option.some.inj hn
      exact hxlen
    · -- `x` links to `succOf`, a node of level `i`
      exact (hwf.node n (hwf.mem_zero hi (List.mem_filter.1 (List.mem_of_mem_head? hn)).1)).2
    · exact hwf.target y ℓ n hn

end Wf


namespace Wf

variable (hwf : Wf ikey ext s L)
include hwf

theorem length_pos : 0 < s.nodes.length := by
  by_contra h
  have hnone : s.nodes[0]? = none := List.getElem?_eq_none_iff.2 (Nat.le_of_not_lt h)
  have hh := hwf.headHeight
  simp [SkipList.height, hnone, kMaxHeight] at hh

/-- `head_` and the nodes of every level are allocated. -/
theorem lt_length {ℓ c : ℕ} (hℓ : ℓ < kMaxHeight) (hc : c ∈ 0 :: L ℓ) : c < s.nodes.length := by
  rcases List.mem_cons.1 hc with rfl | hc
  · exact hwf.length_pos
  · exact (hwf.node c (hwf.mem_zero hℓ hc)).2

/-- **Allocating a node keeps the shape**: no link leads to it yet. -/
theorem push (key : κ) (h r : ℕ) : Wf ikey ext (push ext s key h r) L where
  isList ℓ hℓ := (hwf.isList ℓ hℓ).frame fun c hc ↦ by
    unfold next
    rw [link_push, if_pos (hwf.lt_length hℓ hc)]
  sorted := hwf.sorted.imp_of_mem fun ha hb hab ↦ by
    rwa [keyAt_append _ _ _ (hwf.node _ ha).2, keyAt_append _ _ _ (hwf.node _ hb).2]
  sublist := hwf.sublist
  height ℓ hℓ j hj := by
    rw [height_append _ _ _ (hwf.node j (hwf.mem_zero hℓ hj)).2]
    exact hwf.height ℓ hℓ j hj
  headHeight := by
    rw [height_append _ _ _ hwf.length_pos]
    exact hwf.headHeight
  node j hj := by
    rw [length_push]
    exact ⟨(hwf.node j hj).1, Nat.lt_succ_of_lt (hwf.node j hj).2⟩
  hint y ℓ := by
    rw [link_push]
    split
    · rw [cmpOf_push (o := (s.link y ℓ).next) _ _ _ _ _ (hwf.target y ℓ)]
      exact hwf.hint y ℓ
    · rfl
  cmp j hj := by
    rw [cmpAt_append _ _ _ (hwf.node j hj).2, keyAt_append _ _ _ (hwf.node j hj).2]
    exact hwf.cmp j hj
  target y ℓ n hn := by
    unfold next at hn
    rw [link_push] at hn
    rw [length_push]
    split at hn
    · exact Nat.lt_succ_of_lt (hwf.target y ℓ n hn)
    · cases hn

end Wf

/-! ## The linking loop -/

/-- `s'` has the nodes of `s`, up to their links. -/
structure SameNodes (s s' : SkipList κ) : Prop where
  keyAt : s'.keyAt = s.keyAt
  cmpAt : s'.cmpAt = s.cmpAt
  height : s'.height = s.height
  length : s'.nodes.length = s.nodes.length

theorem SameNodes.refl (s : SkipList κ) : SameNodes s s :=
  ⟨rfl, rfl, rfl, rfl⟩

/-- Linking a level changes links only. -/
theorem SameNodes.linked {s' : SkipList κ} {x level prev : ℕ} {succ : Option ℕ}
    (h : SameNodes s s') : SameNodes s (linked s' x level prev succ) where
  keyAt := by
    funext y
    rw [keyAt_linked, h.keyAt]
  cmpAt := by
    funext y
    rw [cmpAt_linked, h.cmpAt]
  height := by
    funext y
    rw [height_linked, h.height]
  length := by rw [length_linked, h.length]

theorem perm_spliceIn (x : ℕ) (l : List ℕ) : (spliceIn ikey s x l).Perm (x :: l) :=
  List.perm_middle.trans ((List.filter_append_perm _ l).cons x)

/-- Where `x` goes on a level depends on the keys of the nodes only. -/
theorem spliceIn_of_keyAt {s' : SkipList κ} (h : s'.keyAt = s.keyAt) (x : ℕ) (l : List ℕ) :
    spliceIn ikey s' x l = spliceIn ikey s x l := by
  unfold spliceIn belowKey
  rw [h]

/-- So does what a search leaves in its trail. -/
theorem Found.of_keyAt {s' : SkipList κ} {key : κ} {t : Trail} {ℓ : ℕ}
    (hf : Found ikey s L key t ℓ) (h : ∀ j ∈ L ℓ, s'.keyAt j = s.keyAt j) :
    Found ikey s' L key t ℓ := by
  have hp : ∀ j ∈ L ℓ, belowKey ikey s' key j = belowKey ikey s key j := fun j hj ↦ by
    simp [belowKey, h j hj]
  have hlow : lowerPart (belowKey ikey s' key) (L ℓ) = lowerPart (belowKey ikey s key) (L ℓ) :=
    List.filter_congr hp
  have hup : upperPart (belowKey ikey s' key) (L ℓ) = upperPart (belowKey ikey s key) (L ℓ) :=
    List.filter_congr fun j hj ↦ by rw [hp j hj]
  simp only [Found, lastLower_eq, firstUpper, hlow, hup] at hf ⊢
  exact hf

variable (ikey) in
/-- The levels once `x` is linked on every level below `n`. -/
def linkedLevels (s : SkipList κ) (x n : ℕ) (L : ℕ → List ℕ) (ℓ : ℕ) : List ℕ :=
  if ℓ < n then spliceIn ikey s x (L ℓ) else L ℓ

section LinkedLevels

variable {x n ℓ j : ℕ}

theorem linkedLevels_zero : linkedLevels ikey s x 0 L = L := by
  funext ℓ
  simp [linkedLevels]

theorem mem_linkedLevels (hj : j ∈ linkedLevels ikey s x n L ℓ) : j = x ∨ j ∈ L ℓ := by
  unfold linkedLevels at hj
  split at hj
  · exact mem_spliceIn.1 hj
  · exact .inr hj

/-- Linking level `n` of a list whose nodes are those of `s`. -/
theorem update_linkedLevels {s' : SkipList κ} (h : s'.keyAt = s.keyAt) :
    Function.update (linkedLevels ikey s x n L) n
        (spliceIn ikey s' x (linkedLevels ikey s x n L n)) =
      linkedLevels ikey s x (n + 1) L := by
  funext ℓ
  rcases eq_or_ne ℓ n with rfl | hne
  · simp [linkedLevels, spliceIn_of_keyAt h]
  · rw [Function.update_of_ne hne]
    unfold linkedLevels
    by_cases hlt : ℓ < n
    · rw [if_pos hlt, if_pos (Nat.lt_succ_of_lt hlt)]
    · rw [if_neg hlt, if_neg (by omega)]

end LinkedLevels

namespace Wf

variable (hwf : Wf ikey ext s L) (hext : ∀ a b, ikey a ≤ ikey b → ext a ≤ ext b)
include hwf hext

/-- **The linking loop of `Insert`**: linking the levels below `n` from the bottom up splices
`x` into each of them, and the retry loops never run out of fuel. The loop invariant is
`Wf` with the levels `linkedLevels`, over nodes that stay those of `s`. -/
theorem foldlM_linkLevel {x : ℕ} {t : Trail} (hx0 : x ≠ 0) (hxlen : x < s.nodes.length)
    (hxL : x ∉ L 0) (hkey : ∀ j ∈ L 0, ikey (s.keyAt j) ≠ ikey (s.keyAt x))
    (hcmp : s.cmpAt x = ext (s.keyAt x)) (hfound : ∀ ℓ < kMaxHeight, Found ikey s L (s.keyAt x) t ℓ)
    (hh : s.height x ≤ kMaxHeight) :
    ∀ n ≤ s.height x, ∃ s', (List.range n).foldlM
        (fun s i ↦ linkLevel ikey s x i (s.nodes.length + 2) (t.prev i) (t.obs i)) s = some s' ∧
      SameNodes s s' ∧ Wf ikey ext s' (linkedLevels ikey s x n L) := by
  intro n
  induction n with
  | zero =>
    intro _
    refine ⟨s, rfl, .refl s, ?_⟩
    rw [linkedLevels_zero]
    exact hwf
  | succ n ih =>
    intro hn
    obtain ⟨s', hfold, hsame, hwf'⟩ := ih (Nat.le_of_succ_le hn)
    have hi : n < kMaxHeight := Nat.lt_of_lt_of_le hn hh
    have hMn : linkedLevels ikey s x n L n = L n := if_neg (Nat.lt_irrefl n)
    have hxi : x ∉ linkedLevels ikey s x n L n := hMn ▸ fun h ↦ hxL (hwf.mem_zero hi h)
    have hkey' : ∀ j ∈ linkedLevels ikey s x n L 0, j ≠ x →
        ikey (s'.keyAt j) ≠ ikey (s'.keyAt x) := by
      intro j hj hjx
      rw [hsame.keyAt]
      exact hkey j ((mem_linkedLevels hj).resolve_left hjx)
    have hcmp' : s'.cmpAt x = ext (s'.keyAt x) := by
      rw [hsame.cmpAt, hsame.keyAt]
      exact hcmp
    -- the search's trail names `predOf` and `succOf` of the level in the current list
    have hf : Found ikey s' L (s'.keyAt x) t n := by
      rw [hsame.keyAt]
      exact (hfound n hi).of_keyAt fun j _ ↦ congrFun hsame.keyAt j
    have hprev : t.prev n = predOf ikey s' x (linkedLevels ikey s x n L n) := by
      rw [hMn]
      exact hf.1
    have hobs : t.obs n = succOf ikey s' x (linkedLevels ikey s x n L n) ∨
        (0 < n ∧ t.obs n = none) := by
      rw [hMn]
      exact hf.2
    have hbelow : 0 < n → x ∈ linkedLevels ikey s x n L (n - 1) := fun hn0 ↦ by
      rw [linkedLevels, if_pos (Nat.sub_lt hn0 Nat.one_pos)]
      exact mem_spliceIn.2 (.inl rfl)
    rw [List.range_succ, List.foldlM_append, hfold]
    simp only [List.foldlM_cons, List.foldlM_nil, Option.bind_eq_bind, Option.bind_some,
      Option.pure_def, Option.bind_fun_some]
    rw [hprev, hwf'.linkLevel_eq hext hi hx0 hxi hkey' hcmp' (Nat.le_add_left 2 _) hobs]
    refine ⟨_, rfl, hsame.linked, ?_⟩
    have hnext := hwf'.insertLevel hi hx0 hxi hkey' (hsame.length ▸ hxlen)
      (by rw [hsame.height]; exact hn) hcmp' hbelow
    rwa [update_linkedLevels hsame.keyAt] at hnext

/-- **`Insert` of a new key** succeeds and keeps the shape, with the key added to the bottom
level. -/
theorem insert_eq (key : κ) (hnew : ∀ j ∈ L 0, ikey (s.keyAt j) ≠ ikey key) :
    ∃ s' L', insert ikey ext s key = some s' ∧ Wf ikey ext s' L' ∧
      ((L' 0).map s'.keyAt).Perm (key :: (L 0).map s.keyAt) := by
  obtain ⟨t, hfge, hfound⟩ := hwf.findGreaterOrEqual_eq hext key
  -- the node found holds another key, so the `assert` passes
  have hany : (firstUpper (belowKey ikey s key) (L 0)).any
      (fun n ↦ decide (ikey (s.keyAt n) = ikey key)) = false := by
    cases hf : firstUpper (belowKey ikey s key) (L 0) with
    | none => rfl
    | some d => simpa using hnew d (List.mem_filter.1 (List.mem_of_mem_head? hf)).1
  obtain ⟨hh1, hhmax⟩ := randomHeight_bounds s.rnd
  rcases hr : randomHeight s.rnd with ⟨h, r⟩
  rw [hr] at hh1 hhmax
  dsimp only at hh1 hhmax
  -- the new node `x`, allocated at the end of the arena
  have hold : ∀ ℓ < kMaxHeight, ∀ j ∈ L ℓ,
      (SkipList.push ext s key h r).keyAt j = s.keyAt j :=
    fun ℓ hℓ j hj ↦ keyAt_append _ _ _ (hwf.node j (hwf.mem_zero hℓ hj)).2
  have hxL : s.nodes.length ∉ L 0 := fun hx ↦ Nat.lt_irrefl _ (hwf.node _ hx).2
  have hkey : ∀ j ∈ L 0, ikey ((SkipList.push ext s key h r).keyAt j) ≠
      ikey ((SkipList.push ext s key h r).keyAt s.nodes.length) := fun j hj ↦ by
    rw [keyAt_push_self, hold 0 (by decide) j hj]
    exact hnew j hj
  have hcmp : (SkipList.push ext s key h r).cmpAt s.nodes.length =
      ext ((SkipList.push ext s key h r).keyAt s.nodes.length) := by
    rw [cmpAt_push_self, keyAt_push_self]
  have hfound' : ∀ ℓ < kMaxHeight, Found ikey (SkipList.push ext s key h r) L
      ((SkipList.push ext s key h r).keyAt s.nodes.length) t ℓ := fun ℓ hℓ ↦ by
    rw [keyAt_push_self]
    exact (hfound ℓ hℓ).of_keyAt (hold ℓ hℓ)
  have hheight := height_push_self ext s key h r
  obtain ⟨s', hfold, hsame, hwf'⟩ := (hwf.push key h r).foldlM_linkLevel hext
    (Nat.pos_iff_ne_zero.1 hwf.length_pos)
    (Nat.lt_of_lt_of_eq (Nat.lt_succ_self _) (length_push ext s key h r).symm) hxL
    hkey hcmp hfound' (Nat.le_trans (Nat.le_of_eq hheight) hhmax) h (Nat.le_of_eq hheight.symm)
  refine ⟨s', _, ?_, hwf', ?_⟩
  · simp only [insert, hfge, hany, hr, Option.bind_eq_bind, Option.bind_some, Bool.false_eq_true,
      if_false]
    exact hfold
  · -- the bottom level is the old one with `x` spliced in
    have hL0 : linkedLevels ikey (SkipList.push ext s key h r) s.nodes.length h L 0 =
        spliceIn ikey (SkipList.push ext s key h r) s.nodes.length (L 0) := if_pos hh1
    have hmap : (L 0).map (SkipList.push ext s key h r).keyAt = (L 0).map s.keyAt :=
      List.map_congr_left (hold 0 (by decide))
    rw [hL0, hsame.keyAt]
    calc ((spliceIn ikey _ s.nodes.length (L 0)).map
          (SkipList.push ext s key h r).keyAt).Perm
          ((s.nodes.length :: L 0).map (SkipList.push ext s key h r).keyAt) :=
        (perm_spliceIn _ _).map _
      _ = key :: (L 0).map s.keyAt := by rw [List.map_cons, keyAt_push_self, hmap]

include hwf hext in
/-- **A run of `Insert`s of new, distinct keys** succeeds and keeps the shape; the bottom
level then holds the old keys and the new ones. -/
theorem insertAll_eq (keys : List κ) (hnd : keys.Pairwise fun a b ↦ ikey a ≠ ikey b)
    (hnew : ∀ j ∈ L 0, ∀ k ∈ keys, ikey (s.keyAt j) ≠ ikey k) :
    ∃ s' L', insertAll ikey ext s keys = some s' ∧ Wf ikey ext s' L' ∧
      ((L' 0).map s'.keyAt).Perm (keys ++ (L 0).map s.keyAt) := by
  induction keys generalizing s L with
  | nil => exact ⟨s, L, rfl, hwf, List.Perm.refl _⟩
  | cons k keys ih =>
    obtain ⟨hk, hnd⟩ := List.pairwise_cons.1 hnd
    obtain ⟨s₁, L₁, hins, hwf₁, hperm₁⟩ :=
      hwf.insert_eq hext k fun j hj ↦ hnew j hj k List.mem_cons_self
    -- the keys still to come are new to the list after this `Insert`
    have hnew₁ : ∀ j ∈ L₁ 0, ∀ k' ∈ keys, ikey (s₁.keyAt j) ≠ ikey k' := by
      intro j hj k' hk'
      rcases List.mem_cons.1 (hperm₁.subset (List.mem_map_of_mem hj)) with heq | hmem
      · rw [heq]
        exact hk k' hk'
      · obtain ⟨j', hj', heq⟩ := List.mem_map.1 hmem
        rw [← heq]
        exact hnew j' hj' k' (List.mem_cons_of_mem k hk')
    obtain ⟨s', L', hall, hwf', hperm⟩ := ih hwf₁ hnd hnew₁
    refine ⟨s', L', ?_, hwf', ?_⟩
    · rw [insertAll, hins, Option.bind_some]
      exact hall
    · calc ((L' 0).map s'.keyAt).Perm (keys ++ (L₁ 0).map s₁.keyAt) := hperm
        List.Perm _ (keys ++ k :: (L 0).map s.keyAt) := hperm₁.append_left keys
        List.Perm _ (k :: keys ++ (L 0).map s.keyAt) := List.perm_middle

end Wf

/-! ## The new list -/

theorem link_create (x ℓ : ℕ) : (create ext : SkipList κ).link x ℓ = .null := by
  unfold link create
  cases x <;> simp [newNode, List.getElem?_replicate]
  split <;> rfl

variable (ikey ext) in
/-- **A new list has the shape**, with every level empty. -/
theorem wf_create : Wf ikey ext (create ext : SkipList κ) fun _ ↦ [] where
  isList _ _ := .nil (by rw [next, link_create]; rfl)
  sorted := List.Pairwise.nil
  sublist _ _ := List.Sublist.slnil
  height _ _ _ hj := absurd hj List.not_mem_nil
  headHeight := by simp [create, SkipList.height, newNode]
  node _ hj := absurd hj List.not_mem_nil
  hint x ℓ := by
    rw [link_create]
    rfl
  cmp _ hj := absurd hj List.not_mem_nil
  target x ℓ n hn := by
    rw [next, link_create] at hn
    cases hn

end PebblesDB.Db.SkipList
