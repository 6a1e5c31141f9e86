import Mathlib.Data.List.Perm.Subperm
import Mathlib.Data.Nat.Init
import PebblesDB.Db.SkipList

/-!
# Searching the skip list

The shape a skip list keeps is `Wf`: each level is a linked list from `head_` (the list `L ℓ`
of nodes), the bottom level is strictly increasing, each level is a sublist of the one below,
and every hint is the extractor's value of the node linked to. On such a list the searches of
the code find what their names say, whatever the hints made them skip.

All three searches walk a level while the next node satisfies a predicate that holds on an
initial part of every level (`Lower`): "below the key" for `FindGreaterOrEqual` and
`FindLessThan`, "any node" for `FindLast`. Each level splits into the part where it holds and
the rest (`lowerPart`, `upperPart`); from a node of the lower part, the link leads into the
lower part or, from its last node (`lastLower`), to the first node of the rest (`firstUpper`).
So a walk that stops where the predicate fails has stopped at `lastLower`, the same node on
every level it descends through.

The hints only change how `FindGreaterOrEqual` decides. A hint above the key's value marks a
node at or after the key, because the extractor is monotone; a hint below it marks a node below
the key. So dropping a level early is dropping it at `lastLower`, with a null observation in
place of `firstUpper` (`Found`). Every walk ends because each move passes a node of the bottom
level below the key (`remaining`), and each descent passes a level; the fuel the model gives is
more than both together (`findGreaterOrEqual_eq`, `findLessThan_eq`, `findLast_eq`).
-/

namespace PebblesDB.Db.SkipList

open LinkedList

variable {κ : Type} [Inhabited κ] {ι : Type} [LinearOrder ι] {ikey : κ → ι} {ext : κ → UInt64}
  {s : SkipList κ} {L : ℕ → List ℕ}

/-! ## The invariant -/

variable (ikey ext) in
/-- The shape of a skip list whose level `ℓ` is the list `L ℓ` of nodes. -/
structure Wf (s : SkipList κ) (L : ℕ → List ℕ) : Prop where
  /-- Each level is a linked list from `head_`. -/
  isList : ∀ ℓ < kMaxHeight, IsList (s.next ℓ) 0 (L ℓ)
  /-- The bottom level is strictly increasing. -/
  sorted : (L 0).Pairwise fun i j ↦ ikey (s.keyAt i) < ikey (s.keyAt j)
  /-- Each level is a sublist of the level below. -/
  sublist : ∀ ℓ, ℓ + 1 < kMaxHeight → (L (ℓ + 1)).Sublist (L ℓ)
  /-- A node is on the levels below its height only. -/
  height : ∀ ℓ < kMaxHeight, ∀ i ∈ L ℓ, ℓ < s.height i
  /-- `head_` has every level. -/
  headHeight : s.height 0 = kMaxHeight
  /-- The nodes are allocated, and none of them is `head_`. -/
  node : ∀ i ∈ L 0, 0 < i ∧ i < s.nodes.length
  /-- Every hint is the value stored in the node linked to. -/
  hint : ∀ x ℓ, (s.link x ℓ).cmp = s.cmpOf (s.link x ℓ).next
  /-- A node stores the extractor's value of its key. -/
  cmp : ∀ i ∈ L 0, s.cmpAt i = ext (s.keyAt i)
  /-- Every link leads to an allocated node. -/
  target : ∀ x ℓ n, s.next ℓ x = some n → n < s.nodes.length

namespace Wf

variable (hwf : Wf ikey ext s L)
include hwf

theorem sublist_zero : ∀ ℓ < kMaxHeight, (L ℓ).Sublist (L 0) := by
  intro ℓ
  induction ℓ with
  | zero => intro _; exact List.Sublist.refl _
  | succ ℓ ih =>
    intro hℓ
    exact (hwf.sublist ℓ hℓ).trans (ih (Nat.lt_of_succ_lt hℓ))

theorem mem_zero {ℓ i : ℕ} (hℓ : ℓ < kMaxHeight) (hi : i ∈ L ℓ) : i ∈ L 0 :=
  (hwf.sublist_zero ℓ hℓ).subset hi

/-- **Every level is strictly increasing.** -/
theorem pairwise {ℓ : ℕ} (hℓ : ℓ < kMaxHeight) :
    (L ℓ).Pairwise fun i j ↦ ikey (s.keyAt i) < ikey (s.keyAt j) :=
  hwf.sorted.sublist (hwf.sublist_zero ℓ hℓ)

/-- Along a level, a node links to a node with a larger key. -/
theorem lt_of_next {ℓ x d : ℕ} (hℓ : ℓ < kMaxHeight) (hx : x ∈ L ℓ) (hnext : s.next ℓ x = some d) :
    ikey (s.keyAt x) < ikey (s.keyAt d) :=
  (hwf.isList ℓ hℓ).rel_next (hwf.pairwise hℓ) hx hnext

/-- The bottom level holds at most as many nodes as the arena. -/
theorem length_le : (L 0).length ≤ s.nodes.length := by
  have hnd := (List.nodup_cons.1 (hwf.isList 0 (by decide)).nodup).2
  have hsub : L 0 ⊆ List.range s.nodes.length := fun i hi ↦ List.mem_range.2 (hwf.node i hi).2
  simpa using (hnd.subperm hsub).length_le

end Wf

/-! ## Splitting a level -/

/-- On a list ordered by `r`, a predicate that holds of whatever is related below something it
holds of is true on an initial part of the list, and false on the rest. -/
theorem filter_append_filter_not {α : Type*} {r : α → α → Prop} {p : α → Bool} {l : List α}
    (hl : l.Pairwise r) (hp : ∀ a b, r a b → p b = true → p a = true) :
    l.filter p ++ l.filter (fun a ↦ !p a) = l := by
  induction l with
  | nil => rfl
  | cons a l ih =>
    rw [List.pairwise_cons] at hl
    cases hpa : p a
    · -- nothing after `a` satisfies `p` either
      have hnone : ∀ b ∈ l, p b = false := fun b hb ↦
        Bool.eq_false_iff.2 fun hpb ↦ absurd (hp a b (hl.1 b hb) hpb) (by rw [hpa]; decide)
      rw [List.filter_cons_of_neg (by rw [hpa]; decide),
        List.filter_eq_nil_iff.2 (by simpa using hnone),
        List.filter_cons_of_pos (by rw [hpa]; rfl), List.filter_eq_self.2 (by simpa using hnone)]
      rfl
    · rw [List.filter_cons_of_pos hpa, List.filter_cons_of_neg (by rw [hpa]; decide),
        List.cons_append, ih hl.2]

/-- A filter that keeps less keeps fewer. -/
theorem length_filter_lt_length_filter {α : Type*} {l : List α} {p q : α → Bool} {a : α}
    (hpq : ∀ b ∈ l, p b = true → q b = true) (ha : a ∈ l) (hqa : q a = true) (hpa : p a = false) :
    (l.filter p).length < (l.filter q).length := by
  have hsub : l.filter p = (l.filter q).filter p := by
    rw [List.filter_filter]
    refine List.filter_congr fun b hb ↦ ?_
    cases hpb : p b
    · rfl
    · rw [hpq b hb hpb]; rfl
  rw [hsub]
  exact List.length_filter_lt_length_iff_exists.2
    ⟨a, List.mem_filter.2 ⟨ha, hqa⟩, by rw [hpa]; decide⟩

variable (ikey) in
/-- A predicate on nodes that holds on an initial part of every level: of every node it holds
of, it holds of the nodes with smaller keys. -/
def Lower (s : SkipList κ) (p : ℕ → Bool) : Prop :=
  ∀ i j, ikey (s.keyAt i) < ikey (s.keyAt j) → p j = true → p i = true

/-- The nodes of a level where the predicate holds. -/
def lowerPart (p : ℕ → Bool) (l : List ℕ) : List ℕ :=
  l.filter p

/-- The nodes of a level where it fails. -/
def upperPart (p : ℕ → Bool) (l : List ℕ) : List ℕ :=
  l.filter fun i ↦ !p i

/-- The last node of a level where the predicate holds, `head_` if none. -/
def lastLower (p : ℕ → Bool) (l : List ℕ) : ℕ :=
  (0 :: lowerPart p l).getLast (List.cons_ne_nil _ _)

/-- The first node of a level where it fails. -/
def firstUpper (p : ℕ → Bool) (l : List ℕ) : Option ℕ :=
  (upperPart p l).head?

variable {p : ℕ → Bool} {ℓ x d : ℕ}

theorem mem_lowerPart : x ∈ lowerPart p l ↔ x ∈ l ∧ p x = true :=
  List.mem_filter

theorem lastLower_eq (p : ℕ → Bool) (l : List ℕ) : lastLower p l = (lowerPart p l).getLastD 0 :=
  List.getLast_eq_getLastD _

theorem mem_cons_of_mem_lower (hx : x ∈ 0 :: lowerPart p l) : x ∈ 0 :: l :=
  (List.mem_cons.1 hx).elim (fun h ↦ h ▸ List.mem_cons_self)
    fun h ↦ List.mem_cons_of_mem 0 (mem_lowerPart.1 h).1

namespace Wf

variable (hwf : Wf ikey ext s L) (hp : Lower ikey s p)
include hwf

include hp in
theorem isList_split (hℓ : ℓ < kMaxHeight) :
    IsList (s.next ℓ) 0 (lowerPart p (L ℓ) ++ upperPart p (L ℓ)) := by
  rw [lowerPart, upperPart, filter_append_filter_not (hwf.pairwise hℓ) hp]
  exact hwf.isList ℓ hℓ

include hp in
/-- The last node of the lower part links to the first node of the rest. -/
theorem next_lastLower (hℓ : ℓ < kMaxHeight) :
    s.next ℓ (lastLower p (L ℓ)) = firstUpper p (L ℓ) :=
  (hwf.isList_split hp hℓ).next_getLast

include hp in
/-- From `head_` or a node of the lower part, the link leads into the lower part, unless the
node is its last. -/
theorem next_of_mem_lower (hℓ : ℓ < kMaxHeight) (hx : x ∈ 0 :: lowerPart p (L ℓ)) :
    (∃ d ∈ lowerPart p (L ℓ), s.next ℓ x = some d) ∨ x = lastLower p (L ℓ) :=
  (hwf.isList_split hp hℓ).next_mem_or_eq_getLast hx

include hp in
/-- **A walk stops at the last node of the lower part**: where the link leads to nothing or
to a node the predicate fails on. -/
theorem eq_lastLower (hℓ : ℓ < kMaxHeight) (hx : x ∈ 0 :: lowerPart p (L ℓ))
    (hstop : ∀ d, s.next ℓ x = some d → p d = false) : x = lastLower p (L ℓ) := by
  rcases hwf.next_of_mem_lower hp hℓ hx with ⟨d, hd, hnext⟩ | hlast
  · have hpd := (mem_lowerPart.1 hd).2
    rw [hstop d hnext] at hpd
    cases hpd
  · exact hlast

/-- Going down a level keeps a walk on the lower part. -/
theorem mem_lower_of_succ (hℓ : ℓ + 1 < kMaxHeight) (hx : x ∈ 0 :: lowerPart p (L (ℓ + 1))) :
    x ∈ 0 :: lowerPart p (L ℓ) :=
  (((hwf.sublist ℓ hℓ).filter p).cons_cons 0).subset hx

theorem mem_lower_of_le {ℓ' : ℕ} (hle : ℓ' ≤ ℓ) (hℓ : ℓ < kMaxHeight)
    (hx : x ∈ 0 :: lowerPart p (L ℓ)) : x ∈ 0 :: lowerPart p (L ℓ') := by
  induction ℓ, hle using Nat.le_induction with
  | base => exact hx
  | succ ℓ _ ih => exact ih (Nat.lt_of_succ_lt hℓ) (hwf.mem_lower_of_succ hℓ hx)

end Wf

/-! ## How far a walk can go -/

variable (ikey) in
/-- The nodes of the bottom level's lower part that a walk at `x` has still to pass: those after
`x`. Every move along a level passes one of them. -/
def remaining (s : SkipList κ) (l : List ℕ) (p : ℕ → Bool) (x : ℕ) : ℕ :=
  ((lowerPart p l).filter fun i ↦ x == 0 || decide (ikey (s.keyAt x) < ikey (s.keyAt i))).length

variable (ikey) in
theorem remaining_le (s : SkipList κ) (l : List ℕ) (p : ℕ → Bool) (x : ℕ) :
    remaining ikey s l p x ≤ l.length :=
  ((List.filter_sublist).trans List.filter_sublist).length_le

theorem Wf.remaining_lt (hwf : Wf ikey ext s L) (hℓ : ℓ < kMaxHeight)
    (hx : x ∈ 0 :: lowerPart p (L ℓ)) (hd : d ∈ lowerPart p (L ℓ)) (hnext : s.next ℓ x = some d) :
    remaining ikey s (L 0) p d < remaining ikey s (L 0) p x := by
  obtain ⟨hdL, hpd⟩ := mem_lowerPart.1 hd
  have hd0 : d ≠ 0 := Nat.pos_iff_ne_zero.1 (hwf.node d (hwf.mem_zero hℓ hdL)).1
  -- `x` is `head_`, or a node below `d`
  have hxd : x = 0 ∨ ikey (s.keyAt x) < ikey (s.keyAt d) := by
    rcases List.mem_cons.1 hx with rfl | hx
    · exact .inl rfl
    · exact .inr (hwf.lt_of_next hℓ (mem_lowerPart.1 hx).1 hnext)
  refine length_filter_lt_length_filter (fun i _ hi ↦ ?_)
    (mem_lowerPart.2 ⟨hwf.mem_zero hℓ hdL, hpd⟩) ?_ ?_
  · simp only [Bool.or_eq_true, beq_iff_eq, decide_eq_true_eq, hd0, false_or] at hi ⊢
    exact hxd.imp_right fun h ↦ lt_trans h hi
  · simpa using hxd
  · simp [hd0]

/-! ## The hints -/

theorem not_uint64Max_lt (c : UInt64) : ¬ uint64Max < c :=
  UInt64.not_lt.2 (uint64Max_le c)

variable (ikey) in
/-- The nodes below `key`. -/
def belowKey (s : SkipList κ) (key : κ) (i : ℕ) : Bool :=
  decide (ikey (s.keyAt i) < ikey key)

theorem lower_belowKey (s : SkipList κ) (key : κ) : Lower ikey s (belowKey ikey s key) := by
  intro i j hij hj
  simp only [belowKey, decide_eq_true_eq] at hj ⊢
  exact lt_trans hij hj

namespace Wf

variable (hwf : Wf ikey ext s L)
include hwf

/-- A link to a node carries the extractor's value of the node's key. -/
theorem cmp_link_of_next (hℓ : ℓ < kMaxHeight) (hx : x ∈ 0 :: L ℓ) (hnext : s.next ℓ x = some d) :
    (s.link x ℓ).cmp = ext (s.keyAt d) := by
  have hd := hwf.mem_zero hℓ ((hwf.isList ℓ hℓ).mem_of_next hx hnext)
  rw [hwf.hint, show (s.link x ℓ).next = some d from hnext, cmpOf_some, hwf.cmp d hd]

theorem cmp_link_of_none (hnext : s.next ℓ x = none) : (s.link x ℓ).cmp = uint64Max := by
  rw [hwf.hint, show (s.link x ℓ).next = none from hnext, cmpOf_none]

variable (hext : ∀ a b, ikey a ≤ ikey b → ext a ≤ ext b)
include hext

/-- **The hinted test agrees with the comparator**: `c < cmp || KeyIsAfterNode(key, next)`
holds exactly when the link leads to a node below the key. A hint below the key's value can
only come from a node below the key, since the extractor is monotone. -/
theorem hintTest_iff (key : κ) (hℓ : ℓ < kMaxHeight) (hx : x ∈ 0 :: L ℓ) :
    ((s.link x ℓ).cmp < ext key || keyIsAfterNode ikey s key (s.link x ℓ).next) = true ↔
      ∃ d, s.next ℓ x = some d ∧ ikey (s.keyAt d) < ikey key := by
  cases hnext : s.next ℓ x with
  | none =>
    rw [hwf.cmp_link_of_none hnext, show (s.link x ℓ).next = none from hnext]
    simp [keyIsAfterNode, not_uint64Max_lt]
  | some d =>
    rw [hwf.cmp_link_of_next hℓ hx hnext, show (s.link x ℓ).next = some d from hnext]
    simp only [keyIsAfterNode, Bool.or_eq_true, decide_eq_true_eq, Option.some.injEq,
      exists_eq_left']
    refine ⟨fun h ↦ h.elim (fun hlt ↦ ?_) id, .inr⟩
    -- a value below the key's can only be of a smaller key
    by_contra hge
    exact absurd hlt (UInt64.not_lt.2 (hext key (s.keyAt d) (not_lt.1 hge)))

/-- A hint above the key's value marks a node at or after the key. -/
theorem not_lt_of_cmp_gt (key : κ) (hℓ : ℓ < kMaxHeight) (hx : x ∈ 0 :: L ℓ)
    (hgt : ext key < (s.link x ℓ).cmp) (hnext : s.next ℓ x = some d) :
    ¬ ikey (s.keyAt d) < ikey key := by
  intro hlt
  rw [hwf.cmp_link_of_next hℓ hx hnext] at hgt
  exact absurd hgt (UInt64.not_lt.2 (hext _ _ (le_of_lt hlt)))

end Wf

/-! ## `FindGreaterOrEqual` -/

variable (ikey) in
/-- What the search has established at level `ℓ`: it left the level from the last node below
the key and saw there the first node at or after it, or saw nothing where a hint made it drop
the level early. -/
def Found (s : SkipList κ) (L : ℕ → List ℕ) (key : κ) (t : Trail) (ℓ : ℕ) : Prop :=
  t.prev ℓ = lastLower (belowKey ikey s key) (L ℓ) ∧
    (t.obs ℓ = firstUpper (belowKey ikey s key) (L ℓ) ∨ (0 < ℓ ∧ t.obs ℓ = none))

theorem Found.record_of_ne {key : κ} {t : Trail} {ℓ level y : ℕ} {o : Option ℕ}
    (h : Found ikey s L key t ℓ) (hne : ℓ ≠ level) : Found ikey s L key (t.record level y o) ℓ := by
  simpa [Found, hne] using h

theorem found_record {key : κ} {t : Trail} {level y : ℕ} {o : Option ℕ}
    (hy : y = lastLower (belowKey ikey s key) (L level))
    (ho : o = firstUpper (belowKey ikey s key) (L level) ∨ (0 < level ∧ o = none)) :
    Found ikey s L key (t.record level y o) level := by
  simpa [Found] using ⟨hy, ho⟩

namespace Wf

variable (hwf : Wf ikey ext s L) (hext : ∀ a b, ikey a ≤ ikey b → ext a ≤ ext b) (key : κ)
include hwf hext

/-- **Dropping levels on hints.** Each level the inner loop drops has its hint above the key's
value, so the search leaves it from the last node below the key; the loop stops at level `0`
or at a hint that is not above the value. -/
theorem dropLevels_spec {x : ℕ} : ∀ level t, level < kMaxHeight →
    x ∈ 0 :: lowerPart (belowKey ikey s key) (L level) →
    (∀ ℓ, level < ℓ → ℓ < kMaxHeight → Found ikey s L key t ℓ) →
    ∃ level' t', dropLevels s (ext key) x level t = (level', t') ∧ level' ≤ level ∧
      (∀ ℓ, level' < ℓ → ℓ < kMaxHeight → Found ikey s L key t' ℓ) ∧
      (level' = 0 ∨ ¬ ext key < (s.link x level').cmp) := by
  intro level
  induction level with
  | zero => exact fun t _ _ hfound ↦ ⟨0, t, rfl, Nat.le_refl 0, hfound, .inl rfl⟩
  | succ level ih =>
    intro t hlevel hx hfound
    rw [dropLevels]
    split
    · next hgt =>
      -- the level is dropped at its last node below the key
      have hlast : x = lastLower (belowKey ikey s key) (L (level + 1)) :=
        hwf.eq_lastLower (lower_belowKey s key) hlevel hx fun d hnext ↦ by
          have := hwf.not_lt_of_cmp_gt hext key hlevel
            (List.mem_cons.2 ((List.mem_cons.1 hx).imp_right fun h ↦ (mem_lowerPart.1 h).1))
            hgt hnext
          simpa [belowKey] using this
      obtain ⟨level', t', heq, hle, hfound', hstop⟩ := ih (t.record (level + 1) x none)
        (Nat.lt_of_succ_lt hlevel) (hwf.mem_lower_of_succ hlevel hx) fun ℓ hℓ hℓmax ↦ by
          rcases Nat.lt_or_eq_of_le (Nat.succ_le_of_lt hℓ) with hlt | rfl
          · exact (hfound ℓ hlt hℓmax).record_of_ne (Nat.ne_of_gt hlt)
          · exact found_record hlast (.inr ⟨Nat.succ_pos level, rfl⟩)
      exact ⟨level', t', heq, Nat.le_succ_of_le hle, hfound', hstop⟩
    · next hle => exact ⟨level + 1, t, rfl, Nat.le_refl _, hfound, .inr hle⟩

/-- **The search loop.** From `head_` or a node below the key on `level`, with the levels above
it found, the loop returns the first node at or after the key and has found every level, when
its fuel exceeds the moves and descents left. -/
theorem findLoop_eq : ∀ fuel x level t, level < kMaxHeight →
    x ∈ 0 :: lowerPart (belowKey ikey s key) (L level) →
    (∀ ℓ, level < ℓ → ℓ < kMaxHeight → Found ikey s L key t ℓ) →
    remaining ikey s (L 0) (belowKey ikey s key) x + level < fuel →
    ∃ t', findLoop ikey s key (ext key) fuel x level t =
        some (firstUpper (belowKey ikey s key) (L 0), t') ∧
      ∀ ℓ < kMaxHeight, Found ikey s L key t' ℓ := by
  intro fuel
  induction fuel with
  | zero => intro _ _ _ _ _ _ hfuel; omega
  | succ fuel ih =>
    intro x level t hlevel hx hfound hfuel
    obtain ⟨level', t', hdrop, hle, hfound', hstop⟩ :=
      hwf.dropLevels_spec hext key level t hlevel hx hfound
    have hlevel' : level' < kMaxHeight := Nat.lt_of_le_of_lt hle hlevel
    have hx' := hwf.mem_lower_of_le hle hlevel hx
    have hxL : x ∈ 0 :: L level' := mem_cons_of_mem_lower hx'
    rw [findLoop, hdrop]
    dsimp only
    split
    · next htest =>
      -- the link leads to a node below the key: move along it
      obtain ⟨d, hnext, hlt⟩ := (hwf.hintTest_iff hext key hlevel' hxL).1 htest
      have hd : d ∈ lowerPart (belowKey ikey s key) (L level') :=
        mem_lowerPart.2 ⟨(hwf.isList level' hlevel').mem_of_next hxL hnext,
          by simpa [belowKey] using hlt⟩
      have hless := hwf.remaining_lt hlevel' hx' hd hnext
      rw [show (s.link x level').next = some d from hnext]
      exact ih d level' t' hlevel' (List.mem_cons_of_mem 0 hd) hfound' (by omega)
    · next htest =>
      -- the walk stops at the last node below the key, which links to the first one after
      have hlast : x = lastLower (belowKey ikey s key) (L level') :=
        hwf.eq_lastLower (lower_belowKey s key) hlevel' hx' fun d hnext ↦ by
          by_contra hpd
          refine htest ((hwf.hintTest_iff hext key hlevel' hxL).2 ⟨d, hnext, ?_⟩)
          simpa [belowKey] using hpd
      have hobs : (s.link x level').next = firstUpper (belowKey ikey s key) (L level') := by
        rw [hlast]
        exact hwf.next_lastLower (lower_belowKey s key) hlevel'
      have hhere := found_record (t := t') hlast (.inl hobs)
      split
      · next h0 =>
        subst h0
        refine ⟨t'.record 0 x (s.link x 0).next, by rw [hobs], fun ℓ hℓ ↦ ?_⟩
        rcases Nat.eq_zero_or_pos ℓ with rfl | hpos
        · exact hhere
        · exact (hfound' ℓ hpos hℓ).record_of_ne (Nat.ne_of_gt hpos)
      · next h0 =>
        refine ih x (level' - 1) _ (by omega) (hwf.mem_lower_of_le (Nat.sub_le _ _) hlevel' hx')
          (fun ℓ hℓ hℓmax ↦ ?_) (by omega)
        rcases Nat.lt_or_eq_of_le (show level' ≤ ℓ by omega) with hlt | rfl
        · exact (hfound' ℓ hlt hℓmax).record_of_ne (Nat.ne_of_gt hlt)
        · exact hhere

/-- **`FindGreaterOrEqual` finds the first node at or after the key**, and on each level the
last node below it, with what that node links to or a null observation. -/
theorem findGreaterOrEqual_eq :
    ∃ t, findGreaterOrEqual ikey ext s key = some (firstUpper (belowKey ikey s key) (L 0), t) ∧
      ∀ ℓ < kMaxHeight, Found ikey s L key t ℓ := by
  have hrem := Nat.le_trans (remaining_le ikey s (L 0) (belowKey ikey s key) 0) hwf.length_le
  exact hwf.findLoop_eq hext key _ 0 (kMaxHeight - 1) .empty (by decide) List.mem_cons_self
    (fun ℓ hℓ hℓmax ↦ absurd hℓmax (by simp only [kMaxHeight] at hℓ ⊢; omega))
    (by simp only [kMaxHeight]; omega)

end Wf

/-! ## `FindLessThan` and `FindLast` -/

theorem lower_true (s : SkipList κ) : Lower ikey s fun _ ↦ true :=
  fun _ _ _ _ ↦ rfl

theorem lastLower_true (l : List ℕ) :
    lastLower (fun _ ↦ true) l = (0 :: l).getLast (List.cons_ne_nil _ _) := by
  simp [lastLower, lowerPart]

namespace Wf

variable (hwf : Wf ikey ext s L)
include hwf

/-- A walk that has reached the last node of the lower part of its level returns it from the
bottom level, or goes on from it one level down. -/
theorem descend_eq {p : ℕ → Bool} (hp : Lower ikey s p) {level x : ℕ} {r : Option ℕ}
    (hlevel : level < kMaxHeight) (hx : x ∈ 0 :: lowerPart p (L level))
    (hdone : ∀ d, s.next level x = some d → p d = false)
    (hrest : 0 < level → x ∈ 0 :: lowerPart p (L (level - 1)) → r = some (lastLower p (L 0))) :
    (if level = 0 then some x else r) = some (lastLower p (L 0)) := by
  have hlast := hwf.eq_lastLower hp hlevel hx hdone
  split
  · next h0 =>
    subst h0
    rw [hlast]
  · next h0 =>
    exact hrest (Nat.pos_of_ne_zero h0) (hwf.mem_lower_of_le (Nat.sub_le _ _) hlevel hx)

/-- **`FindLessThan`'s loop** walks each level while the next node is below the key. -/
theorem findLessThanLoop_eq (key : κ) : ∀ fuel x level, level < kMaxHeight →
    x ∈ 0 :: lowerPart (belowKey ikey s key) (L level) →
    remaining ikey s (L 0) (belowKey ikey s key) x + level < fuel →
    findLessThanLoop ikey s key fuel x level = some (lastLower (belowKey ikey s key) (L 0)) := by
  intro fuel
  induction fuel with
  | zero => intro _ _ _ _ hfuel; omega
  | succ fuel ih =>
    intro x level hlevel hx hfuel
    have hdescend := hwf.descend_eq (lower_belowKey s key) hlevel hx
      (r := findLessThanLoop ikey s key fuel x (level - 1))
    rw [findLessThanLoop]
    cases hnext : s.next level x with
    | none =>
      exact hdescend (fun d hd ↦ by rw [hnext] at hd; cases hd)
        fun hpos hx' ↦ ih x (level - 1) (by omega) hx' (by omega)
    | some n =>
      dsimp only
      split
      · next hlt =>
        -- the next node is below the key: move to it
        have hn : n ∈ lowerPart (belowKey ikey s key) (L level) :=
          mem_lowerPart.2 ⟨(hwf.isList level hlevel).mem_of_next (mem_cons_of_mem_lower hx) hnext,
            by simpa [belowKey] using hlt⟩
        have hless := hwf.remaining_lt hlevel hx hn hnext
        exact ih n level hlevel (List.mem_cons_of_mem 0 hn) (by omega)
      · next hge =>
        refine hdescend (fun d hd ↦ ?_) fun hpos hx' ↦ ih x (level - 1) (by omega) hx' (by omega)
        rw [hnext] at hd
        cases hd
        simpa [belowKey] using hge

/-- **`FindLessThan` finds the last node below the key**, `head_` if none. -/
theorem findLessThan_eq (key : κ) :
    findLessThan ikey s key = some (lastLower (belowKey ikey s key) (L 0)) := by
  have hrem := Nat.le_trans (remaining_le ikey s (L 0) (belowKey ikey s key) 0) hwf.length_le
  exact hwf.findLessThanLoop_eq key _ 0 (kMaxHeight - 1) (by decide) List.mem_cons_self
    (by simp only [kMaxHeight]; omega)

/-- **`FindLast`'s loop** walks each level to its end. -/
theorem findLastLoop_eq : ∀ fuel x level, level < kMaxHeight →
    x ∈ 0 :: lowerPart (fun _ ↦ true) (L level) →
    remaining ikey s (L 0) (fun _ ↦ true) x + level < fuel →
    findLastLoop s fuel x level = some (lastLower (fun _ ↦ true) (L 0)) := by
  intro fuel
  induction fuel with
  | zero => intro _ _ _ _ hfuel; omega
  | succ fuel ih =>
    intro x level hlevel hx hfuel
    rw [findLastLoop]
    cases hnext : s.next level x with
    | none =>
      exact hwf.descend_eq (lower_true s) hlevel hx (fun d hd ↦ by rw [hnext] at hd; cases hd)
        fun hpos hx' ↦ ih x (level - 1) (by omega) hx' (by omega)
    | some n =>
      have hn : n ∈ lowerPart (fun _ ↦ true) (L level) :=
        mem_lowerPart.2
          ⟨(hwf.isList level hlevel).mem_of_next (mem_cons_of_mem_lower hx) hnext, rfl⟩
      have hless := hwf.remaining_lt hlevel hx hn hnext
      exact ih n level hlevel (List.mem_cons_of_mem 0 hn) (by omega)

/-- **`FindLast` finds the last node**, `head_` if the list is empty. -/
theorem findLast_eq : findLast s = some ((0 :: L 0).getLast (List.cons_ne_nil _ _)) := by
  have hrem := Nat.le_trans (remaining_le ikey s (L 0) (fun _ ↦ true) 0) hwf.length_le
  rw [← lastLower_true]
  exact hwf.findLastLoop_eq _ 0 (kMaxHeight - 1) (by decide) List.mem_cons_self
    (by simp only [kMaxHeight]; omega)

end Wf

/-! ## The reads -/

/-- The first node a predicate fails on, searched for in the order of the level. -/
theorem firstUpper_eq_find? (p : ℕ → Bool) (l : List ℕ) :
    firstUpper p l = l.find? fun i ↦ !p i :=
  List.head?_filter

/-- On a strictly increasing level, the first node at or after a key holds that key when any
node does. -/
theorem any_firstUpper {l : List ℕ} (hl : l.Pairwise fun i j ↦ ikey (s.keyAt i) < ikey (s.keyAt j))
    (key : κ) :
    (firstUpper (belowKey ikey s key) l).any (fun i ↦ decide (ikey (s.keyAt i) = ikey key)) =
      l.any fun i ↦ decide (ikey (s.keyAt i) = ikey key) := by
  have hup : (upperPart (belowKey ikey s key) l).Pairwise
      fun i j ↦ ikey (s.keyAt i) < ikey (s.keyAt j) := hl.sublist List.filter_sublist
  rw [Bool.eq_iff_iff, firstUpper]
  simp only [Option.any_eq_true, List.any_eq_true, decide_eq_true_eq]
  constructor
  · rintro ⟨i, hi, hik⟩
    exact ⟨i, (List.mem_filter.1 (List.mem_of_mem_head? hi)).1, hik⟩
  · rintro ⟨j, hj, hjk⟩
    -- `j` is at or after the key, so the first such node comes no later and is not below it
    have hju : j ∈ upperPart (belowKey ikey s key) l :=
      List.mem_filter.2 ⟨hj, by simp [belowKey, hjk]⟩
    cases hu : upperPart (belowKey ikey s key) l with
    | nil => rw [hu] at hju; cases hju
    | cons i rest =>
      refine ⟨i, rfl, ?_⟩
      have hi : ¬ ikey (s.keyAt i) < ikey key := by
        have := (List.mem_filter.1 (hu ▸ List.mem_cons_self : i ∈ upperPart _ l)).2
        simpa [belowKey] using this
      rw [hu] at hju hup
      rcases List.mem_cons.1 hju with rfl | hrest
      · exact hjk
      · exact absurd (hjk ▸ (List.pairwise_cons.1 hup).1 j hrest) hi

/-- The nodes of a strictly increasing level below one of its nodes are those before it. -/
theorem lowerPart_belowKey_split {l₁ l₂ : List ℕ} {n : ℕ}
    (hl : (l₁ ++ n :: l₂).Pairwise fun i j ↦ ikey (s.keyAt i) < ikey (s.keyAt j)) :
    lowerPart (belowKey ikey s (s.keyAt n)) (l₁ ++ n :: l₂) = l₁ := by
  obtain ⟨-, hl₂, hrel⟩ := List.pairwise_append.1 hl
  rw [lowerPart, List.filter_append, List.filter_eq_self.2, List.filter_eq_nil_iff.2,
    List.append_nil]
  · intro i hi
    simp only [belowKey, decide_eq_true_eq]
    rcases List.mem_cons.1 hi with rfl | hi
    · exact lt_irrefl _
    · exact not_lt.2 (le_of_lt ((List.pairwise_cons.1 hl₂).1 i hi))
  · intro i hi
    simpa [belowKey] using hrel i hi n List.mem_cons_self

/-- `Next` visits a linked list to its end, when it has fuel for every node. -/
theorem scanForward_of_isList : ∀ (l : List ℕ) (a fuel : ℕ), IsList (s.next 0) a l →
    l.length ≤ fuel → scanForward s fuel (s.next 0 a) = l.map s.keyAt := by
  intro l
  induction l with
  | nil =>
    intro a fuel h _
    rw [h.next_eq_head?]
    cases fuel <;> rfl
  | cons b l ih =>
    intro a fuel h hfuel
    cases h with
    | cons hb hrest =>
      obtain ⟨fuel, rfl⟩ := Nat.exists_eq_add_of_lt (Nat.lt_of_lt_of_le (Nat.succ_pos _) hfuel)
      rw [hb, List.map_cons, scanForward, iterNext, ih b _ hrest (by simp at hfuel; omega)]

namespace Wf

variable (hwf : Wf ikey ext s L)
include hwf

theorem ne_zero_of_mem {i : ℕ} (hi : i ∈ L 0) : i ≠ 0 :=
  Nat.pos_iff_ne_zero.1 (hwf.node i hi).1

/-- **`SeekToFirst` and `Next` visit the bottom level in order.** -/
theorem scanForward_eq : scanForward s s.nodes.length (seekToFirst s) = (L 0).map s.keyAt :=
  scanForward_of_isList (L 0) 0 _ (hwf.isList 0 (by decide)) hwf.length_le

/-- **`Prev` goes to the node before.** -/
theorem iterPrev_eq {l₁ l₂ : List ℕ} {n : ℕ} (hL : L 0 = l₁ ++ n :: l₂) :
    iterPrev ikey s n = some l₁.getLast? := by
  rw [iterPrev, hwf.findLessThan_eq, Option.map_some, lastLower_eq, hL,
    lowerPart_belowKey_split (hL ▸ hwf.sorted)]
  rcases List.eq_nil_or_concat l₁ with rfl | ⟨l', b, rfl⟩
  · rfl
  · have hb : b ≠ 0 := hwf.ne_zero_of_mem (by rw [hL]; simp)
    rw [List.concat_eq_append, List.getLastD_concat, List.getLast?_concat, if_neg hb]

/-- `Prev` from a node visits the nodes before it, in decreasing order. -/
theorem scanBackward_eq : ∀ fuel (l₁ : List ℕ) (n : ℕ) (l₂ : List ℕ), L 0 = l₁ ++ n :: l₂ →
    l₁.length < fuel →
    scanBackward ikey s fuel (some n) = some ((n :: l₁.reverse).map s.keyAt) := by
  intro fuel
  induction fuel with
  | zero => intro _ _ _ _ hfuel; omega
  | succ fuel ih =>
    intro l₁ n l₂ hL hfuel
    rw [scanBackward, hwf.iterPrev_eq hL, Option.bind_some]
    rcases List.eq_nil_or_concat l₁ with rfl | ⟨l', b, rfl⟩
    · cases fuel <;> rfl
    · rw [List.concat_eq_append, List.getLast?_concat,
        ih l' b (n :: l₂) (by rw [hL]; simp) (by simp at hfuel; omega)]
      simp

/-- **`SeekToLast` and `Prev` visit the bottom level in decreasing order.** -/
theorem scanBackward_seekToLast :
    (seekToLast s).bind (scanBackward ikey s s.nodes.length) =
      some ((L 0).map s.keyAt).reverse := by
  rw [seekToLast, hwf.findLast_eq, Option.map_some, Option.bind_some]
  rcases List.eq_nil_or_concat (L 0) with hL | ⟨l', b, hL⟩
  · rw [List.getLast_eq_getLastD, hL]
    cases s.nodes.length <;> rfl
  · rw [List.concat_eq_append] at hL
    have hb : b ≠ 0 := hwf.ne_zero_of_mem (by rw [hL]; simp)
    have hlen := hwf.length_le
    rw [List.getLast_eq_getLastD, hL, List.getLastD_concat, if_neg hb,
      hwf.scanBackward_eq _ l' b [] hL (by rw [hL] at hlen; simp at hlen; omega)]
    simp

variable (hext : ∀ a b, ikey a ≤ ikey b → ext a ≤ ext b)
include hext

/-- **`Seek` lands on the first key at or after the target.** -/
theorem seek_eq (target : κ) :
    (seek ikey ext s target).map (Option.map s.keyAt) =
      some (((L 0).map s.keyAt).find? fun a ↦ !decide (ikey a < ikey target)) := by
  obtain ⟨t, heq, -⟩ := hwf.findGreaterOrEqual_eq hext target
  rw [seek, heq, Option.map_some, Option.map_some, firstUpper_eq_find?, List.find?_map]
  rfl

/-- **`Contains` holds exactly for the keys of the list.** -/
theorem contains_eq (key : κ) :
    contains ikey ext s key = some ((L 0).any fun i ↦ decide (ikey (s.keyAt i) = ikey key)) := by
  obtain ⟨t, heq, -⟩ := hwf.findGreaterOrEqual_eq hext key
  rw [contains, heq, Option.map_some, any_firstUpper hwf.sorted]

end Wf

end PebblesDB.Db.SkipList
