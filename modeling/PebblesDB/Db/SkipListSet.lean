import Mathlib.Data.List.Sort
import PebblesDB.Db.SkipListInsert

/-!
# The skip list as a sorted set

The shape `Wf` makes the skip list a sorted set of the keys on its bottom level, as
`skiplist_test.cc` checks it: `Contains` is membership, `Seek` finds the least key at or after
the target, and the iterator visits the keys in order, forwards and backwards. A run of
`Insert`s of distinct keys into a new list keeps the shape (`Wf.insertAll_eq`), so after it the
list is the sorted set of the keys inserted (`insertAll_sortedSet`).
-/

namespace PebblesDB.Db.SkipList

open LinkedList

/-- On a list strictly increasing in `f`, the first element at or after `t` is the least one. -/
theorem find?_not_lt_eq_some_iff {α β : Type*} [LinearOrder β] {f : α → β} {l : List α}
    (hl : l.Pairwise fun a b ↦ f a < f b) (t : β) (k : α) :
    l.find? (fun a ↦ !decide (f a < t)) = some k ↔
      k ∈ l ∧ t ≤ f k ∧ ∀ k' ∈ l, t ≤ f k' → f k ≤ f k' := by
  induction l with
  | nil => simp
  | cons a l ih =>
    obtain ⟨ha, hl⟩ := List.pairwise_cons.1 hl
    by_cases hat : f a < t
    · -- `a` is below the target: the search goes on, and `a` is no candidate
      rw [List.find?_cons_of_neg (by simpa using hat), ih hl]
      constructor
      · rintro ⟨hk, htk, hmin⟩
        refine ⟨List.mem_cons_of_mem a hk, htk, fun k' hk' htk' ↦ ?_⟩
        rcases List.mem_cons.1 hk' with rfl | hk'
        · exact absurd htk' (not_le.2 hat)
        · exact hmin k' hk' htk'
      · rintro ⟨hk, htk, hmin⟩
        rcases List.mem_cons.1 hk with rfl | hk
        · exact absurd htk (not_le.2 hat)
        · exact ⟨hk, htk, fun k' hk' ↦ hmin k' (List.mem_cons_of_mem a hk')⟩
    · -- `a` is at or after the target, and below every later element
      rw [List.find?_cons_of_pos (by simpa using hat), Option.some.injEq]
      constructor
      · rintro rfl
        refine ⟨List.mem_cons_self, not_lt.1 hat, fun k' hk' _ ↦ ?_⟩
        rcases List.mem_cons.1 hk' with rfl | hk'
        · exact le_refl _
        · exact le_of_lt (ha k' hk')
      · rintro ⟨hk, -, hmin⟩
        rcases List.mem_cons.1 hk with rfl | hk
        · rfl
        · exact absurd (hmin a List.mem_cons_self (not_lt.1 hat)) (not_le.2 (ha k hk))

variable {κ : Type} [Inhabited κ] {ι : Type} [LinearOrder ι] {ikey : κ → ι} {ext : κ → UInt64}
  {s : SkipList κ} {L : ℕ → List ℕ} {keys : List κ}

variable (ikey ext) in
/-- The list `s`, with levels `L`, is the sorted set of `keys` under the comparator `ikey`: what
`Insert` is for. -/
structure SortedSet (keys : List κ) (s : SkipList κ) (L : ℕ → List ℕ) : Prop where
  /-- Every level is a linked list from `head_`, strictly increasing, and a sublist of the level
  below. -/
  levels : ∀ ℓ < kMaxHeight, IsList (s.next ℓ) 0 (L ℓ) ∧
    (L ℓ).Pairwise (fun i j ↦ ikey (s.keyAt i) < ikey (s.keyAt j)) ∧
    (ℓ + 1 < kMaxHeight → (L (ℓ + 1)).Sublist (L ℓ))
  /-- Every link's hint is the extractor's value of the node it leads to, `UINT64_MAX` for null. -/
  hints : ∀ ℓ < kMaxHeight, ∀ x ∈ 0 :: L ℓ,
    (s.link x ℓ).cmp = ((s.link x ℓ).next.map fun n ↦ ext (s.keyAt n)).getD uint64Max
  /-- `Contains` holds exactly for the keys. -/
  mem : ∀ k, contains ikey ext s k = some (keys.any fun k' ↦ decide (ikey k' = ikey k))
  /-- `Seek` lands on the least key at or after the target, and is invalid when there is none. -/
  least : ∀ t, ∃ n, seek ikey ext s t = some n ∧ ∀ k, n.map s.keyAt = some k ↔
    k ∈ keys ∧ ikey t ≤ ikey k ∧ ∀ k' ∈ keys, ikey t ≤ ikey k' → ikey k ≤ ikey k'
  /-- `SeekToFirst` and `Next` visit every key, in increasing order. -/
  forward : (scanForward s s.nodes.length (seekToFirst s)).Perm keys ∧
    (scanForward s s.nodes.length (seekToFirst s)).Pairwise fun a b ↦ ikey a < ikey b
  /-- `SeekToLast` and `Prev` visit them in decreasing order. -/
  backward : (seekToLast s).bind (scanBackward ikey s s.nodes.length) =
    some (scanForward s s.nodes.length (seekToFirst s)).reverse

namespace Wf

variable (hwf : Wf ikey ext s L)
include hwf

/-- The bottom level's keys, strictly increasing. -/
theorem pairwise_keys : ((L 0).map s.keyAt).Pairwise fun a b ↦ ikey a < ikey b :=
  List.pairwise_map.2 hwf.sorted

/-- Every hint is exact, on every level. -/
theorem cmp_link {ℓ x : ℕ} (hℓ : ℓ < kMaxHeight) (hx : x ∈ 0 :: L ℓ) :
    (s.link x ℓ).cmp = ((s.link x ℓ).next.map fun n ↦ ext (s.keyAt n)).getD uint64Max := by
  cases hn : (s.link x ℓ).next with
  | none => exact hwf.cmp_link_of_none hn
  | some d => exact hwf.cmp_link_of_next hℓ hx hn

/-- **A list of the shape is the sorted set of its bottom level's keys.** -/
theorem sortedSet (hext : ∀ a b, ikey a ≤ ikey b → ext a ≤ ext b)
    (hperm : ((L 0).map s.keyAt).Perm keys) : SortedSet ikey ext keys s L where
  levels ℓ hℓ := ⟨hwf.isList ℓ hℓ, hwf.pairwise hℓ, hwf.sublist ℓ⟩
  hints _ hℓ _ hx := hwf.cmp_link hℓ hx
  mem k := by
    rw [hwf.contains_eq hext k]
    congr 1
    refine Bool.eq_iff_iff.2 ?_
    simp only [List.any_eq_true, decide_eq_true_eq, ← hperm.mem_iff, List.mem_map]
    constructor
    · rintro ⟨i, hi, heq⟩
      exact ⟨s.keyAt i, ⟨i, hi, rfl⟩, heq⟩
    · rintro ⟨_, ⟨i, hi, rfl⟩, heq⟩
      exact ⟨i, hi, heq⟩
  least t := by
    have hseek := hwf.seek_eq hext t
    cases hs : seek ikey ext s t with
    | none =>
      rw [hs] at hseek
      cases hseek
    | some n =>
      refine ⟨n, rfl, fun k ↦ ?_⟩
      rw [hs, Option.map_some, Option.some.injEq] at hseek
      rw [hseek, find?_not_lt_eq_some_iff hwf.pairwise_keys, hperm.mem_iff]
      simp only [hperm.mem_iff]
  forward := by
    rw [hwf.scanForward_eq]
    exact ⟨hperm, hwf.pairwise_keys⟩
  backward := by
    rw [hwf.scanBackward_seekToLast, hwf.scanForward_eq]

end Wf

variable (ikey ext) in
/-- **The hinted skip list is a sorted set.** For any comparator (`ikey`, with equal keys only
for equal values, as `Comparator::Compare` promises) and any extractor that is monotone for it,
a run of `Insert`s of distinct keys into a new list succeeds, and leaves a list of strictly
increasing levels, each a sublist of the one below, with exact hints, on which `Contains`,
`Seek` and the iterator behave as on the sorted set of the keys. -/
theorem insertAll_sortedSet (hinj : Function.Injective ikey)
    (hext : ∀ a b, ikey a < ikey b → ext a ≤ ext b) (keys : List κ) (hnd : keys.Nodup) :
    ∃ s L, insertAll ikey ext (create ext) keys = some s ∧ SortedSet ikey ext keys s L := by
  have hext' : ∀ a b, ikey a ≤ ikey b → ext a ≤ ext b := fun a b hab ↦
    (lt_or_eq_of_le hab).elim (hext a b) fun h ↦ by
      rw [hinj h]
      exact UInt64.le_refl _
  obtain ⟨s, L, hall, hwf, hperm⟩ := (wf_create ikey ext).insertAll_eq hext' keys
    (hnd.imp fun hab h ↦ hab (hinj h)) fun _ hj ↦ absurd hj List.not_mem_nil
  refine ⟨s, L, hall, hwf.sortedSet hext' ?_⟩
  simpa using hperm

/-- An extractor on numbers in the manner of `KeyNum`: a key's first digits, capped. -/
def sampleExt (k : ℕ) : UInt64 :=
  (min (k / 10) 255).toUInt64

theorem sampleExt_mono (a b : ℕ) (_ : a < b) : sampleExt a ≤ sampleExt b := by
  rw [sampleExt, sampleExt, UInt64.le_iff_toNat_le]
  simp only [Nat.toUInt64_eq, UInt64.toNat_ofNat', Nat.reducePow]
  omega

theorem insertAll_sortedSet_sample :
    Function.Injective (id : ℕ → ℕ) ∧ (∀ a b : ℕ, id a < id b → sampleExt a ≤ sampleExt b) ∧
      [31, 7, 12, 25, 13].Nodup ∧
      ∃ s L, insertAll id sampleExt (create sampleExt) [31, 7, 12, 25, 13] = some s ∧
        SortedSet id sampleExt [31, 7, 12, 25, 13] s L :=
  ⟨Function.injective_id, sampleExt_mono, by decide,
    insertAll_sortedSet id sampleExt Function.injective_id sampleExt_mono _ (by decide)⟩

/-- The keys come out sorted, and `head_`'s level-1 link leads to the one node of height two,
`31`, with its first digit as hint. -/
example : (insertAll id sampleExt (create sampleExt) [31, 7, 12, 25, 13]).map
    (fun s ↦ (scanForward s s.nodes.length (seekToFirst s), s.link 0 1)) =
      some ([7, 12, 13, 25, 31], ⟨3, some 1⟩) := by
  decide

end PebblesDB.Db.SkipList
