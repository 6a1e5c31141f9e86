import PebblesDB.Db.VersionBuilder
import PebblesDB.Lib.OrderedSet
import PebblesDB.Lib.SortedMerge

/-!
# Saving a version: guards and complete guards

Besides its guards (`guards_`), a level of a version keeps its complete guards
(`complete_guards_`): every guard key seen, the guards being those a compaction has installed.
The first `num_complete_guards_` of them are sorted; the ones `MemTableInserter` adds later are
appended as they come. `Builder::Apply` collects the new complete guards of each edit in a
`GuardSet`, like the new guards, and `SaveTo` rebuilds both lists: the guards by merging the base
guards with the added ones, as in `VersionBuilder`; the complete guards by finding where the
base list stops being sorted, putting what follows into the set of added complete guards, and
merging the sorted part with the set the same way. Both merges skip a guard with the user key of
the last one kept, and a guard whose internal key was deleted.

## Results

Both lists come out with strictly increasing user keys, and `num_complete_guards_` is their
length (`increasing_guards_saveTo`, `increasing_completeGuards_saveTo`). Where no two guards
of the level share a user key, the guards are the base and new guards not deleted, and the
complete guards likewise (`mem_guards_saveTo`, `mem_completeGuards_saveTo`). Where two do, a
`GuardSet` keeps the first of them and drops the other, so a deleted guard can take a live one
with it (the example after `mem_guards_saveTo`). Every guard stays a complete guard
(`guards_subset_completeGuards_saveTo`).
-/

namespace PebblesDB.Db.VersionBuilder

open SortedMerge

/-! ## The model -/

/-- A level of a version with its complete guards. -/
structure CompleteLevel extends Level where
  /-- `complete_guards_[level]`. -/
  completeGuards : List InternalKey
  /-- `num_complete_guards_[level]`, an `int`: how many of the complete guards are sorted. -/
  numCompleteGuards : ℤ
  deriving DecidableEq, Repr

/-- A level of a `VersionEdit` with its complete guards. -/
structure CompleteLevelEdit extends LevelEdit where
  /-- `new_complete_guards_[level]`. -/
  newCompleteGuards : List InternalKey
  deriving DecidableEq, Repr

/-- A `LevelState` of the builder with its complete guards. -/
structure CompleteLevelState extends LevelState where
  /-- `added_complete_guards`, a `GuardSet` ordered by `BySmallestGuard`. -/
  addedCompleteGuards : List InternalKey
  deriving DecidableEq, Repr

/-- A builder level with nothing applied. -/
def CompleteLevelState.empty : CompleteLevelState :=
  ⟨LevelState.empty, []⟩

/-- `Builder::Apply` on one level, the new complete guards going into their `GuardSet`. -/
def CompleteLevelState.apply (st : CompleteLevelState) (e : CompleteLevelEdit) :
    CompleteLevelState :=
  ⟨st.toLevelState.apply e.toLevelEdit,
    e.newCompleteGuards.foldl (fun gs g ↦ setInsert bySmallestGuard g gs) st.addedCompleteGuards⟩

/-- The loop of `SaveTo` that looks, from index `i` on, for the first complete guard whose user
key is below that of the guard before it: its index, or the number of complete guards. -/
def unsortedStart (cg : List InternalKey) (i : ℕ) : ℕ :=
  if h : i < cg.length then
    if cg[i].userKey < cg[i - 1].userKey then i else unsortedStart cg (i + 1)
  else cg.length
termination_by cg.length - i

/-- The complete guards of `SaveTo`. With base complete guards, the loop starts past the sorted
ones (at 1 if there are none), the guards from the first descent on join the added ones in the
set, and the sorted part merges with the set. Without, `AddCompleteGuard` takes the guards of
the set that are not deleted. -/
def saveCompleteGuards (deleted base : List InternalKey) (num : ℤ) (added : List InternalKey) :
    List InternalKey :=
  if 0 < base.length then
    let start := unsortedStart base (if num ≤ 0 then 1 else num.toNat)
    let combined := (base.drop start).foldl (fun gs g ↦ setInsert bySmallestGuard g gs) added
    (mergeGuards deleted (base.take start) combined ([], none)).1
  else added.filter fun g ↦ g ∉ deleted

/-- `SaveTo` for one level, with the complete guards and their count. -/
def CompleteLevel.saveTo (base : CompleteLevel) (st : CompleteLevelState) : CompleteLevel :=
  let cg := saveCompleteGuards st.deletedGuards base.completeGuards base.numCompleteGuards
    st.addedCompleteGuards
  ⟨VersionBuilder.saveTo base.toLevel st.toLevelState, cg, cg.length⟩

/-! ## User keys -/

instance userKeyStrictTotalOrder : IsStrictTotalOrder (List UInt8) (· < ·) where
  trichotomous _ _ hab hba := List.le_antisymm (List.not_lt.1 hba) (List.not_lt.1 hab)
  irrefl a := List.lt_irrefl a
  trans _ _ _ := List.lt_trans

/-- No two guards of a list share a user key unless they are one guard. -/
def KeyDetermined (l : List InternalKey) : Prop :=
  ∀ a ∈ l, ∀ b ∈ l, a.userKey = b.userKey → a = b

theorem KeyDetermined.mono {l l' : List InternalKey} (h : KeyDetermined l) (hsub : l' ⊆ l) :
    KeyDetermined l' :=
  fun a ha b hb ↦ h a (hsub ha) b (hsub hb)

theorem bySmallestGuard_eq_true {a b : InternalKey} :
    bySmallestGuard a b = true ↔ a.userKey < b.userKey :=
  decide_eq_true_iff

theorem sorted_iff_increasing {l : List InternalKey} :
    OrderedSet.Sorted bySmallestGuard l ↔ Increasing InternalKey.userKey l :=
  ⟨fun h ↦ h.imp bySmallestGuard_eq_true.1, fun h ↦ h.imp bySmallestGuard_eq_true.2⟩

/-- `MaybeAddGuard` appends a new user key unless it is deleted. -/
theorem maybeAddGuard_eq (deleted : List InternalKey) :
    maybeAddGuard deleted = appendNew InternalKey.userKey (· ∈ deleted) :=
  rfl

/-- The merge of `SaveTo` is the merge of `std::upper_bound`, then `MaybeAddGuard` in turn. -/
theorem mergeGuards_eq (deleted : List InternalKey) :
    ∀ (base added : List InternalKey) (acc : List InternalKey × Option InternalKey),
      mergeGuards deleted base added acc =
        (merge InternalKey.userKey base added).foldl (maybeAddGuard deleted) acc
  | base, [], acc => by rw [mergeGuards, merge]
  | base, a :: added, acc => by
    rw [mergeGuards, mergeGuards_eq deleted _ added, merge, List.foldl_append,
      List.foldl_append, List.foldl_cons, List.foldl_nil]
    rfl

/-! ## The `GuardSet` -/

/-- `std::set::insert` is the sorted insertion of the library, `BySmallestGuard` being
asymmetric. -/
theorem setInsert_eq_insert (x : InternalKey) :
    ∀ l : List InternalKey, setInsert bySmallestGuard x l = OrderedSet.insert bySmallestGuard x l
  | [] => rfl
  | y :: ys => by
    rw [setInsert, OrderedSet.insert, setInsert_eq_insert x ys]
    by_cases hxy : bySmallestGuard x y = true
    · have hyx : bySmallestGuard y x = false := by
        rw [Bool.eq_false_iff, ne_eq, bySmallestGuard_eq_true]
        exact asymm (bySmallestGuard_eq_true.1 hxy)
      rw [if_pos hxy, if_neg (by simp [hyx]), if_pos hxy]
    · rw [if_neg hxy]
      split <;> rfl

/-- The guards inserted into a `GuardSet` in turn. -/
def insertAll (set guards : List InternalKey) : List InternalKey :=
  guards.foldl (fun gs g ↦ setInsert bySmallestGuard g gs) set

theorem increasing_insertAll {set : List InternalKey} (hset : Increasing InternalKey.userKey set)
    (guards : List InternalKey) : Increasing InternalKey.userKey (insertAll set guards) := by
  induction guards generalizing set with
  | nil => exact hset
  | cons g guards ih =>
    refine ih ?_
    dsimp only
    rw [setInsert_eq_insert, ← sorted_iff_increasing]
    refine OrderedSet.sorted_insert (fun a b c hab hbc ↦ ?_) g (sorted_iff_increasing.2 hset)
    exact bySmallestGuard_eq_true.2
      (List.lt_trans (bySmallestGuard_eq_true.1 hab) (bySmallestGuard_eq_true.1 hbc))

/-- What a `GuardSet` holds after the insertions: its guards and the guards inserted, where no
two of them share a user key. -/
theorem mem_insertAll {set guards : List InternalKey} (hkey : KeyDetermined (set ++ guards))
    {z : InternalKey} : z ∈ insertAll set guards ↔ z ∈ set ∨ z ∈ guards := by
  induction guards generalizing set with
  | nil => simp [insertAll]
  | cons g guards ih =>
    have hmem : ∀ z, z ∈ setInsert bySmallestGuard g set ↔ z ∈ set ∨ z = g := by
      intro z
      rw [setInsert_eq_insert]
      constructor
      · intro hz
        exact (OrderedSet.mem_insert hz).symm
      · rintro (hz | rfl)
        · exact OrderedSet.mem_insert_of_mem g hz
        · -- an equivalent guard already in the set has the user key of `z`, so is `z`
          rcases @OrderedSet.mem_insert_self _ bySmallestGuard z set with h | ⟨y, hy, hyz, hzy⟩
          · exact h
          · have hkey' : y.userKey = z.userKey := List.le_antisymm
              (List.not_lt.1 (by simpa [bySmallestGuard] using hzy))
              (List.not_lt.1 (by simpa [bySmallestGuard] using hyz))
            rw [← hkey y (List.mem_append_left _ hy) z
              (List.mem_append_right _ List.mem_cons_self) hkey']
            exact OrderedSet.mem_insert_of_mem y hy
    have hkey' : KeyDetermined (setInsert bySmallestGuard g set ++ guards) := by
      refine hkey.mono fun a ha ↦ ?_
      rcases List.mem_append.1 ha with ha | ha
      · rcases (hmem a).1 ha with ha | rfl
        · exact List.mem_append_left _ ha
        · exact List.mem_append_right _ List.mem_cons_self
      · exact List.mem_append_right _ (List.mem_cons_of_mem g ha)
    unfold insertAll at ih ⊢
    rw [List.foldl_cons, ih hkey', hmem, List.mem_cons, or_assoc]

theorem insertAll_append (set l₁ l₂ : List InternalKey) :
    insertAll set (l₁ ++ l₂) = insertAll (insertAll set l₁) l₂ :=
  List.foldl_append

/-- Whatever a `GuardSet` holds was put there. -/
theorem mem_of_mem_insertAll {set guards : List InternalKey} {z : InternalKey}
    (hz : z ∈ insertAll set guards) : z ∈ set ∨ z ∈ guards := by
  induction guards generalizing set with
  | nil => exact .inl hz
  | cons g guards ih =>
    rcases ih hz with h | h
    · dsimp only at h
      rw [setInsert_eq_insert] at h
      rcases OrderedSet.mem_insert h with rfl | h
      · exact .inr List.mem_cons_self
      · exact .inl h
    · exact .inr (List.mem_cons_of_mem g h)

/-! ## `Builder::Apply` over a run of edits -/

/-- Recording a deletion: the deleted guards so far and the new one. -/
theorem mem_foldl_recordDeleted (l : List InternalKey) :
    ∀ (d : List InternalKey) (g : InternalKey),
      g ∈ l.foldl (fun d g ↦ if g ∈ d then d else d ++ [g]) d ↔ g ∈ d ∨ g ∈ l := by
  induction l with
  | nil => simp
  | cons x l ih =>
    intro d g
    rw [List.foldl_cons, ih, List.mem_cons]
    split
    · rename_i hx
      constructor
      · rintro (h | h)
        · exact .inl h
        · exact .inr (.inr h)
      · rintro (h | rfl | h)
        · exact .inl h
        · exact .inl hx
        · exact .inr h
    · rw [List.mem_append, List.mem_singleton, or_assoc]

/-- After a run of edits, the added guards are the new guards of all of them, inserted in turn
into the `GuardSet`. -/
theorem addedGuards_foldl_apply (es : List CompleteLevelEdit) :
    ∀ st : CompleteLevelState, (es.foldl CompleteLevelState.apply st).addedGuards =
      insertAll st.addedGuards (es.flatMap fun e ↦ e.newGuards) := by
  induction es with
  | nil => exact fun _ ↦ rfl
  | cons e es ih =>
    intro st
    rw [List.foldl_cons, ih, List.flatMap_cons, insertAll_append]
    rfl

theorem addedCompleteGuards_foldl_apply (es : List CompleteLevelEdit) :
    ∀ st : CompleteLevelState, (es.foldl CompleteLevelState.apply st).addedCompleteGuards =
      insertAll st.addedCompleteGuards (es.flatMap fun e ↦ e.newCompleteGuards) := by
  induction es with
  | nil => exact fun _ ↦ rfl
  | cons e es ih =>
    intro st
    rw [List.foldl_cons, ih, List.flatMap_cons, insertAll_append]
    rfl

/-- After a run of edits, the deleted guards are those of all of them. -/
theorem mem_deletedGuards_foldl_apply (es : List CompleteLevelEdit) :
    ∀ (st : CompleteLevelState) (g : InternalKey),
      g ∈ (es.foldl CompleteLevelState.apply st).deletedGuards ↔
        g ∈ st.deletedGuards ∨ ∃ e ∈ es, g ∈ e.deletedGuards := by
  induction es with
  | nil => simp
  | cons e es ih =>
    intro st g
    rw [List.foldl_cons, ih]
    change g ∈ e.deletedGuards.foldl _ st.deletedGuards ∨ _ ↔ _
    rw [mem_foldl_recordDeleted]
    constructor
    · rintro ((h | h) | ⟨e', he', h⟩)
      · exact .inl h
      · exact .inr ⟨e, List.mem_cons_self, h⟩
      · exact .inr ⟨e', List.mem_cons_of_mem e he', h⟩
    · rintro (h | ⟨e', he', h⟩)
      · exact .inl (.inl h)
      · rcases List.mem_cons.1 he' with rfl | he'
        · exact .inl (.inr h)
        · exact .inr ⟨e', he', h⟩

/-! ## The merges of `SaveTo` -/

/-- **The merge of `SaveTo` keeps user keys strictly increasing**, from sorted runs. -/
theorem increasing_mergeGuards (deleted : List InternalKey) {base added : List InternalKey}
    (hbase : Ascending InternalKey.userKey base) (hadded : Ascending InternalKey.userKey added) :
    Increasing InternalKey.userKey (mergeGuards deleted base added ([], none)).1 := by
  rw [mergeGuards_eq, maybeAddGuard_eq]
  exact (increasing_foldl_appendNew _ ([], none) (ascending_merge hbase hadded) List.Pairwise.nil
    rfl fun _ h ↦ absurd h List.not_mem_nil).1

/-- **What the merge of `SaveTo` keeps**: the guards of both runs not deleted, where no two of
them share a user key. -/
theorem mem_mergeGuards (deleted : List InternalKey) {base added : List InternalKey}
    (hkey : KeyDetermined (base ++ added)) {g : InternalKey} :
    g ∈ (mergeGuards deleted base added ([], none)).1 ↔ (g ∈ base ∨ g ∈ added) ∧ g ∉ deleted := by
  have hperm : (merge InternalKey.userKey base added).Perm (base ++ added) :=
    merge_perm base added
  rw [mergeGuards_eq, maybeAddGuard_eq, mem_foldl_appendNew _ ([], none) rfl
    (hkey.mono fun a ha ↦ hperm.subset (by simpa using ha)), hperm.mem_iff, List.mem_append]
  simp

/-- The loop of `SaveTo` extends a sorted start of the complete guards as far as they go up. -/
theorem ascending_take_unsortedStart (cg : List InternalKey) (i : ℕ) (hi : 1 ≤ i)
    (h : Ascending InternalKey.userKey (cg.take i)) :
    Ascending InternalKey.userKey (cg.take (unsortedStart cg i)) := by
  fun_induction unsortedStart cg i with
  | case1 i hlt _ => exact h
  | case2 i hlt hnot ih =>
    refine ih (Nat.le_succ_of_le hi) ?_
    -- the guard at `i` is not below the last of the sorted start, so not below any of it
    have hlast : (cg.take i).getLast? = some cg[i - 1] := by
      rw [List.getLast?_take, if_neg (by omega), List.getElem?_eq_getElem (by omega),
        Option.some_or]
    rw [List.take_add_one, List.getElem?_eq_getElem hlt, Option.toList_some]
    exact h.concat fun y hy ↦ not_lt_trans (h.not_lt_of_getLast? hlast hy) hnot
  | case3 i hge =>
    rwa [List.take_of_length_le (by omega)] at h ⊢

/-- A run of at most one guard is sorted: where the loop of `SaveTo` starts with no count. -/
theorem ascending_take_one (l : List InternalKey) : Ascending InternalKey.userKey (l.take 1) := by
  rcases l with _ | ⟨a, l⟩
  · exact List.Pairwise.nil
  · exact List.pairwise_singleton _ a

/-- **The complete guards of `SaveTo` have strictly increasing user keys**, from a start of the
base complete guards, `num` of them, with strictly increasing keys. -/
theorem increasing_saveCompleteGuards (deleted : List InternalKey) {base added : List InternalKey}
    {num : ℤ} (hbase : Increasing InternalKey.userKey (base.take num.toNat))
    (hadded : Increasing InternalKey.userKey added) :
    Increasing InternalKey.userKey (saveCompleteGuards deleted base num added) := by
  unfold saveCompleteGuards
  split
  · refine increasing_mergeGuards deleted (ascending_take_unsortedStart base _ ?_ ?_)
      (increasing_insertAll hadded _).ascending
    · split <;> omega
    · split
      · exact ascending_take_one base
      · exact hbase.ascending
  · exact hadded.sublist List.filter_sublist

/-- **What the complete guards of `SaveTo` hold**: the base and added complete guards not
deleted, where no two of them share a user key, wherever the loop stops. -/
theorem mem_mergeGuards_take_insertAll (deleted : List InternalKey) {base added : List InternalKey}
    (n : ℕ) (hkey : KeyDetermined (base ++ added)) {g : InternalKey} :
    g ∈ (mergeGuards deleted (base.take n) (insertAll added (base.drop n)) ([], none)).1 ↔
      (g ∈ base ∨ g ∈ added) ∧ g ∉ deleted := by
  have hcomb : ∀ z, z ∈ insertAll added (base.drop n) ↔ z ∈ added ∨ z ∈ base.drop n :=
    fun z ↦ mem_insertAll (hkey.mono fun a ha ↦ by
      rcases List.mem_append.1 ha with ha | ha
      · exact List.mem_append_right _ ha
      · exact List.mem_append_left _ (List.mem_of_mem_drop ha))
  have hkey' : KeyDetermined (base.take n ++ insertAll added (base.drop n)) := by
    refine hkey.mono fun a ha ↦ ?_
    rcases List.mem_append.1 ha with ha | ha
    · exact List.mem_append_left _ (List.mem_of_mem_take ha)
    · rcases (hcomb a).1 ha with ha | ha
      · exact List.mem_append_right _ ha
      · exact List.mem_append_left _ (List.mem_of_mem_drop ha)
  -- the sorted start and the rest of the base make up the whole base
  rw [mem_mergeGuards deleted hkey', hcomb]
  conv_rhs => rw [← List.take_append_drop n base, List.mem_append]
  tauto

theorem mem_saveCompleteGuards (deleted : List InternalKey) {base added : List InternalKey}
    (num : ℤ) (hkey : KeyDetermined (base ++ added)) {g : InternalKey} :
    g ∈ saveCompleteGuards deleted base num added ↔ (g ∈ base ∨ g ∈ added) ∧ g ∉ deleted := by
  unfold saveCompleteGuards
  split
  · exact mem_mergeGuards_take_insertAll deleted _ hkey
  · rename_i hlen
    rw [List.eq_nil_of_length_eq_zero (Nat.eq_zero_of_not_pos hlen), List.mem_filter]
    simp

/-! ## `SaveTo` after a run of edits -/

/-- The builder level after `Builder::Apply` of each edit in turn. -/
def CompleteLevelState.ofEdits (es : List CompleteLevelEdit) : CompleteLevelState :=
  es.foldl CompleteLevelState.apply CompleteLevelState.empty

section Run

variable (base : CompleteLevel) (es : List CompleteLevelEdit)

theorem not_mem_deletedGuards_ofEdits (g : InternalKey) :
    g ∉ (CompleteLevelState.ofEdits es).deletedGuards ↔ ∀ e ∈ es, g ∉ e.deletedGuards := by
  rw [CompleteLevelState.ofEdits, mem_deletedGuards_foldl_apply]
  simp [CompleteLevelState.empty, LevelState.empty]

theorem addedGuards_ofEdits : (CompleteLevelState.ofEdits es).addedGuards =
    insertAll [] (es.flatMap fun e ↦ e.newGuards) :=
  addedGuards_foldl_apply es _

theorem addedCompleteGuards_ofEdits : (CompleteLevelState.ofEdits es).addedCompleteGuards =
    insertAll [] (es.flatMap fun e ↦ e.newCompleteGuards) :=
  addedCompleteGuards_foldl_apply es _

/-- The set the edits add their guards to holds the guards of every edit, where no two of them
share a user key. -/
theorem mem_insertAll_flatMap (f : CompleteLevelEdit → List InternalKey) {l : List InternalKey}
    (hkey : KeyDetermined (l ++ es.flatMap f)) (z : InternalKey) :
    z ∈ insertAll [] (es.flatMap f) ↔ ∃ e ∈ es, z ∈ f e := by
  rw [mem_insertAll (hkey.mono fun a ha ↦ List.mem_append_right _ ha), List.mem_flatMap]
  simp

theorem KeyDetermined.append_insertAll (f : CompleteLevelEdit → List InternalKey)
    {l : List InternalKey} (hkey : KeyDetermined (l ++ es.flatMap f)) :
    KeyDetermined (l ++ insertAll [] (es.flatMap f)) :=
  hkey.mono fun a ha ↦ by
    rcases List.mem_append.1 ha with ha | ha
    · exact List.mem_append_left _ ha
    · exact List.mem_append_right _
        (List.mem_flatMap.2 ((mem_insertAll_flatMap es f hkey a).1 ha))

/-- **The guards of `SaveTo` have strictly increasing user keys.** -/
theorem increasing_guards_saveTo (hguards : Increasing InternalKey.userKey base.guards) :
    Increasing InternalKey.userKey (base.saveTo (CompleteLevelState.ofEdits es)).guards := by
  change Increasing _ (mergeGuards _ base.guards (CompleteLevelState.ofEdits es).addedGuards _).1
  rw [addedGuards_ofEdits]
  exact increasing_mergeGuards _ hguards.ascending (increasing_insertAll .nil _).ascending

/-- **The guards of `SaveTo` are the base and new guards not deleted**, where no two of them
share a user key. -/
theorem mem_guards_saveTo (hkey : KeyDetermined (base.guards ++ es.flatMap fun e ↦ e.newGuards))
    (g : InternalKey) : g ∈ (base.saveTo (CompleteLevelState.ofEdits es)).guards ↔
      (g ∈ base.guards ∨ ∃ e ∈ es, g ∈ e.newGuards) ∧ ∀ e ∈ es, g ∉ e.deletedGuards := by
  change g ∈ (mergeGuards _ base.guards (CompleteLevelState.ofEdits es).addedGuards _).1 ↔ _
  rw [← not_mem_deletedGuards_ofEdits, addedGuards_ofEdits,
    mem_mergeGuards _ (hkey.append_insertAll es _), mem_insertAll_flatMap es _ hkey]

/-- Two guards with one user key: an edit that deletes the first and adds both leaves neither,
since the set of added guards keeps only the first. -/
example : (CompleteLevel.saveTo ⟨⟨[], [], [], []⟩, [], 0⟩ (CompleteLevelState.ofEdits
    [⟨⟨[], [], [⟨[1], 1, 1⟩], [⟨[1], 1, 1⟩, ⟨[1], 2, 1⟩]⟩, []⟩])).guards = [] := by
  decide

/-- **The complete guards of `SaveTo` have strictly increasing user keys**, and their count is
their number. -/
theorem increasing_completeGuards_saveTo
    (hcomplete : Increasing InternalKey.userKey
      (base.completeGuards.take base.numCompleteGuards.toNat)) :
    Increasing InternalKey.userKey (base.saveTo (CompleteLevelState.ofEdits es)).completeGuards ∧
      (base.saveTo (CompleteLevelState.ofEdits es)).numCompleteGuards =
        (base.saveTo (CompleteLevelState.ofEdits es)).completeGuards.length := by
  refine ⟨?_, rfl⟩
  change Increasing _ (saveCompleteGuards _ base.completeGuards base.numCompleteGuards
    (CompleteLevelState.ofEdits es).addedCompleteGuards)
  rw [addedCompleteGuards_ofEdits]
  exact increasing_saveCompleteGuards _ hcomplete (increasing_insertAll .nil _)

/-- **The complete guards of `SaveTo` are the base and new complete guards not deleted**, where
no two of them share a user key. -/
theorem mem_completeGuards_saveTo
    (hkey : KeyDetermined (base.completeGuards ++ es.flatMap fun e ↦ e.newCompleteGuards))
    (g : InternalKey) : g ∈ (base.saveTo (CompleteLevelState.ofEdits es)).completeGuards ↔
      (g ∈ base.completeGuards ∨ ∃ e ∈ es, g ∈ e.newCompleteGuards) ∧
        ∀ e ∈ es, g ∉ e.deletedGuards := by
  change g ∈ saveCompleteGuards _ base.completeGuards base.numCompleteGuards
    (CompleteLevelState.ofEdits es).addedCompleteGuards ↔ _
  rw [← not_mem_deletedGuards_ofEdits, addedCompleteGuards_ofEdits,
    mem_saveCompleteGuards _ _ (hkey.append_insertAll es _), mem_insertAll_flatMap es _ hkey]

/-- **`SaveTo` keeps every guard a complete guard**, where the base level does, every new guard
of an edit is a new complete guard of one, and no two guards, nor two complete guards, share a
user key. -/
theorem guards_subset_completeGuards_saveTo
    (hkey : KeyDetermined (base.guards ++ es.flatMap fun e ↦ e.newGuards))
    (hkeyComplete : KeyDetermined (base.completeGuards ++ es.flatMap fun e ↦ e.newCompleteGuards))
    (hbase : base.guards ⊆ base.completeGuards)
    (hnew : ∀ e ∈ es, ∀ g ∈ e.newGuards, ∃ e' ∈ es, g ∈ e'.newCompleteGuards) :
    (base.saveTo (CompleteLevelState.ofEdits es)).guards ⊆
      (base.saveTo (CompleteLevelState.ofEdits es)).completeGuards := by
  intro g hg
  obtain ⟨hmem, hlive⟩ := (mem_guards_saveTo base es hkey g).1 hg
  refine (mem_completeGuards_saveTo base es hkeyComplete g).2 ⟨?_, hlive⟩
  rcases hmem with hbase' | ⟨e, he, hg'⟩
  · exact .inl (hbase hbase')
  · exact .inr (hnew e he g hg')

end Run

/-! ## A level with a complete guard out of order -/

/-- Guards `[1]` and `[3]`, and the complete guard `[2]` appended after them. -/
def sampleLevel : CompleteLevel :=
  ⟨⟨[], [⟨[1], 1, 1⟩, ⟨[3], 3, 1⟩], [], [[], []]⟩,
    [⟨[1], 1, 1⟩, ⟨[3], 3, 1⟩, ⟨[2], 2, 1⟩], 2⟩

/-- An edit that deletes guard `[3]`, adds guard `[2]` and complete guard `[4]`. -/
def sampleEdits : List CompleteLevelEdit :=
  [⟨⟨[], [], [⟨[3], 3, 1⟩], [⟨[2], 2, 1⟩]⟩, [⟨[2], 2, 1⟩, ⟨[4], 4, 1⟩]⟩]

theorem guards_subset_completeGuards_saveTo_sample :
    KeyDetermined (sampleLevel.guards ++ sampleEdits.flatMap fun e ↦ e.newGuards) ∧
      KeyDetermined
        (sampleLevel.completeGuards ++ sampleEdits.flatMap fun e ↦ e.newCompleteGuards) ∧
      sampleLevel.guards ⊆ sampleLevel.completeGuards ∧
      (∀ e ∈ sampleEdits, ∀ g ∈ e.newGuards, ∃ e' ∈ sampleEdits, g ∈ e'.newCompleteGuards) ∧
      (sampleLevel.saveTo (CompleteLevelState.ofEdits sampleEdits)).guards ⊆
        (sampleLevel.saveTo (CompleteLevelState.ofEdits sampleEdits)).completeGuards :=
  have hkey : KeyDetermined (sampleLevel.guards ++ sampleEdits.flatMap fun e ↦ e.newGuards) := by
    unfold KeyDetermined; decide
  have hkeyComplete : KeyDetermined
      (sampleLevel.completeGuards ++ sampleEdits.flatMap fun e ↦ e.newCompleteGuards) := by
    unfold KeyDetermined; decide
  have hbase : sampleLevel.guards ⊆ sampleLevel.completeGuards := by decide
  have hnew : ∀ e ∈ sampleEdits, ∀ g ∈ e.newGuards, ∃ e' ∈ sampleEdits,
      g ∈ e'.newCompleteGuards := by decide
  ⟨hkey, hkeyComplete, hbase, hnew,
    guards_subset_completeGuards_saveTo sampleLevel sampleEdits hkey hkeyComplete hbase hnew⟩

end PebblesDB.Db.VersionBuilder
