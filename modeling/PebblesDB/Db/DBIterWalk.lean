import Mathlib
import PebblesDB.Db.DBIter
import PebblesDB.Lib.Run

/-!
# The DB iterator walks the entries of its snapshot

Over internal entries in the order of `InternalKeyComparator`, and a snapshot below
`kMaxSequenceNumber`, every run of calls on the iterator `NewDBIterator` returns answers as a
cursor over `visibleEntries`, the user entries of the snapshot, does: both fail (`Next()` or
`Prev()` on an invalid iterator) or both leave the iterator valid or both not, at the same key and
value (`newDBIterator_visibleEntries`).

The entries an iterator has passed are read with `visibleFrom` and `lastSeen`. A valid iterator
stands at a split `A ++ pre ++ e :: post` of the internal entries (`Sim`), with `e` shown after
`A` (`Shown`) and nothing visible in `pre`: forwards the internal iterator is at `e`, in reverse
at the last entry of `A`, and the cursor is past what `A` shows. `FindNextUserEntry` keeps the
invariant `Hides` (an entry is hidden exactly when it is an older version of the last visible
key), and so stops at the first entry shown (`findNextUserEntry_spec`). `FindPrevUserEntry` keeps
`Scanned` (what it has seen is at most one shown entry, the one it saved), and so stops just
before the last entry shown (`findPrevUserEntry_spec`). `Machine.run_lockstep` carries `Sim`
over the run.
-/

namespace PebblesDB.Db

open MemTable FileFilter

variable {κ ν : Type*}

namespace DBIter

/-! ## The calls, unfolded once -/

section Unfold

variable (it : DBIter κ ν) (e : InternalEntry κ ν)

@[simp] theorem iter_parseKey : (it.parseKey e).1.iter = it.iter := by
  unfold parseKey; split <;> rfl

@[simp] theorem sequence_parseKey : (it.parseKey e).1.sequence = it.sequence := by
  unfold parseKey; split <;> rfl

@[simp] theorem savedKey_parseKey : (it.parseKey e).1.savedKey = it.savedKey := by
  unfold parseKey; split <;> rfl

@[simp] theorem savedValue_parseKey : (it.parseKey e).1.savedValue = it.savedValue := by
  unfold parseKey; split <;> rfl

@[simp] theorem direction_parseKey : (it.parseKey e).1.direction = it.direction := by
  unfold parseKey; split <;> rfl

@[simp] theorem valid_parseKey : (it.parseKey e).1.valid = it.valid := by
  unfold parseKey; split <;> rfl

theorem parseKey_snd : (it.parseKey e).2 = (parseInternalKey e).2 := by
  unfold parseKey; split <;> simp_all

variable [LinearOrder κ] [Inhabited κ] [Inhabited ν]

omit [Inhabited ν] in
/-- The body of `FindNextUserEntry` by what the entry is: not visible, a deletion, or a value
hidden or not. -/
theorem findNextCase_eq (skipping : Bool) :
    findNextCase skipping it e =
      if e.visibleAt it.sequence then
        if (parseInternalKey e).1.type = kTypeDeletion then
          .inr (true, { (it.parseKey e).1 with savedKey := e.userKey })
        else if e.isValue then
          if skipping && decide (e.userKey ≤ it.savedKey) then .inr (skipping, (it.parseKey e).1)
          else .inl { (it.parseKey e).1 with valid := true, savedKey := default }
        else .inr (skipping, (it.parseKey e).1)
      else .inr (skipping, (it.parseKey e).1) := by
  have hsnd := parseKey_snd it e
  have hseq := sequence_parseKey it e
  have hkey := savedKey_parseKey it e
  rcases hp : it.parseKey e with ⟨it₁, ok⟩
  rw [hp] at hsnd hseq hkey
  simp only at hsnd hseq hkey
  subst hsnd
  simp only [findNextCase, hp, InternalEntry.visibleAt, InternalEntry.isValue, hseq, hkey,
    decide_eq_true_eq]
  rfl

/-- The body of `FindPrevUserEntry` by what the entry is: not visible, the end of the scan, a
deletion or a value. -/
theorem findPrevCase_eq (valueType : UInt8) :
    findPrevCase valueType it e =
      if e.visibleAt it.sequence then
        if valueType ≠ kTypeDeletion ∧ e.userKey < it.savedKey then
          .inl (valueType, (it.parseKey e).1)
        else if (parseInternalKey e).1.type = kTypeDeletion then
          .inr (kTypeDeletion, { (it.parseKey e).1 with savedKey := default, savedValue := default })
        else .inr ((parseInternalKey e).1.type,
          { (it.parseKey e).1 with savedKey := e.userKey, savedValue := e.value })
      else .inr (valueType, (it.parseKey e).1) := by
  have hsnd := parseKey_snd it e
  have hseq := sequence_parseKey it e
  have hkey := savedKey_parseKey it e
  rcases hp : it.parseKey e with ⟨it₁, ok⟩
  rw [hp] at hsnd hseq hkey
  simp only at hsnd hseq hkey
  subst hsnd
  simp only [findPrevCase, hp, InternalEntry.visibleAt, hseq, hkey, userKey_parseInternalKey]
  split_ifs <;> simp_all

omit [Inhabited ν] in
/-- `Next()` forwards: skip the key of the entry at the internal iterator. -/
theorem next_of_forward (hit : it.valid = true) (hd : it.direction = .forward)
    (hcur : it.iter.current = some e) :
    it.next = findNextUserEntry it.iter.entries.length true { it with savedKey := e.userKey } := by
  obtain ⟨iter, sequence, status, savedKey, savedValue, direction, valid⟩ := it
  dsimp only at hit hd hcur
  subst hit hd
  simp only [DBIter.next, if_pos, hcur]

/-- `Prev()` forwards: move back past the entries of `key()`, then scan back from there unless
that ran off the front. -/
theorem prev_of_forward (hit : it.valid = true) (hd : it.direction = .forward)
    (hcur : it.iter.current = some e) :
    it.prev = (prevLoop it.iter.entries.length { it with savedKey := e.userKey }).bind
      fun r ↦ if r.2 then some r.1 else findPrevUserEntry { r.1 with direction := .reverse } := by
  -- name the fields, so that the direction is replaced alike in the call and in its arguments
  obtain ⟨iter, sequence, status, savedKey, savedValue, direction, valid⟩ := it
  dsimp only at hit hd hcur
  subst hit hd
  simp only [DBIter.prev, if_pos, hcur]
  rcases prevLoop iter.entries.length
    ⟨iter, sequence, status, e.userKey, savedValue, .forward, true⟩ with _ | ⟨it', _ | _⟩ <;> rfl

end Unfold

/-! ## Forwards: `FindNextUserEntry` -/

section Forward

variable [LinearOrder κ] [Inhabited κ] [Inhabited ν] {s : UInt64}

/-- While `FindNextUserEntry` runs over `rest` with `skipping` and the key to skip `skip`, a
visible entry is hidden exactly when it is an older version of `last`, the key of the last
visible entry before it. -/
def Hides (s : UInt64) (skipping : Bool) (skip : κ) (last : Option κ)
    (rest : List (InternalEntry κ ν)) : Prop :=
  ∀ x ∈ rest, x.visibleAt s = true →
    ((skipping && decide (x.userKey ≤ skip)) = true ↔ last = some x.userKey)

omit [Inhabited ν] in
/-- One round of `FindNextUserEntry`: it returns at an entry that is shown, or goes on with
`Hides` kept and nothing shown. -/
theorem findNextCase_spec {skipping : Bool} {it : DBIter κ ν} {x : InternalEntry κ ν}
    {rest : List (InternalEntry κ ν)} {last : Option κ} (hseq : it.sequence = s)
    (hle : ∀ y ∈ rest, x.userKey ≤ y.userKey) (hh : Hides s skipping it.savedKey last (x :: rest)) :
    (∃ it', findNextCase skipping it x = .inl it' ∧ it'.iter = it.iter ∧ it'.valid = true ∧
        it'.direction = it.direction ∧ it'.sequence = it.sequence ∧ Shown s last [] x) ∨
      ∃ skipping' it', findNextCase skipping it x = .inr (skipping', it') ∧
        it'.iter = it.iter ∧ it'.direction = it.direction ∧ it'.sequence = it.sequence ∧
        Hides s skipping' it'.savedKey (lastSeen s last [x]) rest ∧
        ∀ l, visibleFrom s last (x :: l) = visibleFrom s (lastSeen s last [x]) l := by
  subst hseq
  rw [findNextCase_eq]
  by_cases hv : x.visibleAt it.sequence = true
  · have hx := hh x List.mem_cons_self hv
    have hlast : lastSeen it.sequence last [x] = some x.userKey := by simp [lastSeen_cons, hv]
    rw [if_pos hv, hlast]
    by_cases hdel : (parseInternalKey x).1.type = kTypeDeletion
    · -- a deletion hides the older versions of its key
      rw [if_pos hdel]
      refine .inr ⟨true, _, rfl, by simp, by simp, by simp, fun y hy _ ↦ ?_, fun l ↦ ?_⟩
      · simp only [Bool.true_and, decide_eq_true_eq, Option.some.injEq]
        exact ⟨fun h ↦ le_antisymm (hle y hy) h, fun h ↦ h.ge⟩
      · refine visibleFrom_cons_of_hidden hv (fun hval ↦ ?_) l
        rw [InternalEntry.isValue_of_deletion hdel] at hval
        cases hval
    · have hval : x.isValue = true := (InternalEntry.type_of_visibleAt hv).resolve_left hdel
      rw [if_neg hdel, if_pos hval]
      by_cases hhid : (skipping && decide (x.userKey ≤ it.savedKey)) = true
      · -- an older version of the last visible key
        have hl : last = some x.userKey := hx.1 hhid
        rw [if_pos hhid]
        refine .inr ⟨skipping, _, rfl, by simp, by simp, by simp, fun y hy hyv ↦ ?_, fun l ↦ ?_⟩
        · rw [← hl, savedKey_parseKey]
          exact hh y (List.mem_cons_of_mem x hy) hyv
        · exact visibleFrom_cons_of_hidden hv (fun _ ↦ hl) l
      · rw [if_neg hhid]
        exact .inl ⟨_, rfl, by simp, rfl, by simp, by simp,
          ⟨hv, hval, fun hl ↦ hhid (hx.2 hl)⟩⟩
  · have hlast : lastSeen it.sequence last [x] = last := by simp [lastSeen_cons, hv]
    rw [if_neg hv, hlast]
    refine .inr ⟨skipping, _, rfl, by simp, by simp, by simp, fun y hy hyv ↦ ?_, fun l ↦ ?_⟩
    · rw [savedKey_parseKey]
      exact hh y (List.mem_cons_of_mem x hy) hyv
    · exact visibleFrom_cons_of_not_visible (Bool.eq_false_iff.2 hv) last l

omit [Inhabited ν] in
/-- **`FindNextUserEntry` stops at the first entry shown.** From the internal iterator at the
start of `rest`, with `Hides` holding over it, the loop stops with the iterator at the first entry
`rest` shows, or not valid where it shows none. The induction is on `rest`. -/
theorem findNextUserEntry_spec : ∀ (rest A : List (InternalEntry κ ν)) (fuel : ℕ)
    (skipping : Bool) (it : DBIter κ ν) (last : Option κ), it.sequence = s →
    it.iter = ⟨A ++ rest, A.length⟩ → rest ≠ [] → rest.length ≤ fuel →
    rest.Pairwise (fun a b ↦ a.userKey ≤ b.userKey) → Hides s skipping it.savedKey last rest →
    ∃ it', findNextUserEntry fuel skipping it = some it' ∧ it'.iter.entries = A ++ rest ∧
      it'.direction = it.direction ∧ it'.sequence = it.sequence ∧
      (it'.valid = false ∧ visibleFrom s last rest = [] ∨
        it'.valid = true ∧ ∃ pre e post, rest = pre ++ e :: post ∧
          it'.iter.pos = (A ++ pre).length ∧ visibleFrom s last pre = [] ∧ Shown s last pre e) := by
  intro rest
  induction rest with
  | nil => intro _ _ _ _ _ _ _ hne; exact absurd rfl hne
  | cons x rest ih =>
    intro A fuel skipping it last hseq hiter _ hfuel hsorted hh
    obtain ⟨fuel, rfl⟩ : ∃ f, fuel = f + 1 := Nat.exists_eq_add_one.2 (by simp at hfuel; omega)
    obtain ⟨hle, hsorted'⟩ := List.pairwise_cons.1 hsorted
    have hcur : it.iter.current = some x := by
      rw [hiter]
      exact Cursor.current_append_cons A x rest
    rcases findNextCase_spec hseq hle hh with
      ⟨it', hcase, hit, hvalid, hdir, hseq', hshown⟩ |
      ⟨skipping', it', hcase, hit, hdir, hseq', hh', hvis⟩
    · -- the entry at the iterator is shown
      refine ⟨it', by simp only [findNextUserEntry, hcur, hcase], by rw [hit, hiter], hdir,
        hseq', .inr ⟨hvalid, [], x, rest, rfl, by rw [hit, hiter]; simp, rfl, hshown⟩⟩
    · -- the loop moves on to the next entry
      have hnext : it'.iter.next = ⟨(A ++ [x]) ++ rest, (A ++ [x]).length⟩ := by
        rw [hit, hiter]
        simp [Cursor.next]
      cases rest with
      | nil =>
        have hend : it'.iter.next.valid = false := by
          rw [hnext, Cursor.valid_eq_false_iff]
          simp
        refine ⟨{ it' with iter := it'.iter.next, savedKey := default, valid := false },
          by simp only [findNextUserEntry, hcur, hcase, hend, Bool.false_eq_true, ↓reduceIte],
          by simp [hit, hiter], hdir, hseq', .inl ⟨rfl, ?_⟩⟩
        rw [hvis]
        rfl
      | cons y rest =>
        have hon : it'.iter.next.valid = true := by
          rw [hnext, Cursor.valid_iff]
          simp only [List.length_append, List.length_cons]
          omega
        obtain ⟨it'', hrun, hent, hdir', hseq'', hres⟩ :=
          ih (A ++ [x]) fuel skipping' { it' with iter := it'.iter.next } (lastSeen s last [x])
            (by rw [← hseq, ← hseq']) hnext (List.cons_ne_nil y rest)
            (by simp at hfuel ⊢; omega) hsorted' hh'
        refine ⟨it'', by simp only [findNextUserEntry, hcur, hcase, hon, ↓reduceIte]; exact hrun,
          by rw [hent]; simp, by rw [hdir', hdir], by rw [hseq'', hseq'], ?_⟩
        rcases hres with ⟨hinv, hempty⟩ | ⟨hval, pre, e, post, hsplit, hpos, hpre, hshown⟩
        · exact .inl ⟨hinv, by rw [hvis]; exact hempty⟩
        · refine .inr ⟨hval, x :: pre, e, post, by rw [hsplit]; rfl, by rw [hpos]; simp,
            by rw [hvis]; exact hpre, ⟨hshown.visible, hshown.value, ?_⟩⟩
          rw [← List.singleton_append, lastSeen_append]
          exact hshown.first

end Forward

/-! ## Backwards: `FindPrevUserEntry` -/

section Backward

variable [LinearOrder κ] [Inhabited κ] [Inhabited ν] {s : UInt64}

/-- What `FindPrevUserEntry` has learnt from the entries `S` it has scanned back over, with
`value_type` `vt`: nothing visible, with `vt` a deletion; or the first visible entry `f` of `S`,
after entries not visible, is what `vt` and the saved key and value record, and nothing after it
is shown. -/
def Scanned (s : UInt64) (vt : UInt8) (it : DBIter κ ν) (S : List (InternalEntry κ ν)) : Prop :=
  vt = kTypeDeletion ∧ Quiet s S ∨
    ∃ Q f S', S = Q ++ f :: S' ∧ Quiet s Q ∧ f.visibleAt s = true ∧
      visibleFrom s (some f.userKey) S' = [] ∧
      ((parseInternalKey f).1.type = kTypeDeletion ∧ vt = kTypeDeletion ∨
        f.isValue = true ∧ vt = kTypeValue ∧ it.savedKey = f.userKey ∧ it.savedValue = f.value)

omit [Inhabited κ] [Inhabited ν] in
/-- An entry that is not visible changes nothing the scan has learnt. -/
theorem Scanned.cons_of_not_visible {vt : UInt8} {it it' : DBIter κ ν}
    {S : List (InternalEntry κ ν)} {x : InternalEntry κ ν} (h : Scanned s vt it S)
    (hx : x.visibleAt s = false) (hk : it'.savedKey = it.savedKey)
    (hv : it'.savedValue = it.savedValue) : Scanned s vt it' (x :: S) := by
  rcases h with ⟨hvt, hq⟩ | ⟨Q, f, S', rfl, hq, hf, hS', hrec⟩
  · refine .inl ⟨hvt, fun y hy ↦ ?_⟩
    rcases List.mem_cons.1 hy with rfl | hy
    · exact hx
    · exact hq y hy
  · refine .inr ⟨x :: Q, f, S', rfl, fun y hy ↦ ?_, hf, hS', ?_⟩
    · rcases List.mem_cons.1 hy with rfl | hy
      · exact hx
      · exact hq y hy
    · rwa [hk, hv]

omit [Inhabited κ] [Inhabited ν] in
/-- Where the scan goes on past a visible entry `x`, that entry has no shown entry after it in
`S`: either `S` shows nothing, or its first visible entry is a deletion, or a version of `x`'s
key. -/
theorem Scanned.visibleFrom_eq_nil {vt : UInt8} {it : DBIter κ ν}
    {S : List (InternalEntry κ ν)} {x : InternalEntry κ ν} (h : Scanned s vt it S)
    (hle : ∀ y ∈ S, x.userKey ≤ y.userKey)
    (hgo : ¬(vt ≠ kTypeDeletion ∧ x.userKey < it.savedKey)) :
    visibleFrom s (some x.userKey) S = [] := by
  rcases h with ⟨-, hq⟩ | ⟨Q, f, S', rfl, hq, hf, hS', hrec⟩
  · exact visibleFrom_of_quiet hq _
  · rw [visibleFrom_append, visibleFrom_of_quiet hq, lastSeen_of_quiet hq, List.nil_append]
    rcases hrec with ⟨hdel, -⟩ | ⟨-, hvt, hkey, -⟩
    · rw [visibleFrom_cons_of_hidden hf (fun hval ↦ ?_), hS']
      rw [InternalEntry.isValue_of_deletion hdel] at hval
      cases hval
    · -- `x` comes before `f` and the scan did not stop, so `x` has `f`'s key
      have hxf : x.userKey = f.userKey := by
        refine le_antisymm (hle f (by simp)) (not_lt.1 fun hlt ↦ hgo ⟨?_, hkey ▸ hlt⟩)
        rw [hvt]
        decide
      rw [visibleFrom_cons_of_hidden hf (fun _ ↦ by rw [hxf]), hS']

omit [Inhabited κ] [Inhabited ν] in
/-- Where `value_type` is not a deletion, the scan has saved a shown entry. -/
theorem Scanned.saved {vt : UInt8} {it : DBIter κ ν} {S : List (InternalEntry κ ν)}
    (h : Scanned s vt it S) (hvt : vt ≠ kTypeDeletion) :
    ∃ Q f S', S = Q ++ f :: S' ∧ Quiet s Q ∧ f.visibleAt s = true ∧ f.isValue = true ∧
      visibleFrom s (some f.userKey) S' = [] ∧ it.savedKey = f.userKey ∧
      it.savedValue = f.value := by
  rcases h with ⟨hd, -⟩ | ⟨Q, f, S', hS, hq, hf, hS', ⟨-, hd⟩ | ⟨hval, -, hkey, hvalue⟩⟩
  · exact absurd hd hvt
  · exact absurd hd hvt
  · exact ⟨Q, f, S', hS, hq, hf, hval, hS', hkey, hvalue⟩

omit [Inhabited κ] [Inhabited ν] in
/-- Where `value_type` is a deletion, the scan has seen nothing shown. -/
theorem Scanned.visibleFrom_of_deletion {vt : UInt8} {it : DBIter κ ν}
    {S : List (InternalEntry κ ν)} (h : Scanned s vt it S) (hvt : vt = kTypeDeletion)
    (last : Option κ) : visibleFrom s last S = [] := by
  rcases h with ⟨-, hq⟩ | ⟨Q, f, S', rfl, hq, hf, hS', ⟨hdel, -⟩ | ⟨-, hv, -⟩⟩
  · exact visibleFrom_of_quiet hq last
  · rw [visibleFrom_append, visibleFrom_of_quiet hq, lastSeen_of_quiet hq, List.nil_append,
      visibleFrom_cons_of_hidden hf (fun hval ↦ ?_), hS']
    rw [InternalEntry.isValue_of_deletion hdel] at hval
    cases hval
  · rw [hvt] at hv
    cases hv

/-- One round of `FindPrevUserEntry`: it stops at a visible entry of a smaller key once a value
is saved, or goes on with `Scanned` kept. -/
theorem findPrevCase_spec {vt : UInt8} {it : DBIter κ ν} {x : InternalEntry κ ν}
    {S : List (InternalEntry κ ν)} (hseq : it.sequence = s)
    (hle : ∀ y ∈ S, x.userKey ≤ y.userKey) (hS : Scanned s vt it S) :
    (findPrevCase vt it x = .inl (vt, (it.parseKey x).1) ∧ vt ≠ kTypeDeletion ∧
        x.visibleAt s = true ∧ x.userKey < it.savedKey) ∨
      ∃ vt' it', findPrevCase vt it x = .inr (vt', it') ∧ it'.iter = it.iter ∧
        it'.direction = it.direction ∧ it'.sequence = it.sequence ∧ Scanned s vt' it' (x :: S) := by
  subst hseq
  rw [findPrevCase_eq]
  by_cases hv : x.visibleAt it.sequence = true
  · rw [if_pos hv]
    by_cases hstop : vt ≠ kTypeDeletion ∧ x.userKey < it.savedKey
    · exact .inl ⟨by rw [if_pos hstop], hstop.1, hv, hstop.2⟩
    · rw [if_neg hstop]
      have hnil := hS.visibleFrom_eq_nil hle hstop
      by_cases hdel : (parseInternalKey x).1.type = kTypeDeletion
      · rw [if_pos hdel]
        exact .inr ⟨_, _, rfl, by simp, by simp, by simp,
          .inr ⟨[], x, S, rfl, fun _ h ↦ absurd h List.not_mem_nil, hv, hnil, .inl ⟨hdel, rfl⟩⟩⟩
      · rw [if_neg hdel]
        have hval : x.isValue = true := (InternalEntry.type_of_visibleAt hv).resolve_left hdel
        exact .inr ⟨_, _, rfl, by simp, by simp, by simp,
          .inr ⟨[], x, S, rfl, fun _ h ↦ absurd h List.not_mem_nil, hv, hnil,
            .inr ⟨hval, of_decide_eq_true hval, rfl, rfl⟩⟩⟩
  · rw [if_neg hv]
    exact .inr ⟨_, _, rfl, by simp, by simp, by simp,
      hS.cons_of_not_visible (Bool.eq_false_iff.2 hv) (by simp) (by simp)⟩

/-- **The loop of `FindPrevUserEntry`.** From the internal iterator at the last entry of `P`, with
`Scanned` over what follows it, the loop runs off the front with `Scanned` over all of `P ++ S`,
or stops at a visible entry `x` whose key is below that of the saved value `f`. The induction is
on `P`, from its end. -/
theorem findPrevLoop_spec : ∀ (P S R : List (InternalEntry κ ν)) (fuel : ℕ) (vt : UInt8)
    (it : DBIter κ ν), it.sequence = s → it.iter = ⟨P ++ S ++ R, P.length - 1⟩ → P ≠ [] →
    P.length ≤ fuel → (P ++ S).Pairwise (fun a b ↦ a.userKey ≤ b.userKey) → Scanned s vt it S →
    ∃ vt' it', findPrevLoop fuel vt it = some (vt', it') ∧ it'.iter.entries = P ++ S ++ R ∧
      it'.direction = it.direction ∧ it'.sequence = it.sequence ∧
      (it'.iter.pos = -1 ∧ Scanned s vt' it' (P ++ S) ∨
        vt' ≠ kTypeDeletion ∧ ∃ Pb x Q f S', P ++ S = Pb ++ x :: (Q ++ f :: S') ∧
          it'.iter.pos = Pb.length ∧ x.visibleAt s = true ∧ x.userKey < f.userKey ∧
          Quiet s Q ∧ f.visibleAt s = true ∧ f.isValue = true ∧
          visibleFrom s (some f.userKey) S' = [] ∧ it'.savedKey = f.userKey ∧
          it'.savedValue = f.value) := by
  intro P
  induction P using List.reverseRecOn with
  | nil => intro _ _ _ _ _ _ _ hne; exact absurd rfl hne
  | append_singleton P x ih =>
    intro S R fuel vt it hseq hiter _ hfuel hsorted hS
    obtain ⟨fuel, rfl⟩ : ∃ f, fuel = f + 1 := Nat.exists_eq_add_one.2 (by simp at hfuel; omega)
    have hsorted' : (P ++ x :: S).Pairwise (fun a b ↦ a.userKey ≤ b.userKey) := by simpa using hsorted
    have hle : ∀ y ∈ S, x.userKey ≤ y.userKey :=
      (List.pairwise_cons.1 (List.pairwise_append.1 hsorted').2.1).1
    have hcur : it.iter.current = some x := by
      rw [hiter]
      simpa using Cursor.current_append_cons P x (S ++ R)
    rcases findPrevCase_spec hseq hle hS with ⟨hcase, hvt, hxv, hlt⟩ |
      ⟨vt₁, it₁, hcase, hit, hdir, hseq₁, hS₁⟩
    · -- a value is saved and `x` has a smaller key: the loop breaks at `x`
      obtain ⟨Q, f, S', rfl, hq, hf, hval, hS', hkey, hvalue⟩ := hS.saved hvt
      refine ⟨vt, (it.parseKey x).1, by simp only [findPrevLoop, hcur, hcase], by simp [hiter],
        by simp,
        by simp, .inr ⟨hvt, P, x, Q, f, S', by simp, by simp [hiter], hxv, hkey ▸ hlt, hq, hf,
          hval, hS', by simp [hkey], by simp [hvalue]⟩⟩
    · -- the loop moves back one entry
      have hprev : it₁.iter.prev = ⟨P ++ (x :: S) ++ R, P.length - 1⟩ := by
        rw [hit, hiter]
        simp [Cursor.prev]
      rcases List.eq_nil_or_concat P with rfl | ⟨P', y, hP⟩
      · have hoff : it₁.iter.prev.valid = false := by
          rw [hprev, Cursor.valid_eq_false_iff]
          simp
        refine ⟨vt₁, { it₁ with iter := it₁.iter.prev },
          by simp only [findPrevLoop, hcur, hcase, hoff, Bool.false_eq_true, ↓reduceIte],
          by simp [hprev], hdir, hseq₁, .inl ⟨by simp [hprev], hS₁⟩⟩
      · rw [List.concat_eq_append] at hP
        subst hP
        have hon : it₁.iter.prev.valid = true := by
          rw [hprev, Cursor.valid_iff]
          simp only [List.length_append, List.length_cons]
          omega
        obtain ⟨vt', it', hrun, hent, hdir', hseq', hres⟩ :=
          ih (x :: S) R fuel vt₁ { it₁ with iter := it₁.iter.prev } (by rw [← hseq, ← hseq₁])
            hprev (by simp) (by simp at hfuel ⊢; omega) hsorted' hS₁
        refine ⟨vt', it', by simp only [findPrevLoop, hcur, hcase, hon, ↓reduceIte]; exact hrun,
          by rw [hent]; simp, by rw [hdir', hdir], by rw [hseq', hseq₁], ?_⟩
        rcases hres with ⟨hpos, hS'⟩ | ⟨hvt', Pb, z, Q, f, S', hsplit, hrest⟩
        · exact .inl ⟨hpos, by simpa using hS'⟩
        · exact .inr ⟨hvt', Pb, z, Q, f, S', by simpa using hsplit, hrest⟩

/-- **`FindPrevUserEntry` stops just before the last entry shown.** From the internal iterator
at the last entry of `B`, it leaves the iterator not valid where `B` shows nothing, and otherwise
valid, at the last entry of `A`, with the last entry `f` that `B` shows saved, `B` being `A`, then
entries not visible, then `f` and entries that show nothing more. -/
theorem findPrevUserEntry_spec {B R : List (InternalEntry κ ν)} {it : DBIter κ ν}
    (hseq : it.sequence = s) (hiter : it.iter = ⟨B ++ R, B.length - 1⟩)
    (hsorted : B.Pairwise (fun a b ↦ a.userKey ≤ b.userKey)) :
    ∃ it', it.findPrevUserEntry = some it' ∧ it'.iter.entries = B ++ R ∧
      it'.sequence = it.sequence ∧
      (it'.valid = false ∧ visibleFrom s none B = [] ∨
        it'.valid = true ∧ it'.direction = it.direction ∧ ∃ A Q f S', B = A ++ Q ++ f :: S' ∧
          it'.iter.pos = A.length - 1 ∧ Quiet s Q ∧ Shown s none A f ∧
          visibleFrom s none B = visibleFrom s none A ++ [(f.userKey, f.value)] ∧
          it'.savedKey = f.userKey ∧ it'.savedValue = f.value) := by
  rcases List.eq_nil_or_concat B with rfl | ⟨B', y, hB⟩
  · -- nothing to scan: the internal iterator is off the front
    have hoff : it.iter.valid = false := by
      rw [hiter, Cursor.valid_eq_false_iff]
      simp
    exact ⟨{ it with
        valid := false, savedKey := default, savedValue := default, direction := .forward },
      by simp only [findPrevUserEntry, hoff, Bool.false_eq_true, ↓reduceIte, Option.bind_eq_bind,
        Option.bind_some], by simp [hiter], rfl, .inl ⟨rfl, rfl⟩⟩
  · rw [List.concat_eq_append] at hB
    subst hB
    have hon : it.iter.valid = true := by
      rw [hiter, Cursor.valid_iff]
      simp only [List.length_append, List.length_cons]
      omega
    obtain ⟨vt', it', hloop, hent, hdir, hseq', hres⟩ :=
      findPrevLoop_spec (B' ++ [y]) [] R it.iter.entries.length kTypeDeletion it hseq
        (by simpa using hiter) (by simp) (by simp [hiter]) (by simpa using hsorted)
        (.inl ⟨rfl, fun _ h ↦ absurd h List.not_mem_nil⟩)
    have hrun : it.findPrevUserEntry = some (if vt' = kTypeDeletion then
        { it' with
          valid := false, savedKey := default, savedValue := default, direction := .forward }
        else { it' with valid := true }) := by
      simp only [findPrevUserEntry, hon, ↓reduceIte, hloop, Option.bind_eq_bind,
        Option.bind_some]
      split <;> rfl
    rw [List.append_nil] at hres
    rcases hres with ⟨hpos, hS⟩ | ⟨hvt, Pb, x, Q, f, S', hsplit, hpos, hxv, hlt, hq, hf, hval, hS',
      hkey, hvalue⟩
    · by_cases hvt : vt' = kTypeDeletion
      · -- the scan ran off the front having seen no value
        rw [if_pos hvt] at hrun
        exact ⟨_, hrun, by simpa using hent, hseq', .inl ⟨rfl, hS.visibleFrom_of_deletion hvt none⟩⟩
      · -- the scan ran off the front with a value saved: it is the first entry shown
        rw [if_neg hvt] at hrun
        obtain ⟨Q, f, S', hB, hq, hf, hval, hS', hkey, hvalue⟩ := hS.saved hvt
        refine ⟨_, hrun, by simpa using hent, hseq', .inr ⟨rfl, hdir, [], Q, f, S', by simp [hB],
          by simp [hpos], hq, ⟨hf, hval, by simp⟩, ?_, hkey, hvalue⟩⟩
        rw [hB, visibleFrom_append, visibleFrom_of_quiet hq, lastSeen_of_quiet hq,
          visibleFrom_cons_of_shown hf hval (by simp), hS']
        rfl
    · -- the scan stopped at `x`, below the saved value `f`
      rw [if_neg hvt] at hrun
      have hlast : lastSeen s none (Pb ++ [x]) = some x.userKey := by
        rw [lastSeen_append]
        simp [lastSeen_cons, hxv]
      refine ⟨_, hrun, by simpa using hent, hseq', .inr ⟨rfl, hdir, Pb ++ [x], Q, f, S',
        by simp [hsplit], by simp [hpos], hq, ⟨hf, hval, ?_⟩, ?_, hkey, hvalue⟩⟩
      · rw [hlast]
        simpa using hlt.ne
      · rw [hsplit, ← List.singleton_append, ← List.append_assoc, visibleFrom_append, hlast,
          visibleFrom_append (some x.userKey) Q, visibleFrom_of_quiet hq, lastSeen_of_quiet hq,
          List.nil_append,
          visibleFrom_cons_of_shown hf hval (by simpa using hlt.ne), hS']

end Backward

/-! ## Where the iterator stands -/

section Sim

variable [LinearOrder κ] [Inhabited κ] [Inhabited ν] {s : UInt64}
  {es : List (InternalEntry κ ν)}

/-- Where a valid iterator stands against a cursor over the entries of the snapshot: the internal
entries are `A ++ pre ++ e :: post`, with `e` shown after `A` and nothing visible in `pre`, and the
cursor is past what `A` shows. Forwards the internal iterator is at `e`, and `pre` is empty; in
reverse it is at the last entry of `A`, with `e` saved. -/
def Placed (s : UInt64) (es : List (InternalEntry κ ν)) (it : DBIter κ ν)
    (c : Cursor (κ × ν)) : Prop :=
  ∃ A pre e post, es = A ++ pre ++ e :: post ∧ Quiet s pre ∧ Shown s none A e ∧
    c.pos = (visibleFrom s none A).length ∧
    (it.direction = .forward ∧ pre = [] ∧ it.iter.pos = A.length ∨
      it.direction = .reverse ∧ it.iter.pos = A.length - 1 ∧ it.savedKey = e.userKey ∧
        it.savedValue = e.value)

/-- The iterator `it` against a cursor `c` over the entries of the snapshot `s` of the internal
entries `es`: both valid and placed alike, or neither valid. -/
structure Sim (s : UInt64) (es : List (InternalEntry κ ν)) (it : DBIter κ ν)
    (c : Cursor (κ × ν)) : Prop where
  entries : it.iter.entries = es
  sequence : it.sequence = s
  view : c.entries = visibleEntries s es
  placed : it.valid = false ∧ c.valid = false ∨ it.valid = true ∧ Placed s es it c

omit [Inhabited κ] [Inhabited ν] in
/-- A cursor past all the entries of the snapshot is not valid. -/
theorem valid_eq_false_of_pos {c : Cursor (κ × ν)} (hview : c.entries = visibleEntries s es)
    (hpos : c.pos = (visibleEntries s es).length) : c.valid = false := by
  rw [Cursor.valid_eq_false_iff, hview, hpos]
  exact .inr le_rfl

omit [Inhabited κ] [Inhabited ν] in
/-- Both iterators are valid or not alike, and read the same entry. -/
theorem Sim.valid_entry {it : DBIter κ ν} {c : Cursor (κ × ν)} (h : Sim s es it c) :
    it.valid = c.valid ∧ it.entry = c.current := by
  rcases h.placed with ⟨hit, hc⟩ | ⟨hit, A, pre, e, post, hes, hq, hshown, hpos, hdir⟩
  · refine ⟨hit.trans hc.symm, ?_⟩
    rw [entry, hit, (Cursor.current_eq_none_iff c).2 hc]
    rfl
  · have hV := h.view
    rw [hes, visibleEntries_split hq hshown] at hV
    have hcur : c.current = some (e.userKey, e.value) := by
      obtain ⟨entries, pos⟩ := c
      simp only at hV hpos
      subst hV hpos
      exact Cursor.current_append_cons _ _ _
    refine ⟨hit.trans (Cursor.valid_of_current c hcur).symm, ?_⟩
    rw [entry, hit, hcur, if_pos rfl]
    rcases hdir with ⟨hd, rfl, hp⟩ | ⟨hd, -, hk, hv⟩
    · have hiter : it.iter = ⟨es, A.length⟩ := by rw [← hp, ← h.entries]
      rw [hd]
      simp only [hiter, hes, List.append_nil, Cursor.current_append_cons, Option.map_some]
    · rw [hd, hk, hv]

omit [Inhabited ν] in
/-- Where a seek lands: the internal iterator at the start of `rest`, none of whose visible entries
has the last visible key of `A`, and the cursor past what `A` shows. `FindNextUserEntry` then
finds the first entry `rest` shows. -/
theorem sim_findNext_start {it : DBIter κ ν} {c : Cursor (κ × ν)}
    {A rest : List (InternalEntry κ ν)} (hsorted : InternalSorted es) (hes : es = A ++ rest)
    (hiter : it.iter = ⟨es, A.length⟩) (hseq : it.sequence = s) (hdir : it.direction = .forward)
    (hview : c.entries = visibleEntries s es) (hpos : c.pos = (visibleFrom s none A).length)
    (hfirst : ∀ x ∈ rest, x.visibleAt s = true → lastSeen s none A ≠ some x.userKey) :
    ∃ it', (if it.iter.valid then findNextUserEntry it.iter.entries.length false it
      else some { it with valid := false }) = some it' ∧ Sim s es it' c := by
  cases rest with
  | nil =>
    -- nothing after `A`: both are past the end
    rw [List.append_nil] at hes
    have hoff : it.iter.valid = false := by
      rw [hiter, Cursor.valid_eq_false_iff, hes]
      simp
    refine ⟨{ it with valid := false }, by rw [hoff]; rfl, ⟨by simp [hiter], hseq, hview,
      .inl ⟨rfl, valid_eq_false_of_pos hview (by rw [hpos, visibleEntries, hes])⟩⟩⟩
  | cons x rest =>
    have hon : it.iter.valid = true := by
      rw [hiter, Cursor.valid_iff, hes]
      simp
    have hkeys := hsorted.keys
    rw [hes] at hkeys
    obtain ⟨it', hrun, hent, hdir', hseq', hres⟩ :=
      findNextUserEntry_spec (x :: rest) A it.iter.entries.length false it (lastSeen s none A)
        hseq (hes ▸ hiter) (List.cons_ne_nil x rest) (by simp [hiter, hes])
        (List.pairwise_append.1 hkeys).2.1 (fun y hy hyv ↦ by simp [hfirst y hy hyv])
    refine ⟨it', by rw [if_pos hon]; exact hrun, ⟨by rw [hent, hes], by rw [hseq', hseq], hview, ?_⟩⟩
    rcases hres with ⟨hinv, hempty⟩ | ⟨hval, pre, e, post, hsplit, hpos', hpre, hshown⟩
    · -- nothing is shown after `A`: the cursor is past the end as well
      refine .inl ⟨hinv, valid_eq_false_of_pos hview ?_⟩
      rw [hpos, visibleEntries, hes, visibleFrom_append, hempty, List.append_nil]
    · refine .inr ⟨hval, A ++ pre, [], e, post, by rw [hes, hsplit]; simp,
        fun _ h ↦ absurd h List.not_mem_nil, ?_, ?_, .inl ⟨by rw [hdir', hdir], rfl, hpos'⟩⟩
      · exact ⟨hshown.visible, hshown.value, by rw [lastSeen_append]; exact hshown.first⟩
      · rw [hpos, visibleFrom_append, hpre, List.append_nil]

/-- `SeekToFirst()`. -/
theorem sim_seekToFirst (hsorted : InternalSorted es) {it : DBIter κ ν}
    (hent : it.iter.entries = es) (hseq : it.sequence = s) {c : Cursor (κ × ν)}
    (hview : c.entries = visibleEntries s es) :
    ∃ it', it.seekToFirst = some it' ∧ Sim s es it' c.seekToFirst :=
  sim_findNext_start (A := []) hsorted rfl (by simp [Cursor.seekToFirst, hent]) hseq rfl hview
    rfl (fun _ _ _ ↦ by simp)

/-- `Seek(target)`: the internal iterator passes the entries below the internal key of `target` at
the snapshot; those that are visible have user keys below `target`, and the rest have user keys at
or above it. -/
theorem sim_seek (hsorted : InternalSorted es) (hs : s.toNat ≤ CompactionWork.kMaxSequenceNumber)
    (target : κ) {it : DBIter κ ν} (hent : it.iter.entries = es) (hseq : it.sequence = s)
    {c : Cursor (κ × ν)} (hview : c.entries = visibleEntries s es) :
    ∃ it', it.seek target = some it' ∧ Sim s es it' (c.seek fun e ↦ decide (e.1 < target)) := by
  set below := InternalEntry.below target (packSequenceAndType s kValueTypeForSeek) with hbelow
  have hmono : es.Pairwise fun a b ↦ below b = true → below a = true :=
    hsorted.imp fun hab hb ↦ InternalEntry.below_trans hab hb
  -- the visible entries passed are below `target`, and the others are not
  have hlt : ∀ x ∈ es.takeWhile below, x.visibleAt s = true → x.userKey < target := by
    intro x hx hxv
    have hx := List.mem_takeWhile_imp hx
    simp only [hbelow, InternalEntry.below, Bool.or_eq_true, Bool.and_eq_true,
      decide_eq_true_eq] at hx
    rcases hx with hx | ⟨-, htag⟩
    · exact hx
    · exact absurd (InternalEntry.tag_le_of_visibleAt hs hxv) (UInt64.not_le.2 htag)
  have hge : ∀ x ∈ es.dropWhile below, target ≤ x.userKey := by
    intro x hx
    have hx := Cursor.below_eq_false_of_mem_dropWhile hmono hx
    simp only [hbelow, InternalEntry.below, Bool.or_eq_false_iff, decide_eq_false_iff_not] at hx
    exact not_lt.1 hx.1
  have hshown : ∀ p ∈ visibleFrom s none (es.takeWhile below), decide (p.1 < target) = true := by
    intro p hp
    obtain ⟨x, hx, hxv, rfl⟩ := exists_of_mem_visibleFrom hp
    exact decide_eq_true (hlt x hx hxv)
  have hfirst : ∀ x ∈ es.dropWhile below, x.visibleAt s = true →
      lastSeen s none (es.takeWhile below) ≠ some x.userKey := by
    intro x hx _ heq
    rcases lastSeen_eq.resolve_left (fun h ↦ by rw [h.1] at heq; cases heq) with ⟨y, hy, hyv, hy'⟩
    rw [hy', Option.some.injEq] at heq
    exact absurd (heq ▸ hlt y hy hyv) (not_lt.2 (hge x hx))
  -- the cursor passes exactly what the entries below the target show
  have hpos : (c.seek fun e ↦ decide (e.1 < target)).pos =
      (visibleFrom s none (es.takeWhile below)).length := by
    rw [Cursor.seek, hview, visibleEntries, ← List.takeWhile_append_dropWhile (p := below) (l := es),
      visibleFrom_append, List.takeWhile_append_of_pos hshown, List.length_append]
    cases hrest : visibleFrom s (lastSeen s none (es.takeWhile below)) (es.dropWhile below) with
    | nil => simp
    | cons p l =>
      obtain ⟨x, hx, -, rfl⟩ := exists_of_mem_visibleFrom (hrest ▸ List.mem_cons_self)
      rw [List.takeWhile_cons_of_neg (by simpa using hge x hx)]
      simp
  unfold seek
  exact sim_findNext_start hsorted List.takeWhile_append_dropWhile.symm
    (by simp [Cursor.seek, hent, hseq, hbelow]) hseq rfl (by simpa using hview) hpos hfirst

omit [LinearOrder κ] [Inhabited κ] [Inhabited ν] in
/-- What `FindNextUserEntry` finds past a shown entry `e`, skipping its key, lies past `e`. -/
theorem exists_mid_of_shown {pre pre₂ post post₂ : List (InternalEntry κ ν)}
    {e e₂ : InternalEntry κ ν} (hq : Quiet s pre) (he : e.visibleAt s = true)
    (hsplit : pre ++ e :: post = pre₂ ++ e₂ :: post₂) (hshown : Shown s (some e.userKey) pre₂ e₂) :
    ∃ mid, pre₂ = pre ++ e :: mid := by
  -- `e₂` is neither `e`, whose key is skipped, nor in `pre`, where nothing is visible
  rcases List.append_eq_append_iff.1 hsplit with ⟨a, rfl, ha⟩ | ⟨c, rfl, hc⟩
  · cases a with
    | nil =>
      rw [List.nil_append] at ha
      obtain ⟨rfl, -⟩ := List.cons_eq_cons.1 ha
      exact absurd (by rw [List.append_nil, lastSeen_of_quiet hq]) hshown.first
    | cons x a =>
      obtain ⟨rfl, -⟩ := List.cons_eq_cons.1 ha
      exact ⟨a, rfl⟩
  · cases c with
    | nil =>
      rw [List.nil_append] at hc
      obtain ⟨rfl, -⟩ := List.cons_eq_cons.1 hc
      exact absurd (by rw [lastSeen_of_quiet (fun x hx ↦ hq x (by simpa using hx))]) hshown.first
    | cons x c =>
      obtain ⟨rfl, -⟩ := List.cons_eq_cons.1 hc
      have := hq e₂ (by simp)
      rw [hshown.visible] at this
      cases this

omit [Inhabited ν] in
/-- **`Next()` from a shown entry.** With the internal iterator at the first entry after `A` and
the key of the shown entry `e` to skip, `FindNextUserEntry` walks to the next entry shown. -/
theorem sim_next_of_at (hsorted : InternalSorted es) {it : DBIter κ ν} {c : Cursor (κ × ν)}
    {A pre post : List (InternalEntry κ ν)} {e : InternalEntry κ ν}
    (hes : es = A ++ pre ++ e :: post) (hq : Quiet s pre) (hshown : Shown s none A e)
    (hiter : it.iter = ⟨es, A.length⟩) (hkey : it.savedKey = e.userKey) (hseq : it.sequence = s)
    (hdir : it.direction = .forward) (hview : c.entries = visibleEntries s es)
    (hpos : c.pos = (visibleFrom s none A).length) :
    ∃ it', findNextUserEntry it.iter.entries.length true it = some it' ∧ Sim s es it' c.next := by
  have hkeys := hsorted.keys
  rw [hes, List.append_assoc] at hkeys
  have hrest := (List.pairwise_append.1 hkeys).2.1
  have hafter : ∀ x ∈ post, e.userKey ≤ x.userKey :=
    (List.pairwise_cons.1 (List.pairwise_append.1 hrest).2.1).1
  -- a visible entry is hidden exactly when it has the key of `e`
  have hh : Hides s true it.savedKey (some e.userKey) (pre ++ e :: post) := by
    intro x hx hxv
    rw [hkey, Bool.true_and, decide_eq_true_eq, Option.some.injEq]
    rcases List.mem_append.1 hx with hx | hx
    · rw [hq x hx] at hxv
      cases hxv
    · rcases List.mem_cons.1 hx with rfl | hx
      · exact ⟨fun _ ↦ rfl, fun _ ↦ le_rfl⟩
      · exact ⟨fun h ↦ le_antisymm (hafter x hx) h, fun h ↦ h.ge⟩
  have hV := visibleEntries_split hq hshown post
  rw [← hes] at hV
  obtain ⟨it', hrun, hent, hdir', hseq', hres⟩ :=
    findNextUserEntry_spec (pre ++ e :: post) A it.iter.entries.length true it (some e.userKey)
      hseq (by rw [hiter, hes, List.append_assoc]) (by simp) (by simp [hiter, hes]) hrest hh
  refine ⟨it', hrun, ⟨by rw [hent, hes, List.append_assoc], by rw [hseq', hseq], hview, ?_⟩⟩
  rcases hres with ⟨hinv, hempty⟩ | ⟨hval, pre₂, e₂, post₂, hsplit, hpos', hpre, hshown₂⟩
  · -- nothing is shown after `e`: the cursor moves past the end
    rw [visibleFrom_quiet_cons_self hq hshown.visible] at hempty
    refine .inl ⟨hinv, valid_eq_false_of_pos hview ?_⟩
    rw [Cursor.pos_next, hpos, hV, hempty]
    simp
  · -- the next entry shown lies past `e`
    obtain ⟨mid, rfl⟩ := exists_mid_of_shown hq hshown.visible hsplit hshown₂
    rw [visibleFrom_quiet_cons_self hq hshown.visible] at hpre
    have hlast : lastSeen s none (A ++ (pre ++ e :: mid)) = lastSeen s (some e.userKey) mid :=
      by rw [lastSeen_append, lastSeen_quiet_cons hq hshown.visible]
    refine .inr ⟨hval, A ++ (pre ++ e :: mid), [], e₂, post₂, ?_,
      fun _ h ↦ absurd h List.not_mem_nil, ⟨hshown₂.visible, hshown₂.value, ?_⟩, ?_,
      .inl ⟨by rw [hdir', hdir], rfl, hpos'⟩⟩
    · rw [hes, List.append_assoc, hsplit]
      simp
    · rw [hlast, ← lastSeen_quiet_cons hq hshown.visible (some e.userKey)]
      exact hshown₂.first
    · rw [Cursor.pos_next, hpos, ← List.append_assoc, (hshown.append_quiet hq).visibleFrom_split,
        visibleFrom_append_quiet hq, hpre]
      simp

omit [Inhabited ν] in
/-- `Next()`: both fail where not valid; otherwise forwards the iterator skips the key of the
entry at the internal iterator, and in reverse it first steps into the entries of `key()`. -/
theorem Sim.next (hsorted : InternalSorted es) {it : DBIter κ ν} {c : Cursor (κ × ν)}
    (h : Sim s es it c) :
    (it.next = none ∧ c.step .next = none) ∨
      ∃ it' c', it.next = some it' ∧ c.step .next = some c' ∧ Sim s es it' c' := by
  rcases h.placed with ⟨hit, hc⟩ | ⟨hit, A, pre, e, post, hes, hq, hshown, hpos, hdir⟩
  · exact .inl ⟨by simp [DBIter.next, hit], by simp [Cursor.step, hc]⟩
  · have hcv : c.valid = true := h.valid_entry.1 ▸ hit
    have hlen : A.length < es.length := by simp [hes]
    refine .inr ?_
    rcases hdir with ⟨hd, rfl, hp⟩ | ⟨hd, hp, hk, -⟩
    · -- forwards: skip the key of the entry at the internal iterator
      have hiter : it.iter = ⟨es, A.length⟩ := by rw [← hp, ← h.entries]
      have hcur : it.iter.current = some e := by
        rw [hiter, hes, List.append_nil]
        exact Cursor.current_append_cons _ _ _
      have hiter₁ : ({ it with savedKey := e.userKey } : DBIter κ ν).iter = ⟨es, A.length⟩ := hiter
      obtain ⟨it', hrun, hsim⟩ :=
        sim_next_of_at hsorted hes hq hshown hiter₁ rfl h.sequence hd h.view hpos
      exact ⟨it', c.next, (next_of_forward it e hit hd hcur).trans hrun,
        by simp [Cursor.step, hcv], hsim⟩
    · -- in reverse: step into the entries of `key()`, then skip its key
      have hiter : it.iter = ⟨es, A.length - 1⟩ := by rw [← hp, ← h.entries]
      have hinto : (if it.iter.valid then it.iter.next else it.iter.seekToFirst) =
          ⟨es, A.length⟩ := by
        rcases Nat.eq_zero_or_pos A.length with hA | hA
        · have hoff : it.iter.valid = false := by
            rw [hiter, Cursor.valid_eq_false_iff, hA]
            simp
          rw [hoff, hiter, hA]
          rfl
        · have hon : it.iter.valid = true := by
            rw [hiter, Cursor.valid_iff]
            dsimp only
            omega
          rw [if_pos hon, hiter]
          simp [Cursor.next]
      have hiter₁ : ({ it with
          direction := .forward
          iter := if it.iter.valid then it.iter.next else it.iter.seekToFirst } : DBIter κ ν).iter =
          ⟨es, A.length⟩ := hinto
      have hon₁ : ({ it with
          direction := .forward
          iter := if it.iter.valid then it.iter.next else it.iter.seekToFirst } : DBIter κ ν).iter.valid =
          true := by
        rw [hiter₁, Cursor.valid_iff]
        dsimp only
        omega
      obtain ⟨it', hrun, hsim⟩ :=
        sim_next_of_at hsorted hes hq hshown hiter₁ hk h.sequence rfl h.view hpos
      refine ⟨it', c.next, ?_, by simp [Cursor.step, hcv], hsim⟩
      rw [DBIter.next, if_pos hit, hd]
      exact (if_pos hon₁).trans hrun

/-- The loop of `Prev()` moves back past `B₂`, entries not below the saved key, to the last entry
of `B₁`, which is below it, or runs off the front where there is none. The induction is on `B₂`,
from its end. -/
theorem prevLoop_eq : ∀ (B₂ B₁ R : List (InternalEntry κ ν)) (fuel : ℕ) (it : DBIter κ ν),
    it.iter = ⟨B₁ ++ B₂ ++ R, (B₁ ++ B₂).length⟩ → (∀ y ∈ B₂, ¬y.userKey < it.savedKey) →
    (B₁ = [] ∨ ∃ B₀ x, B₁ = B₀ ++ [x] ∧ x.userKey < it.savedKey) → B₂.length < fuel →
    (B₁ = [] ∧ prevLoop fuel it = some ({ it with
        iter := ⟨B₁ ++ B₂ ++ R, -1⟩, valid := false, savedKey := default, savedValue := default },
        true)) ∨
      (B₁ ≠ [] ∧ prevLoop fuel it = some ({ it with iter := ⟨B₁ ++ B₂ ++ R, B₁.length - 1⟩ },
        false)) := by
  intro B₂
  induction B₂ using List.reverseRecOn with
  | nil =>
    intro B₁ R fuel it hiter _ hB₁ hfuel
    obtain ⟨fuel, rfl⟩ : ∃ f, fuel = f + 1 := Nat.exists_eq_add_one.2 hfuel
    have hprev : it.iter.prev = ⟨B₁ ++ [] ++ R, B₁.length - 1⟩ := by
      rw [hiter]
      simp [Cursor.prev]
    rcases hB₁ with rfl | ⟨B₀, x, rfl, hx⟩
    · -- nothing before: `Prev()` returns with the iterator not valid
      have hcur : it.iter.prev.current = none := by
        rw [Cursor.current_eq_none_iff, hprev, Cursor.valid_eq_false_iff]
        simp
      exact .inl ⟨rfl, by simp only [prevLoop, hcur]; rw [hprev]; rfl⟩
    · -- the entry before is below the saved key: the loop breaks there
      have hcur : it.iter.prev.current = some x := by
        rw [hprev]
        simpa using Cursor.current_append_cons B₀ x R
      refine .inr ⟨by simp, ?_⟩
      simp only [prevLoop, hcur, hx, if_true]
      rw [hprev]
  | append_singleton B₂ y ih =>
    intro B₁ R fuel it hiter hB₂ hB₁ hfuel
    obtain ⟨fuel, rfl⟩ : ∃ f, fuel = f + 1 := Nat.exists_eq_add_one.2 (by omega)
    have hprev : it.iter.prev = ⟨B₁ ++ B₂ ++ y :: R, (B₁ ++ B₂).length⟩ := by
      rw [hiter]
      simp [Cursor.prev]
      omega
    have hcur : it.iter.prev.current = some y := by
      rw [hprev]
      exact Cursor.current_append_cons _ _ _
    have hy : ¬y.userKey < it.savedKey := hB₂ y (by simp)
    have hrun : prevLoop (fuel + 1) it = prevLoop fuel { it with iter := it.iter.prev } := by
      simp only [prevLoop, hcur, hy, if_false]
    rw [hrun]
    rcases ih B₁ (y :: R) fuel { it with iter := it.iter.prev } hprev
        (fun z hz ↦ hB₂ z (by simp [hz])) hB₁ (by simp at hfuel; omega) with
      ⟨hnil, hloop⟩ | ⟨hne, hloop⟩
    · exact .inl ⟨hnil, by rw [hloop]; simp⟩
    · exact .inr ⟨hne, by rw [hloop]; simp⟩

/-- A list splits into a part that ends in an element satisfying `p`, or is empty, and a part
with no element satisfying `p`. -/
theorem exists_split_last {α : Type*} (p : α → Prop) [DecidablePred p] (l : List α) :
    ∃ l₁ l₂, l = l₁ ++ l₂ ∧ (∀ y ∈ l₂, ¬p y) ∧ (l₁ = [] ∨ ∃ l₀ x, l₁ = l₀ ++ [x] ∧ p x) := by
  induction l using List.reverseRecOn with
  | nil => exact ⟨[], [], rfl, fun _ h ↦ absurd h List.not_mem_nil, .inl rfl⟩
  | append_singleton l x ih =>
    by_cases hx : p x
    · exact ⟨l ++ [x], [], by simp, fun _ h ↦ absurd h List.not_mem_nil, .inr ⟨l, x, rfl, hx⟩⟩
    · obtain ⟨l₁, l₂, rfl, h₂, h₁⟩ := ih
      refine ⟨l₁, l₂ ++ [x], by simp, fun y hy ↦ ?_, h₁⟩
      rcases List.mem_append.1 hy with hy | hy
      · exact h₂ y hy
      · rw [List.mem_singleton.1 hy]
        exact hx

/-- **`Prev()` in reverse.** With the internal iterator at the last entry of `B` and the cursor
past what `B` shows, `FindPrevUserEntry` moves both back to the last entry `B` shows. -/
theorem sim_prev_of_before (hsorted : InternalSorted es) {it : DBIter κ ν} {c : Cursor (κ × ν)}
    {B R : List (InternalEntry κ ν)} (hes : es = B ++ R) (hiter : it.iter = ⟨es, B.length - 1⟩)
    (hseq : it.sequence = s) (hdir : it.direction = .reverse)
    (hview : c.entries = visibleEntries s es) (hpos : c.pos = (visibleFrom s none B).length) :
    ∃ it', it.findPrevUserEntry = some it' ∧ Sim s es it' c.prev := by
  have hkeys := hsorted.keys
  rw [hes] at hkeys
  obtain ⟨it', hrun, hent, hseq', hres⟩ :=
    findPrevUserEntry_spec hseq (hes ▸ hiter) (List.pairwise_append.1 hkeys).1
  refine ⟨it', hrun, ⟨by rw [hent, hes], by rw [hseq', hseq], hview, ?_⟩⟩
  rcases hres with ⟨hinv, hempty⟩ |
    ⟨hval, hdir', A, Q, f, S', hB, hpos', hq, hshown, hvis, hkey, hvalue⟩
  · -- `B` shows nothing: both run off the front
    refine .inl ⟨hinv, ?_⟩
    rw [Cursor.valid_eq_false_iff, Cursor.pos_prev, hpos, hempty]
    simp
  · refine .inr ⟨hval, A, Q, f, S' ++ R, by rw [hes, hB]; simp, hq, hshown, ?_,
      .inr ⟨by rw [hdir', hdir], hpos', hkey, hvalue⟩⟩
    rw [Cursor.pos_prev, hpos, hvis]
    simp

/-- `Prev()`: both fail where not valid; otherwise forwards the iterator first moves back past
the entries of `key()`, none of them visible, and in reverse it scans back from where it is. -/
theorem Sim.prev (hsorted : InternalSorted es) {it : DBIter κ ν} {c : Cursor (κ × ν)}
    (h : Sim s es it c) :
    (it.prev = none ∧ c.step .prev = none) ∨
      ∃ it' c', it.prev = some it' ∧ c.step .prev = some c' ∧ Sim s es it' c' := by
  rcases h.placed with ⟨hit, hc⟩ | ⟨hit, A, pre, e, post, hes, hq, hshown, hpos, hdir⟩
  · exact .inl ⟨by simp [DBIter.prev, hit], by simp [Cursor.step, hc]⟩
  · have hcv : c.valid = true := h.valid_entry.1 ▸ hit
    have hstep : c.step .prev = some c.prev := by simp [Cursor.step, hcv]
    refine .inr ?_
    rcases hdir with ⟨hd, rfl, hp⟩ | ⟨hd, hp, -, -⟩
    · -- forwards: move back past the entries of `key()`, then scan back
      have hiter : it.iter = ⟨es, A.length⟩ := by rw [← hp, ← h.entries]
      have hcur : it.iter.current = some e := by
        rw [hiter, hes, List.append_nil]
        exact Cursor.current_append_cons _ _ _
      obtain ⟨B₁, B₂, rfl, hB₂, hB₁⟩ := exists_split_last (fun y ↦ y.userKey < e.userKey) A
      have hkeys := hsorted.keys
      rw [hes, List.append_nil] at hkeys
      -- the entries `B₂` have the key of `e`, so none is visible
      have hq₂ : Quiet s B₂ := by
        intro y hy
        rw [← Bool.not_eq_true]
        intro hyv
        rcases @lastSeen_eq _ _ s (lastSeen s none B₁) B₂ with ⟨-, hq'⟩ | ⟨z, hz, -, hlz⟩
        · rw [hq' y hy] at hyv
          cases hyv
        · have hze : z.userKey = e.userKey := le_antisymm
            ((List.pairwise_append.1 hkeys).2.2 z (by simp [hz]) e (by simp))
            (not_lt.1 (hB₂ z hz))
          exact hshown.first (by rw [lastSeen_append, hlz, hze])
      have hpos₁ : c.pos = (visibleFrom s none B₁).length := by
        rw [hpos, visibleFrom_append_quiet hq₂]
      have hiter₁ : ({ it with savedKey := e.userKey } : DBIter κ ν).iter =
          ⟨B₁ ++ B₂ ++ e :: post, (B₁ ++ B₂).length⟩ := by
        rw [hiter, hes, List.append_nil]
      rcases prevLoop_eq B₂ B₁ (e :: post) es.length { it with savedKey := e.userKey } hiter₁
          hB₂ hB₁ (by simp [hes]; omega) with ⟨rfl, hloop⟩ | ⟨_, hloop⟩
      · -- nothing shown before `e`: both run off the front
        rw [prev_of_forward it e hit hd hcur, h.entries, hloop]
        refine ⟨_, c.prev, rfl, hstep, ⟨by simp [hes], h.sequence, h.view, .inl ⟨rfl, ?_⟩⟩⟩
        rw [Cursor.valid_eq_false_iff, Cursor.pos_prev, hpos₁]
        simp
      · have hiter₂ : ({ { { it with savedKey := e.userKey } with
            iter := ⟨B₁ ++ B₂ ++ e :: post, B₁.length - 1⟩ } with
            direction := .reverse } : DBIter κ ν).iter = ⟨es, B₁.length - 1⟩ := by
          simp [hes]
        obtain ⟨it', hrun, hsim⟩ := sim_prev_of_before hsorted (B := B₁) (R := B₂ ++ e :: post)
          (by rw [hes, List.append_nil, List.append_assoc]) hiter₂ h.sequence rfl h.view hpos₁
        rw [prev_of_forward it e hit hd hcur, h.entries, hloop]
        exact ⟨it', c.prev, hrun, hstep, hsim⟩
    · -- in reverse: scan back from the last entry of `A`
      obtain ⟨it', hrun, hsim⟩ := sim_prev_of_before hsorted (B := A) (R := pre ++ e :: post)
        (by rw [hes, List.append_assoc]) (by rw [← hp, ← h.entries]) h.sequence hd h.view hpos
      refine ⟨it', c.prev, ?_, hstep, hsim⟩
      rw [DBIter.prev, if_pos hit, hd]
      exact hrun

/-- `SeekToLast()`: from past the end of the entries, `FindPrevUserEntry` scans back to the last
entry the snapshot shows, where a cursor over those is at its last. -/
theorem sim_seekToLast (hsorted : InternalSorted es) {it : DBIter κ ν}
    (hent : it.iter.entries = es) (hseq : it.sequence = s) {c : Cursor (κ × ν)}
    (hview : c.entries = visibleEntries s es) :
    ∃ it', it.seekToLast = some it' ∧ Sim s es it' c.seekToLast := by
  have hpos : (⟨c.entries, c.entries.length⟩ : Cursor (κ × ν)).pos =
      (visibleFrom s none es).length := by
    rw [hview, visibleEntries]
  exact sim_prev_of_before (c := ⟨c.entries, c.entries.length⟩) hsorted (B := es) (R := [])
    (List.append_nil es).symm (by simp [Cursor.seekToLast, hent]) hseq rfl hview hpos

/-- **Every call answers as the cursor's**: it fails on both, or leaves them where `Sim` relates
them. -/
theorem Sim.step (hsorted : InternalSorted es) (hs : s.toNat ≤ CompactionWork.kMaxSequenceNumber)
    {it : DBIter κ ν} {c : Cursor (κ × ν)} (h : Sim s es it c) (op : Cursor.Op κ) :
    (it.step op = none ∧ c.step op = none) ∨
      ∃ it' c', it.step op = some it' ∧ c.step op = some c' ∧ Sim s es it' c' := by
  cases op with
  | seekToFirst =>
    obtain ⟨it', hrun, hsim⟩ := sim_seekToFirst hsorted h.entries h.sequence h.view
    exact .inr ⟨it', _, hrun, rfl, hsim⟩
  | seekToLast =>
    obtain ⟨it', hrun, hsim⟩ := sim_seekToLast hsorted h.entries h.sequence h.view
    exact .inr ⟨it', _, hrun, rfl, hsim⟩
  | seek target =>
    obtain ⟨it', hrun, hsim⟩ := sim_seek hsorted hs target h.entries h.sequence h.view
    exact .inr ⟨it', _, hrun, rfl, hsim⟩
  | next => exact h.next hsorted
  | prev => exact h.prev hsorted

/-- A new iterator, not valid, stands where a cursor past the end of the snapshot does. -/
theorem sim_new (iter : Cursor (InternalEntry κ ν)) :
    Sim s iter.entries (new iter s)
      ⟨visibleEntries s iter.entries, (visibleEntries s iter.entries).length⟩ :=
  ⟨rfl, rfl, rfl, .inl ⟨rfl, valid_eq_false_of_pos rfl rfl⟩⟩

/-- **The iterator shows the snapshot.** Over internal entries in the order of the internal key
comparator, at a snapshot that is a sequence number, every run of calls on the iterator that
`NewDBIterator` returns answers as a cursor past the end of the entries the snapshot shows (for
each user key, the newest version at most the snapshot whose key parses, where it is a value):
the run fails in both (`Next()` or `Prev()` where not valid), or leaves both valid or both not,
reading the same entry. -/
theorem newDBIterator_visibleEntries (hsorted : InternalSorted es)
    (hs : s.toNat ≤ CompactionWork.kMaxSequenceNumber) (pos : ℤ) (ops : List (Cursor.Op κ)) :
    (Machine.run (flip step) (new ⟨es, pos⟩ s) ops = none ∧
        Machine.run (flip Cursor.step) ⟨visibleEntries s es, (visibleEntries s es).length⟩ ops =
          none) ∨
      ∃ it c, Machine.run (flip step) (new ⟨es, pos⟩ s) ops = some it ∧
        Machine.run (flip Cursor.step) ⟨visibleEntries s es, (visibleEntries s es).length⟩ ops =
          some c ∧
        it.valid = c.valid ∧ it.entry = c.current := by
  rcases Machine.run_lockstep (Sim s es) (fun _ _ op h ↦ h.step hsorted hs op) ops _ _
      (sim_new ⟨es, pos⟩) with hnone | ⟨it, c, hit, hc, hsim⟩
  · exact .inl hnone
  · exact .inr ⟨it, c, hit, hc, hsim.valid_entry⟩

/-- Keys `1` to `3` under the snapshot `6`: `1` has a value at `5` over a deletion at `3`, `2` a
deletion at `7`, above the snapshot, over a deletion at `4` over a value at `2`, and `3` a value
at `1`. -/
def snapshotEntries : List (InternalEntry ℕ ℕ) :=
  [⟨1, 1281, 10⟩, ⟨1, 768, 0⟩, ⟨2, 1793, 20⟩, ⟨2, 1024, 0⟩, ⟨2, 513, 21⟩, ⟨3, 257, 30⟩]

theorem newDBIterator_visibleEntries_snapshot :
    InternalSorted snapshotEntries ∧ (6 : UInt64).toNat ≤ CompactionWork.kMaxSequenceNumber ∧
      ∀ (pos : ℤ) (ops : List (Cursor.Op ℕ)),
        (Machine.run (flip step) (new ⟨snapshotEntries, pos⟩ 6) ops = none ∧
            Machine.run (flip Cursor.step) ⟨visibleEntries 6 snapshotEntries,
              (visibleEntries 6 snapshotEntries).length⟩ ops = none) ∨
          ∃ it c, Machine.run (flip step) (new ⟨snapshotEntries, pos⟩ 6) ops = some it ∧
            Machine.run (flip Cursor.step) ⟨visibleEntries 6 snapshotEntries,
              (visibleEntries 6 snapshotEntries).length⟩ ops = some c ∧
            it.valid = c.valid ∧ it.entry = c.current :=
  have hsorted : InternalSorted snapshotEntries := by decide
  have hs : (6 : UInt64).toNat ≤ CompactionWork.kMaxSequenceNumber := by decide
  ⟨hsorted, hs, newDBIterator_visibleEntries hsorted hs⟩

/-- The snapshot shows `1` and `3`: the value of `2` at the snapshot is hidden by a deletion. -/
example : visibleEntries 6 snapshotEntries = [(1, 10), (3, 30)] := by decide

end Sim

end DBIter

end PebblesDB.Db
