import Mathlib.Order.Basic

/-!
# Two loop shapes of iterator code

Iterators over encoded data move with two kinds of loop, and this file gives each a definition and
the one rule its callers need.

A scan `do { ok = Step(); } while (ok && Cond());`, which also covers
`while (true) { if (!Step()) return; if (!Cond()) return; }`, is `doWhile`. Such a loop stops on
well-formed data only; on any other it may run for ever, so `doWhile` takes fuel and returns
`none` when it runs out. `doWhile_rule` is the Hoare rule with a variant: an invariant that every
round keeps while the loop goes on, a variant that each such round lowers, and a postcondition
that holds when it stops give the loop's result as soon as the fuel exceeds the variant.

A binary search `while (left < right) { mid = (left + right + 1) / 2; ... }` for the last index
whose probe says yes is `searchLast`. The probe may fail (`none`), which stops the search.
`searchLast_spec` says that on a probe that answers a predicate true up to some index and false
after it, the search returns the last index that answers true, or its start.
-/

namespace Loop

/-! ## Scans -/

section DoWhile

variable {σ : Type*} (step : σ → σ × Bool) (cond : σ → Bool)

/-- `do { ok = step(s) } while (ok && cond(s))`, for at most `fuel` rounds: the state the loop
stops in, or `none` when the fuel runs out first. -/
def doWhile : ℕ → σ → Option σ
  | 0, _ => none
  | fuel + 1, s =>
    if (step s).2 && cond (step s).1 then doWhile fuel (step s).1 else some (step s).1

@[simp] theorem doWhile_zero (s : σ) : doWhile step cond 0 s = none := rfl

theorem doWhile_succ (fuel : ℕ) (s : σ) :
    doWhile step cond (fuel + 1) s =
      if (step s).2 && cond (step s).1 then doWhile step cond fuel (step s).1
      else some (step s).1 :=
  rfl

/-- **The rule of a scan.** From a state satisfying `P`, a round either goes on, to a state
satisfying `P` with a smaller variant, or stops in a state satisfying `Q`; then the loop stops in
a state satisfying `Q` once the fuel exceeds the variant. -/
theorem doWhile_rule (P Q : σ → Prop) (μ : σ → ℕ)
    (hgo : ∀ s, P s → (step s).2 = true → cond (step s).1 = true →
      P (step s).1 ∧ μ (step s).1 < μ s)
    (hstop : ∀ s, P s → ((step s).2 && cond (step s).1) = false → Q (step s).1) :
    ∀ (fuel : ℕ) (s : σ), P s → μ s < fuel → ∃ s', doWhile step cond fuel s = some s' ∧ Q s'
  | 0, _, _, hfuel => absurd hfuel (Nat.not_lt_zero _)
  | fuel + 1, s, hs, hfuel => by
    rw [doWhile_succ]
    split
    · rename_i hcont
      obtain ⟨hok, hc⟩ := Bool.and_eq_true_iff.1 hcont
      obtain ⟨hs', hμ⟩ := hgo s hs hok hc
      exact doWhile_rule P Q μ hgo hstop fuel _ hs' (by omega)
    · rename_i hstop'
      exact ⟨_, rfl, hstop s hs (Bool.eq_false_iff.2 hstop')⟩

end DoWhile

/-! ## Binary search for the last index -/

section SearchLast

variable (probe : ℕ → Option Bool)

/-- `while (left < right) { mid = (left + right + 1) / 2; ... }`: `left = mid` where the probe at
`mid` says yes, `right = mid - 1` where it says no, and `none` where it fails. -/
def searchLast (left right : ℕ) : Option ℕ :=
  if left < right then
    match probe ((left + right + 1) / 2) with
    | none => none
    | some true => searchLast ((left + right + 1) / 2) right
    | some false => searchLast left ((left + right + 1) / 2 - 1)
  else some left
termination_by right - left

/-- **The binary search finds the last index that answers yes.** On a probe that answers `p`
between `left` and `right`, where `p` holds up to some index and fails after it, the search
returns an index `l` from `left` to `right` (or `left`) that is `left` itself or answers yes, and
past which nothing up to `right` does. -/
theorem searchLast_spec (p : ℕ → Bool) (left right : ℕ)
    (hprobe : ∀ j, left < j → j ≤ right → probe j = some (p j))
    (hanti : ∀ i j, left < i → i ≤ j → j ≤ right → p j = true → p i = true) :
    ∃ l, searchLast probe left right = some l ∧ left ≤ l ∧ l ≤ max left right ∧
      (l = left ∨ p l = true) ∧ ∀ j, l < j → j ≤ right → p j = false := by
  fun_induction searchLast probe left right with
  | case1 left right hlt hnone =>
    rw [hprobe _ (by omega) (by omega)] at hnone
    cases hnone
  | case2 left right hlt hyes ih =>
    have hpm : p ((left + right + 1) / 2) = true := by
      rw [hprobe _ (by omega) (by omega)] at hyes
      exact Option.some_inj.1 hyes
    obtain ⟨l, hl, hle, hlr, hlp, hafter⟩ :=
      ih (fun j hj hjr ↦ hprobe j (by omega) hjr) (fun i j hi hij hj ↦ hanti i j (by omega) hij hj)
    refine ⟨l, hl, by omega, by omega, ?_, hafter⟩
    rcases hlp with rfl | hlp
    · exact .inr hpm
    · exact .inr hlp
  | case3 left right hlt hno ih =>
    have hpm : p ((left + right + 1) / 2) = false := by
      rw [hprobe _ (by omega) (by omega)] at hno
      exact Option.some_inj.1 hno
    obtain ⟨l, hl, hle, hlr, hlp, hafter⟩ :=
      ih (fun j hj hjr ↦ hprobe j hj (by omega)) (fun i j hi hij hj ↦ hanti i j hi hij (by omega))
    refine ⟨l, hl, hle, by omega, hlp, fun j hj hjr ↦ ?_⟩
    -- past `mid - 1` nothing answers yes, since `mid` does not
    by_cases hjm : j ≤ (left + right + 1) / 2 - 1
    · exact hafter j hj hjm
    · rw [Bool.eq_false_iff]
      intro hpj
      have := hanti ((left + right + 1) / 2) j (by omega) (by omega) hjr hpj
      rw [hpm] at this
      cases this
  | case4 left right hge =>
    exact ⟨left, rfl, Nat.le_refl left, Nat.le_max_left left right, .inl rfl,
      fun j hj hjr ↦ absurd hjr (by omega)⟩

end SearchLast

end Loop
