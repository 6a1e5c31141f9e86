import Mathlib.Logic.Basic

/-!
# Runs of a labelled machine

A machine here is a partial step function `exec : σ → α → Option σ`: a label names one atomic
action of one thread together with every choice the environment makes in it (which branch a
status takes, which thread gets the lock next), and `none` means the action is not enabled. A
run is a list of labels executed from a start state.

Two facts are all the developments above need. Runs compose (`run_append`), so a concrete
counterexample trace can be evaluated piece by piece; and an invariant that holds initially
and is kept by every enabled action holds after every run (`run_invariant`), which is the only
induction a safety proof has to do. Where a property holds only along runs of some of the
actions, `run_invariant_of` restricts the rule to them.

Where it holds only while the states stay within a bound (a counter that would wrap past it),
`Stays` says that a run does, and `run_simulation_stays` carries an invariant along such a run
together with a relation to an abstract machine, a function of the labels, that each step
matches.

Two machines over the same labels run in lockstep when related states enable the same labels and
lead to related states (`run_lockstep`); an implementation that runs in lockstep with its
specification answers every run of calls as the specification does.
-/

namespace Machine

variable {σ α : Type*}

/-- Execute a list of labels, stopping with `none` at the first one that is not enabled. -/
def run (exec : σ → α → Option σ) : σ → List α → Option σ
  | s, [] => some s
  | s, a :: as => (exec s a).bind fun s' ↦ run exec s' as

@[simp] theorem run_nil (exec : σ → α → Option σ) (s : σ) : run exec s [] = some s := rfl

@[simp] theorem run_cons (exec : σ → α → Option σ) (s : σ) (a : α) (as : List α) :
    run exec s (a :: as) = (exec s a).bind fun s' ↦ run exec s' as := rfl

theorem run_append (exec : σ → α → Option σ) (s : σ) (as bs : List α) :
    run exec s (as ++ bs) = (run exec s as).bind fun s' ↦ run exec s' bs := by
  induction as generalizing s with
  | nil => rfl
  | cons a as ih =>
    simp only [List.cons_append, run_cons, ih]
    cases exec s a <;> rfl

theorem run_singleton (exec : σ → α → Option σ) (s : σ) (a : α) :
    run exec s [a] = exec s a := by
  simp only [run_cons, run_nil]
  cases exec s a <;> rfl

/-- The states some run reaches from `s₀`. -/
def Reachable (exec : σ → α → Option σ) (s₀ s : σ) : Prop :=
  ∃ as, run exec s₀ as = some s

theorem Reachable.refl (exec : σ → α → Option σ) (s₀ : σ) : Reachable exec s₀ s₀ :=
  ⟨[], rfl⟩

theorem Reachable.step {exec : σ → α → Option σ} {s₀ s s' : σ} {a : α}
    (h : Reachable exec s₀ s) (hs : exec s a = some s') : Reachable exec s₀ s' := by
  obtain ⟨as, has⟩ := h
  refine ⟨as ++ [a], ?_⟩
  rw [run_append, has, Option.bind_some, run_singleton, hs]

/-- **The invariant rule for runs of chosen actions.** A property that holds at the start and is
kept by every enabled action satisfying `Q` holds after every run made of such actions. -/
theorem run_invariant_of {exec : σ → α → Option σ} (P : σ → Prop) (Q : α → Prop)
    (hstep : ∀ s a s', P s → Q a → exec s a = some s' → P s') :
    ∀ (as : List α), (∀ a ∈ as, Q a) → ∀ {s s' : σ}, P s → run exec s as = some s' → P s' := by
  intro as
  induction as with
  | nil =>
    intro _ s s' hs hrun
    rw [run_nil, Option.some_inj] at hrun
    exact hrun ▸ hs
  | cons a as ih =>
    intro hQ s s' hs hrun
    rw [run_cons, Option.bind_eq_some_iff] at hrun
    obtain ⟨t, ht, hrest⟩ := hrun
    exact ih (fun b hb ↦ hQ b (List.mem_cons_of_mem a hb))
      (hstep s a t hs (hQ a List.mem_cons_self) ht) hrest

/-- **The invariant rule.** A property that holds at the start and is kept by every enabled
action holds after every run. -/
theorem run_invariant {exec : σ → α → Option σ} (P : σ → Prop)
    (hstep : ∀ s a s', P s → exec s a = some s' → P s') :
    ∀ (as : List α) {s s' : σ}, P s → run exec s as = some s' → P s' :=
  fun as ↦ run_invariant_of P (fun _ ↦ True) (fun s a s' hs _ ↦ hstep s a s' hs) as
    fun _ _ ↦ trivial

theorem Reachable.invariant {exec : σ → α → Option σ} (P : σ → Prop)
    (hstep : ∀ s a s', P s → exec s a = some s' → P s') {s₀ s : σ}
    (h0 : P s₀) (h : Reachable exec s₀ s) : P s := by
  obtain ⟨as, has⟩ := h
  exact run_invariant P hstep as h0 has

/-- Every state that a run of `as` from `s` passes through after `s` satisfies `B`. -/
def Stays (exec : σ → α → Option σ) (B : σ → Prop) : σ → List α → Prop
  | _, [] => True
  | s, a :: as => ∀ s', exec s a = some s' → B s' ∧ Stays exec B s' as

/-- **Simulation within a bound.** If every enabled action from a state of `P` into one of `B`
keeps `P` and is matched by `step` on an abstract state related by `R`, then a run that stays in
`B` ends in `P`, related to the abstract state its labels lead to. -/
theorem run_simulation_stays {τ : Type*} {exec : σ → α → Option σ} (P B : σ → Prop)
    (R : σ → τ → Prop) (step : τ → α → τ)
    (hstep : ∀ s a s' t, P s → R s t → exec s a = some s' → B s' → P s' ∧ R s' (step t a)) :
    ∀ (as : List α) {s s' : σ} {t : τ}, P s → R s t → Stays exec B s as →
      run exec s as = some s' → P s' ∧ R s' (as.foldl step t) := by
  intro as
  induction as with
  | nil =>
    intro s s' t hs hR _ hrun
    rw [run_nil, Option.some_inj] at hrun
    exact hrun ▸ ⟨hs, hR⟩
  | cons a as ih =>
    intro s s' t hs hR hB hrun
    rw [run_cons, Option.bind_eq_some_iff] at hrun
    obtain ⟨u, hu, hrest⟩ := hrun
    obtain ⟨hBu, hstays⟩ := hB u hu
    obtain ⟨hPu, hRu⟩ := hstep s a u t hs hR hu hBu
    exact ih hPu hRu hstays hrest

/-- **Lockstep simulation.** If from related states each label is enabled in both machines or in
neither, and leads to related states, then every run fails in both or ends in related states. -/
theorem run_lockstep {τ : Type*} {exec : σ → α → Option σ} {exec' : τ → α → Option τ}
    (R : σ → τ → Prop)
    (hstep : ∀ s t a, R s t → (exec s a = none ∧ exec' t a = none) ∨
      ∃ s' t', exec s a = some s' ∧ exec' t a = some t' ∧ R s' t') :
    ∀ (as : List α) (s : σ) (t : τ), R s t → (run exec s as = none ∧ run exec' t as = none) ∨
      ∃ s' t', run exec s as = some s' ∧ run exec' t as = some t' ∧ R s' t'
  | [], s, t, h => .inr ⟨s, t, rfl, rfl, h⟩
  | a :: as, s, t, h => by
    rcases hstep s t a h with ⟨hs, ht⟩ | ⟨s', t', hs, ht, h'⟩
    · exact .inl ⟨by rw [run_cons, hs]; rfl, by rw [run_cons, ht]; rfl⟩
    · rw [run_cons, run_cons, hs, ht, Option.bind_some, Option.bind_some]
      exact run_lockstep R hstep as s' t' h'

end Machine
