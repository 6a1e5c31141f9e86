import Mathlib.Data.List.MinMax

/-!
# Reads at a snapshot

Multi-version data: every version of a key carries a sequence number, later writes larger
ones. A read of key `k` at snapshot `s` sees the versions of `k` numbered at most `s` and
returns the newest of them (`newest`), or nothing. This is the meaning of every read path of a
log-structured store, whatever structure holds the versions, so it is stated here over any type
of version, with the key and the sequence number as functions.

Three facts carry the proofs that a read path computes it. When the versions of a key have
distinct sequence numbers, the newest version is pinned down by domination alone
(`newest_eq_some_iff`), so it depends only on which versions are there, not on their order
(`newest_congr`). And a read may stop at the first place that holds a visible version, if every
place after it holds only older ones (`newest_append_of_newest`), and skip a place that holds
none (`newest_append_of_none`).
-/

namespace Snapshot

variable {α κ : Type*} [DecidableEq κ] (key : α → κ) (seq : α → ℕ)

/-- The versions of `k` a read at snapshot `s` sees. -/
def visible (k : κ) (s : ℕ) (l : List α) : List α :=
  l.filter fun a ↦ key a = k ∧ seq a ≤ s

/-- The newest version of `k` a read at snapshot `s` sees. -/
def newest (k : κ) (s : ℕ) (l : List α) : Option α :=
  (visible key seq k s l).argmax seq

/-- Two versions of one key never share a sequence number. -/
def Distinct (l : List α) : Prop :=
  ∀ a ∈ l, ∀ b ∈ l, key a = key b → seq a = seq b → a = b

instance [DecidableEq α] (l : List α) : Decidable (Distinct key seq l) :=
  inferInstanceAs (Decidable (∀ a ∈ l, ∀ b ∈ l, key a = key b → seq a = seq b → a = b))

variable {key seq} {k : κ} {s : ℕ}

@[simp] theorem mem_visible {l : List α} {a : α} :
    a ∈ visible key seq k s l ↔ a ∈ l ∧ key a = k ∧ seq a ≤ s := by
  simp [visible]

theorem visible_append (l₁ l₂ : List α) :
    visible key seq k s (l₁ ++ l₂) = visible key seq k s l₁ ++ visible key seq k s l₂ :=
  List.filter_append _ _

omit [DecidableEq κ] in
theorem Distinct.mono {l l' : List α} (hd : Distinct key seq l) (hsub : ∀ a ∈ l', a ∈ l) :
    Distinct key seq l' :=
  fun a ha b hb ↦ hd a (hsub a ha) b (hsub b hb)

/-- A read sees nothing exactly when every version of the key is newer than the snapshot. -/
theorem newest_eq_none_iff {l : List α} :
    newest key seq k s l = none ↔ ∀ a ∈ l, key a = k → s < seq a := by
  rw [newest, List.argmax_eq_none, List.eq_nil_iff_forall_not_mem]
  refine ⟨fun h a ha hk ↦ Nat.lt_of_not_le fun hs ↦ h a (mem_visible.2 ⟨ha, hk, hs⟩),
    fun h a ha ↦ ?_⟩
  obtain ⟨ha, hk, hs⟩ := mem_visible.1 ha
  exact absurd hs (Nat.not_le_of_lt (h a ha hk))

/-- What a read returns is a visible version, and no visible version is newer. -/
theorem newest_spec {l : List α} {m : α} (h : newest key seq k s l = some m) :
    m ∈ l ∧ key m = k ∧ seq m ≤ s ∧ ∀ a ∈ l, key a = k → seq a ≤ s → seq a ≤ seq m := by
  have hmem := mem_visible.1 (List.argmax_mem (Option.mem_def.2 h))
  exact ⟨hmem.1, hmem.2.1, hmem.2.2, fun a ha hk hs ↦
    List.le_of_mem_argmax (mem_visible.2 ⟨ha, hk, hs⟩) (Option.mem_def.2 h)⟩

/-- **The newest version is pinned down by domination**, when the versions of the key have
distinct sequence numbers. -/
theorem newest_eq_some_iff {l : List α} {m : α} (hd : Distinct key seq l) :
    newest key seq k s l = some m ↔
      m ∈ l ∧ key m = k ∧ seq m ≤ s ∧ ∀ a ∈ l, key a = k → seq a ≤ s → seq a ≤ seq m := by
  refine ⟨newest_spec, fun ⟨hm, hk, hs, hdom⟩ ↦ ?_⟩
  cases h : newest key seq k s l with
  | none => exact absurd hs (Nat.not_le_of_lt (newest_eq_none_iff.1 h m hm hk))
  | some m' =>
    -- `m'` and `m` dominate each other, so they share their sequence number
    obtain ⟨hm', hk', hs', hdom'⟩ := newest_spec h
    have heq := Nat.le_antisymm (hdom m' hm' hk' hs') (hdom' m hm hk hs)
    rw [hd m' hm' m hm (hk'.trans hk.symm) heq]

/-- **A read depends only on which versions are there.** -/
theorem newest_congr {l l' : List α} (hd' : Distinct key seq l')
    (hmem : ∀ a, key a = k → seq a ≤ s → (a ∈ l ↔ a ∈ l')) :
    newest key seq k s l = newest key seq k s l' := by
  cases h : newest key seq k s l with
  | none =>
    refine (newest_eq_none_iff.2 fun a ha hk ↦ Nat.lt_of_not_le fun hs ↦ ?_).symm
    exact absurd hs (Nat.not_le_of_lt (newest_eq_none_iff.1 h a ((hmem a hk hs).2 ha) hk))
  | some m =>
    obtain ⟨hm, hk, hs, hdom⟩ := newest_spec h
    refine ((newest_eq_some_iff hd').2 ⟨(hmem m hk hs).1 hm, hk, hs, fun a ha hka hsa ↦ ?_⟩).symm
    exact hdom a ((hmem a hka hsa).2 ha) hka hsa

theorem foldl_argAux_of_le {m : α} :
    ∀ l : List α, (∀ b ∈ l, seq b ≤ seq m) →
      l.foldl (List.argAux fun b c ↦ seq c < seq b) (some m) = some m := by
  intro l
  induction l with
  | nil => intro _; rfl
  | cons b l ih =>
    intro hle
    have hb : List.argAux (fun b c ↦ seq c < seq b) (some m) b = some m :=
      if_neg (Nat.not_lt_of_le (hle b List.mem_cons_self))
    rw [List.foldl_cons, hb]
    exact ih fun b' hb' ↦ hle b' (List.mem_cons_of_mem b hb')

/-- **A read may stop at the first place with a visible version**, when what comes after it
is no newer. -/
theorem newest_append_of_newest {l₁ l₂ : List α} {m : α} (h : newest key seq k s l₁ = some m)
    (hle : ∀ b ∈ l₂, key b = k → seq b ≤ s → seq b ≤ seq m) :
    newest key seq k s (l₁ ++ l₂) = some m := by
  unfold newest at h ⊢
  rw [visible_append, List.argmax, List.foldl_append, ← List.argmax, h]
  refine foldl_argAux_of_le _ fun b hb ↦ ?_
  obtain ⟨hb, hk, hs⟩ := mem_visible.1 hb
  exact hle b hb hk hs

/-- A place without a visible version can be skipped. -/
theorem newest_append_of_none {l₁ l₂ : List α} (h : newest key seq k s l₁ = none) :
    newest key seq k s (l₁ ++ l₂) = newest key seq k s l₂ := by
  unfold newest at h ⊢
  rw [visible_append, List.argmax_eq_none.1 h, List.nil_append]

end Snapshot
