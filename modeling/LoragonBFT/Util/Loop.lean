import Mathlib.Data.Nat.Notation

/-!
# Loops

A loop is a condition and a body. Run with a bound on its rounds it gives a
result only if the condition fails within the bound, so that **a loop
terminates** if some bound is large enough.

Two rules settle the question: a measure that goes down while an invariant
holds bounds the rounds (`terminates_of_measure`), and an invariant under which
the condition holds keeps the loop going for ever
(`not_terminates_of_invariant`). A loop that ends has one result, whatever the
bound (`run_unique`), and a loop that does what another one does, as seen
through a function, ends with what the other one ends with (`run_map`).

A function that calls itself in tail position, or a loop that is left by a
`return`, is given by one step, which ends in a state to go on from or in a
result (`iterate`). The rules are the same two: a measure that goes down
(`exists_iterate_of_measure`), and an invariant under which the step goes on
(`iterate_eq_none`).
-/

namespace Loop

variable {σ : Type} {cond : σ → Bool} {body : σ → σ}

/-- `for cond { body }`, with a bound on the number of times the condition is
looked at. -/
def run (cond : σ → Bool) (body : σ → σ) : ℕ → σ → Option σ
  | 0, _ => none
  | rounds + 1, s => if cond s then run cond body rounds (body s) else some s

/-- The loop ends. -/
def Terminates (cond : σ → Bool) (body : σ → σ) (s : σ) : Prop :=
  ∃ rounds, (run cond body rounds s).isSome = true

variable {s : σ}

/-- **A loop has one result**: the bound decides only whether it is reached. -/
theorem run_unique {m n : ℕ} {a b : σ} (ha : run cond body m s = some a)
    (hb : run cond body n s = some b) : a = b := by
  induction m generalizing n s with
  | zero => exact nomatch ha
  | succ m ih =>
    cases n with
    | zero => exact nomatch hb
    | succ n =>
      unfold run at ha hb
      by_cases hcond : cond s = true
      · rw [if_pos hcond] at ha hb
        exact ih ha hb
      · rw [if_neg hcond] at ha hb
        exact Option.some.inj (ha.symm.trans hb)

variable {I : σ → Prop}

/-- **An invariant of the body** holds of the result. -/
theorem run_invariant (hkeeps : ∀ s, I s → cond s = true → I (body s)) {n : ℕ} {a : σ} (hs : I s)
    (h : run cond body n s = some a) : I a ∧ cond a = false := by
  induction n generalizing s with
  | zero => exact nomatch h
  | succ n ih =>
    unfold run at h
    by_cases hcond : cond s = true
    · rw [if_pos hcond] at h
      exact ih (hkeeps s hs hcond) h
    · rw [if_neg hcond] at h
      obtain rfl := Option.some.inj h
      exact ⟨hs, Bool.not_eq_true _ ▸ hcond⟩

/-- **A loop seen through a function**, if under an invariant the conditions
and the bodies agree. -/
theorem run_map {τ : Type} {cond' : τ → Bool} {body' : τ → τ} {f : σ → τ}
    (hcond : ∀ s, I s → cond' (f s) = cond s)
    (hbody : ∀ s, I s → cond s = true → f (body s) = body' (f s))
    (hkeeps : ∀ s, I s → cond s = true → I (body s)) (n : ℕ) (hs : I s) :
    (run cond body n s).map f = run cond' body' n (f s) := by
  induction n generalizing s with
  | zero => rfl
  | succ n ih =>
    unfold run
    rw [hcond s hs]
    by_cases hgoes : cond s = true
    · rw [if_pos hgoes, if_pos hgoes, ← hbody s hs hgoes]
      exact ih (hkeeps s hs hgoes)
    · rw [if_neg hgoes, if_neg hgoes]
      rfl

/-- **A measure that goes down** in every round bounds the rounds. -/
theorem terminates_of_measure (μ : σ → ℕ) (hkeeps : ∀ s, I s → cond s = true → I (body s))
    (hdown : ∀ s, I s → cond s = true → μ (body s) < μ s) (hs : I s) :
    Terminates cond body s := by
  -- strong induction on the measure, for all states that satisfy the invariant
  induction hm : μ s using Nat.strongRecOn generalizing s with
  | ind m ih =>
    by_cases hcond : cond s = true
    · obtain ⟨rounds, hrounds⟩ := ih _ (hm ▸ hdown s hs hcond) (hkeeps s hs hcond) rfl
      refine ⟨rounds + 1, ?_⟩
      unfold run
      rwa [if_pos hcond]
    · refine ⟨1, ?_⟩
      unfold run
      rw [if_neg hcond]
      rfl

/-- **An invariant that implies the condition** keeps the loop going. -/
theorem not_terminates_of_invariant {J : σ → Prop} (hcond : ∀ s, J s → cond s = true)
    (hkeeps : ∀ s, J s → J (body s)) (hs : J s) : ¬ Terminates cond body s := by
  rintro ⟨rounds, hrounds⟩
  induction rounds generalizing s with
  | zero => exact nomatch hrounds
  | succ rounds ih =>
    unfold run at hrounds
    rw [if_pos (hcond s hs)] at hrounds
    exact ih (hkeeps s hs) hrounds

/-! ## Tail calls -/

section Iterate

variable {ρ : Type} {step : σ → σ ⊕ ρ}

/-- Steps up to the first result, with a bound on their number. -/
def iterate (step : σ → σ ⊕ ρ) : ℕ → σ → Option ρ
  | 0, _ => none
  | n + 1, s =>
    match step s with
    | .inl s' => iterate step n s'
    | .inr r => some r

theorem iterate_succ_of_inl {s' : σ} (h : step s = .inl s') (n : ℕ) :
    iterate step (n + 1) s = iterate step n s' := by
  rw [iterate, h]

theorem iterate_succ_of_inr {r : ρ} (h : step s = .inr r) (n : ℕ) :
    iterate step (n + 1) s = some r := by
  rw [iterate, h]

/-- **A larger bound gives the same result.** -/
theorem iterate_mono {m n : ℕ} (hmn : m ≤ n) {r : ρ} (h : iterate step m s = some r) :
    iterate step n s = some r := by
  induction m generalizing n s with
  | zero => exact nomatch h
  | succ m ih =>
    obtain ⟨n, rfl⟩ := Nat.exists_eq_add_of_le' (Nat.lt_of_lt_of_le m.succ_pos hmn)
    cases hstep : step s with
    | inl s' =>
      rw [iterate_succ_of_inl hstep] at h ⊢
      exact ih (Nat.le_of_succ_le_succ hmn) h
    | inr r' =>
      rw [iterate_succ_of_inr hstep] at h ⊢
      exact h

/-- **A measure that goes down** while an invariant holds leads to a result,
and to one of the kind the steps end in. -/
theorem exists_iterate_of_measure {Q : ρ → Prop} (μ : σ → ℕ)
    (hgoes : ∀ s s', I s → step s = .inl s' → I s' ∧ μ s' < μ s)
    (hends : ∀ s r, I s → step s = .inr r → Q r) (hs : I s) :
    ∃ n r, iterate step n s = some r ∧ Q r := by
  induction hm : μ s using Nat.strongRecOn generalizing s with
  | ind m ih =>
    cases hstep : step s with
    | inl s' =>
      obtain ⟨hs', hdown⟩ := hgoes s s' hs hstep
      obtain ⟨n, r, hr, hq⟩ := ih _ (hm ▸ hdown) hs' rfl
      exact ⟨n + 1, r, (iterate_succ_of_inl hstep n).trans hr, hq⟩
    | inr r => exact ⟨1, r, iterate_succ_of_inr hstep 0, hends s r hs hstep⟩

/-- **A result is of the kind the steps end in.** -/
theorem iterate_ends {Q : ρ → Prop} (hgoes : ∀ s s', I s → step s = .inl s' → I s')
    (hends : ∀ s r, I s → step s = .inr r → Q r) {n : ℕ} (hs : I s) {r : ρ}
    (h : iterate step n s = some r) : Q r := by
  induction n generalizing s with
  | zero => exact nomatch h
  | succ n ih =>
    cases hstep : step s with
    | inl s' =>
      rw [iterate_succ_of_inl hstep] at h
      exact ih (hgoes s s' hs hstep) h
    | inr r' =>
      rw [iterate_succ_of_inr hstep] at h
      exact Option.some.inj h ▸ hends s r' hs hstep

/-- **An invariant under which the step goes on** keeps the result away. -/
theorem iterate_eq_none {J : σ → Prop} (hgoes : ∀ s, J s → ∃ s', step s = .inl s' ∧ J s') (n : ℕ)
    (hs : J s) : iterate step n s = none := by
  induction n generalizing s with
  | zero => rfl
  | succ n ih =>
    obtain ⟨s', hstep, hs'⟩ := hgoes s hs
    rw [iterate_succ_of_inl hstep]
    exact ih hs'

end Iterate

end Loop
