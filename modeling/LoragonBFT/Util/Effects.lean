import Mathlib.Logic.Relation

/-!
# Computations that change a state and may panic

A handler of a long-running service reads and writes one record of state
and may stop half-way on a run-time fault. What it wrote before the fault
stays written, so the state it leaves behind matters in both outcomes.
`EStateM ε σ` is that kind of computation; this module gives the rules the
development reasons with.

`Ensures x s Q E` says what a computation started in `s` leaves behind: `Q`
of the result and the state when it returns, `E` of the state when it
faults. The rule for sequencing (`ensures_bind`) is the only one that
carries an argument, and the rules for the primitives are equations, so a
handler is taken apart by rewriting.

`Keeps f x` is the special case used for framing: whatever happens, the
reading `f` of the state is what it was. A computation keeps `f` as soon as
its parts do, and so does a loop as soon as its body does.
-/

namespace EStateM

variable {ε σ α β γ : Type}

/-- **What a computation leaves behind**: `Q` of the result and the state if
it returns, `E` of the state if it faults. -/
def Ensures (x : EStateM ε σ α) (s : σ) (Q : α → σ → Prop) (E : σ → Prop) : Prop :=
  match x s with
  | .ok a s' => Q a s'
  | .error _ s' => E s'

/-- The state a computation leaves behind, whichever way it ends. -/
def exec (x : EStateM ε σ α) (s : σ) : σ :=
  match x s with
  | .ok _ s' => s'
  | .error _ s' => s'

theorem ensures_bind (x : EStateM ε σ α) (f : α → EStateM ε σ β) (s : σ)
    (Q : β → σ → Prop) (E : σ → Prop) :
    Ensures (x >>= f) s Q E ↔ Ensures x s (fun a s' => Ensures (f a) s' Q E) E := by
  show Ensures (EStateM.bind x f) s Q E ↔ _
  unfold Ensures EStateM.bind
  cases x s <;> exact Iff.rfl

@[simp] theorem ensures_pure (a : α) (s : σ) (Q : α → σ → Prop) (E : σ → Prop) :
    Ensures (pure a : EStateM ε σ α) s Q E ↔ Q a s := Iff.rfl

@[simp] theorem ensures_get (s : σ) (Q : σ → σ → Prop) (E : σ → Prop) :
    Ensures (get : EStateM ε σ σ) s Q E ↔ Q s s := Iff.rfl

@[simp] theorem ensures_set (t s : σ) (Q : PUnit → σ → Prop) (E : σ → Prop) :
    Ensures (set t : EStateM ε σ PUnit) s Q E ↔ Q ⟨⟩ t := Iff.rfl

@[simp] theorem ensures_modify (g : σ → σ) (s : σ) (Q : PUnit → σ → Prop) (E : σ → Prop) :
    Ensures (modify g : EStateM ε σ PUnit) s Q E ↔ Q ⟨⟩ (g s) := Iff.rfl

variable {x : EStateM ε σ α} {s : σ} {Q : α → σ → Prop} {E : σ → Prop}

/-- Weakening: a computation that ensures more ensures less. -/
theorem Ensures.imp {Q' : α → σ → Prop} {E' : σ → Prop} (h : Ensures x s Q E)
    (hQ : ∀ a s', Q a s' → Q' a s') (hE : ∀ s', E s' → E' s') :
    Ensures x s Q' E' := by
  unfold Ensures at h ⊢
  cases hx : x s with
  | ok a s' => rw [hx] at h; exact hQ a s' h
  | error e s' => rw [hx] at h; exact hE s' h

/-- What holds whatever happens is ensured by every computation. -/
theorem ensures_of_forall (hQ : ∀ a s', Q a s') (hE : ∀ s', E s') : Ensures x s Q E := by
  unfold Ensures
  cases x s with
  | ok a s' => exact hQ a s'
  | error e s' => exact hE s'

/-- What a computation ensures holds of the result it returns. -/
theorem Ensures.of_ok {s' : σ} {a : α} (h : Ensures x s Q E) (hx : x s = .ok a s') : Q a s' := by
  unfold Ensures at h
  rwa [hx] at h

/-- **Sequencing.** To run `x` and then `f`, ensure after `x` what `f` needs. -/
theorem Ensures.bind {f : α → EStateM ε σ β} {P : α → σ → Prop} {Q : β → σ → Prop}
    (hx : Ensures x s P E) (hf : ∀ a s', P a s' → Ensures (f a) s' Q E) :
    Ensures (x >>= f) s Q E :=
  (ensures_bind x f s Q E).mpr (hx.imp hf (fun _ h => h))

/-- What holds of the state left behind holds in both outcomes. -/
theorem ensures_exec :
    Ensures x s (fun _ => E) E ↔ E (x.exec s) := by
  unfold Ensures EStateM.exec
  cases x s <;> exact Iff.rfl

theorem Ensures.exec (h : Ensures x s (fun _ => E) E) : E (x.exec s) := ensures_exec.mp h

/-- Two things a computation ensures, it ensures together. -/
theorem Ensures.and {Q' : α → σ → Prop} {E' : σ → Prop} (h : Ensures x s Q E)
    (h' : Ensures x s Q' E') :
    Ensures x s (fun a s' => Q a s' ∧ Q' a s') (fun s' => E s' ∧ E' s') := by
  unfold Ensures at h h' ⊢
  cases hx : x s with
  | ok a s' => rw [hx] at h h'; exact ⟨h, h'⟩
  | error e s' => rw [hx] at h h'; exact ⟨h, h'⟩

/-! ## Framing -/

/-- **A reading of the state that a computation leaves as it is**, whether it
returns or faults. -/
def Keeps (f : σ → γ) (x : EStateM ε σ α) : Prop :=
  ∀ s, Ensures x s (fun _ s' => f s' = f s) (fun s' => f s' = f s)

section Keeps

variable {f : σ → γ}

theorem Keeps.bind {g : α → EStateM ε σ β} (hx : Keeps f x) (hg : ∀ a, Keeps f (g a)) :
    Keeps f (x >>= g) := by
  intro s
  refine (ensures_bind x g s _ _).mpr ((hx s).imp (fun a s' hs => ?_) (fun _ h => h))
  exact (hg a s').imp (fun _ _ h => h.trans hs) (fun _ h => h.trans hs)

theorem Keeps.pure (a : α) : Keeps f (pure a : EStateM ε σ α) := fun _ => rfl

theorem Keeps.get : Keeps f (get : EStateM ε σ σ) := fun _ => rfl

/-- **A loop keeps what its body keeps.** -/
theorem Keeps.forM {body : β → EStateM ε σ PUnit} (hbody : ∀ c, Keeps f (body c)) (l : List β) :
    Keeps f (l.forM body) := by
  induction l with
  | nil => exact fun _ => rfl
  | cons c l ih => exact (hbody c).bind fun _ => ih

/-- What is read off a reading is kept with it. -/
theorem Keeps.comp {δ : Type} (hx : Keeps f x) (g : γ → δ) :
    Keeps (fun s => g (f s)) x :=
  fun s => (hx s).imp (fun _ _ h => congrArg g h) (fun _ h => congrArg g h)

end Keeps

/-! ## Invariants -/

/-- **A property of the state that a computation leaves true**, whether it
returns or faults. -/
def Preserves (P : σ → Prop) (x : EStateM ε σ α) : Prop :=
  ∀ s, P s → Ensures x s (fun _ => P) P

section Preserves

variable {P : σ → Prop}

theorem Preserves.bind {g : α → EStateM ε σ β} (hx : Preserves P x) (hg : ∀ a, Preserves P (g a)) :
    Preserves P (x >>= g) :=
  fun s hs => (hx s hs).bind fun a s' hs' => hg a s' hs'

theorem Preserves.pure (a : α) : Preserves P (pure a : EStateM ε σ α) := fun _ hs => hs

/-- What only depends on a reading that is kept is preserved. -/
theorem Preserves.of_keeps {f : σ → γ} (hx : Keeps f x) (P : γ → Prop) :
    Preserves (fun s => P (f s)) x :=
  fun s hs => (hx s).imp (fun _ _ h => h ▸ hs) (fun _ h => h ▸ hs)

end Preserves

end EStateM

/-- A sequence that returns has returned at every step. -/
theorem Except.exists_of_bind_eq_ok {ε α β : Type} {x : Except ε α} {f : α → Except ε β} {b : β}
    (h : x >>= f = .ok b) : ∃ a, x = .ok a ∧ f a = .ok b := by
  cases x with
  | error e => cases h
  | ok a => exact ⟨a, rfl, h⟩
