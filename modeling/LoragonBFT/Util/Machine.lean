import Mathlib.Data.Nat.Notation
import Mathlib.Logic.Relation

/-!
# Machines driven by inputs

A machine is a step function on a type of states and a type of inputs. What
its environment may do is a condition on the state and the input, and a run
is a sequence of steps that all meet it. Safety properties are invariants of
runs (`Run.invariant`).

Examples of runs are computed: a list of inputs is played, a test decides
whether each of its steps meets the condition, and `Run.of_plays` gives the
run.
-/

namespace Machine

variable {σ ι : Type} {step : σ → ι → σ} {ok : σ → ι → Prop}

/-- A run from one state to another, all of whose steps meet the
condition. -/
def Run (step : σ → ι → σ) (ok : σ → ι → Prop) : σ → σ → Prop :=
  Relation.ReflTransGen (fun s s' => ∃ i, ok s i ∧ s' = step s i)

variable {P : σ → Prop} {s : σ}

/-- **An invariant of the steps holds in every state a run reaches.** -/
theorem Run.invariant {s' : σ} (hrun : Run step ok s s') (h₀ : P s)
    (hstep : ∀ t i, ok t i → P t → P (step t i)) : P s' := by
  induction hrun with
  | refl => exact h₀
  | tail _ hlast ih =>
    obtain ⟨i, hok, rfl⟩ := hlast
    exact hstep _ i hok ih

/-- A run under a condition is a run under a weaker one. -/
theorem Run.imp {ok' : σ → ι → Prop} {s' : σ} (h : ∀ t i, ok t i → ok' t i)
    (hrun : Run step ok s s') : Run step ok' s s' := by
  induction hrun with
  | refl => exact .refl
  | tail _ hlast ih =>
    obtain ⟨i, hok, rfl⟩ := hlast
    exact ih.tail ⟨i, h _ i hok, rfl⟩

/-- **An invariant of the steps of one run**, which may be about the states
of that very run. -/
theorem Run.invariant_along {s' : σ} (hrun : Run step ok s s') (h₀ : P s)
    (hstep : ∀ t i, Run step ok s t → ok t i → Run step ok (step t i) s' → P t → P (step t i)) :
    P s' := by
  have hgeneral : ∀ t, Run step ok t s' → Run step ok s t → P t → P s' := by
    intro t ht
    induction ht using Relation.ReflTransGen.head_induction_on with
    | refl => exact fun _ h => h
    | head hfirst hrest ih =>
      obtain ⟨i, hok, rfl⟩ := hfirst
      exact fun hreach h => ih (hreach.tail ⟨i, hok, rfl⟩) (hstep _ i hreach hok hrest h)
  exact hgeneral s hrun .refl h₀

/-! ## Playing a list of inputs -/

/-- The state after a list of inputs. -/
def play (step : σ → ι → σ) (s : σ) (inputs : List ι) : σ := inputs.foldl step s

/-- Every step of the list meets the condition. -/
def Plays (step : σ → ι → σ) (ok : σ → ι → Prop) : σ → List ι → Prop
  | _, [] => True
  | s, i :: inputs => ok s i ∧ Plays step ok (step s i) inputs

/-- Every step of the list passes the test. -/
def passes (step : σ → ι → σ) (test : σ → ι → Bool) : σ → List ι → Bool
  | _, [] => true
  | s, i :: inputs => test s i && passes step test (step s i) inputs

/-- **A list whose steps all meet the condition is a run.** -/
theorem Run.of_plays (inputs : List ι) (h : Plays step ok s inputs) :
    Run step ok s (play step s inputs) := by
  induction inputs generalizing s with
  | nil => exact .refl
  | cons i inputs ih =>
    obtain ⟨hok, hrest⟩ := h
    exact .head ⟨i, hok, rfl⟩ (ih hrest)

theorem plays_of_forall (h : ∀ s i, ok s i) (inputs : List ι) (s : σ) :
    Plays step ok s inputs := by
  induction inputs generalizing s with
  | nil => trivial
  | cons i inputs ih => exact ⟨h s i, ih (step s i)⟩

/-- Without a condition on the inputs, every sequence of them is a run. -/
theorem run_play (inputs : List ι) (s : σ) :
    Run step (fun _ _ => True) s (play step s inputs) :=
  .of_plays inputs (plays_of_forall (fun _ _ => trivial) inputs s)

/-- A list whose steps all pass a test that implies the condition, in the
states in which an invariant holds. -/
theorem Plays.of_test_along {I : σ → Prop} (test : σ → ι → Bool)
    (htest : ∀ s i, I s → test s i = true → ok s i) (hkeeps : ∀ s i, I s → ok s i → I (step s i))
    (inputs : List ι) (hs : I s) (h : passes step test s inputs = true) :
    Plays step ok s inputs := by
  induction inputs generalizing s with
  | nil => trivial
  | cons i inputs ih =>
    obtain ⟨hfirst, hrest⟩ := Bool.and_eq_true_iff.mp h
    have hok := htest s i hs hfirst
    exact ⟨hok, ih (hkeeps s i hs hok) hrest⟩

/-- A list whose steps all pass a test that implies the condition. -/
theorem Plays.of_test (test : σ → ι → Bool) (htest : ∀ s i, test s i = true → ok s i)
    (inputs : List ι) (h : passes step test s inputs = true) :
    Plays step ok s inputs :=
  of_test_along (I := fun _ => True) test (fun s i _ => htest s i) (fun _ _ _ _ => trivial) inputs
    trivial h

variable {inputs : List ι}

/-- The state after one more input of a list. -/
theorem play_take_succ {n : ℕ} {i : ι} (h : inputs[n]? = some i) (s : σ) :
    play step s (inputs.take (n + 1)) = step (play step s (inputs.take n)) i := by
  unfold play
  rw [List.take_add_one, h, Option.toList_some, List.foldl_append]
  rfl

/-- Each input of a list is played under the condition. -/
theorem Plays.at (h : Plays step ok s inputs) {n : ℕ} {i : ι} (hi : inputs[n]? = some i) :
    ok (play step s (inputs.take n)) i := by
  induction inputs generalizing s n with
  | nil => exact nomatch hi
  | cons i' inputs ih =>
    cases n with
    | zero => exact Option.some.inj hi ▸ h.1
    | succ n => exact ih h.2 hi

/-- **An invariant that may speak of how many inputs were played.** -/
theorem Plays.invariant {P : ℕ → σ → Prop} (h : Plays step ok s inputs) (h₀ : P 0 s)
    (hstep : ∀ n i, inputs[n]? = some i → ok (play step s (inputs.take n)) i →
      P n (play step s (inputs.take n)) → P (n + 1) (step (play step s (inputs.take n)) i)) :
    P inputs.length (play step s inputs) := by
  have hgeneral : ∀ n, n ≤ inputs.length → P n (play step s (inputs.take n)) := by
    intro n
    induction n with
    | zero => exact fun _ => h₀
    | succ n ih =>
      intro hn
      have hi : inputs[n]? = some inputs[n] := List.getElem?_eq_getElem hn
      rw [play_take_succ hi]
      exact hstep n _ hi (h.at hi) (ih (Nat.le_of_succ_le hn))
  have hall := hgeneral inputs.length (Nat.le_refl _)
  rwa [List.take_length] at hall

/-- **A property and the condition that keeps it.** If, in the states where
the property holds, a step keeps it exactly when it meets the condition, then
the property holds all along a list of inputs exactly when every step of the
list meets the condition. The inputs may come from an environment that keeps
to rules of its own, and the proof may use an invariant of such steps. -/
theorem forall_take_iff_plays {rules : σ → ι → Prop} {I : σ → Prop} (inputs : List ι)
    (hrules : Plays step rules s inputs) (hI : I s) (hP : P s)
    (hkeeps : ∀ t i, I t → P t → rules t i → ok t i → I (step t i))
    (hstep : ∀ t i, I t → P t → rules t i → (P (step t i) ↔ ok t i)) :
    (∀ n, P (play step s (inputs.take n))) ↔ Plays step ok s inputs := by
  induction inputs generalizing s with
  | nil => exact ⟨fun _ => trivial, fun _ n => by rw [List.take_nil]; exact hP⟩
  | cons i inputs ih =>
    obtain ⟨hrule, hrules⟩ := hrules
    constructor
    · intro h
      have hok : ok s i := (hstep s i hI hP hrule).mp (h 1)
      exact ⟨hok, (ih hrules (hkeeps s i hI hP hrule hok) (h 1)).mp fun n => h (n + 1)⟩
    · rintro ⟨hok, hrest⟩ n
      cases n with
      | zero => exact hP
      | succ n =>
        exact (ih hrules (hkeeps s i hI hP hrule hok)
          ((hstep s i hI hP hrule).mpr hok)).mpr hrest n

/-! ## Steps that may fault -/

/-- **A machine whose invariant excludes faults does not fault.** The
invariant may speak of the inputs taken so far. -/
theorem exists_foldlM {step : σ → ι → Option σ} {P : List ι → σ → Prop}
    (hstep : ∀ done s i, P done s → ∃ s', step s i = some s' ∧ P (done ++ [i]) s')
    (inputs done : List ι) (h : P done s) :
    ∃ s', inputs.foldlM step s = some s' ∧ P (done ++ inputs) s' := by
  induction inputs generalizing done s with
  | nil => exact ⟨s, rfl, (List.append_nil done).symm ▸ h⟩
  | cons i inputs ih =>
    obtain ⟨s₁, hfirst, h₁⟩ := hstep done s i h
    obtain ⟨s', hrest, h'⟩ := ih (done ++ [i]) h₁
    refine ⟨s', ?_, ?_⟩
    · rw [List.foldlM_cons, hfirst]
      exact hrest
    · rw [List.append_cons]
      exact h'

end Machine
