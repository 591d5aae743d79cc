import LoragonBFT.Util.Machine
import Mathlib.Logic.Function.Basic

/-!
# Calls and their results

A call to a peer draws an identifier that is not in use, registers a listener
under it and waits; `Serve` reads the messages of the connection and gives a
result to the listener its identifier leads to. A call may also end without
its result.

The identifier is let go twice, by `handleResult` when the result comes and by
`finalizeCall` when the call returns, and between the two it can be drawn
again. No call gets a result that is not its own for that, or two of them. But
a call that draws the identifier of one that has its result and has not
returned yet loses its listener when that one does.
-/

namespace LoragonBFT

/-- Where a call is: before the end of its `select`, before `finalizeCall`, or
behind. -/
inductive CallPhase where
  | waiting
  | returning
  | returned

/-- A call of `Call`, with what was put into its `errCh`. -/
structure Call (ρ : Type) where
  id : UInt32
  msgCode : UInt64
  answer : Option (Option ρ)
  phase : CallPhase

/-- A result, with the call it is for; `none` is one that does not decode. -/
structure Delivery (ρ : Type) where
  call : ℕ
  id : UInt32
  msgCode : UInt64
  decoded : Option ρ

/-- An `RPC` and its calls. -/
structure Connection (ρ : Type) where
  /-- The calls that listen, by their identifiers. -/
  pendings : UInt32 → Option ℕ
  calls : ℕ → Option (Call ρ)
  /-- What `handleResult` has found the listener of. -/
  serving : Option (Delivery ρ)
  /-- `Serve` has returned. -/
  done : Bool
  /-- The results given to calls, for the statements only. -/
  log : List (Delivery ρ)

namespace Connection

variable {ρ : Type}

/-- A connection without calls. -/
def new : Connection ρ := ⟨fun _ => none, fun _ => none, none, false, []⟩

/-- `handleResult` behind the lock. A result of another kind ends the
connection, and so does one that does not decode. -/
def deliver (s : Connection ρ) (d : Delivery ρ) (c : Call ρ) : Connection ρ :=
  if c.msgCode ≠ d.msgCode then { s with serving := none, done := true }
  else
    { s with
      serving := none
      calls := Function.update s.calls d.call (some { c with answer := some d.decoded })
      done := s.done || d.decoded.isNone
      log := s.log ++ [d] }

/-- **What can happen next**, with a condition on the identifiers drawn. The
messages are the peer's choice. -/
inductive Step (ok : Connection ρ → UInt32 → Prop) (s : Connection ρ) : Connection ρ → Prop
  /-- A new call, and `prepareCall`. -/
  | call {id : UInt32} {k : ℕ} (msgCode : UInt64) (isNew : s.calls k = none) (nonzero : id ≠ 0)
      (free : s.pendings id = none) (drawn : ok s id) :
      Step ok s
        { s with
          pendings := Function.update s.pendings id (some k)
          calls := Function.update s.calls k (some ⟨id, msgCode, none, .waiting⟩) }
  /-- `Serve` reads a result and `handleResult` takes its listener. A result
  that nobody listens for changes nothing. -/
  | take (d : Delivery ρ) (serves : s.done = false) (reads : s.serving = none)
      (pending : s.pendings d.id = some d.call) :
      Step ok s
        { s with pendings := Function.update s.pendings d.id none, serving := some d }
  /-- The listener gets the result. -/
  | deliver {d : Delivery ρ} {c : Call ρ} (serving : s.serving = some d)
      (made : s.calls d.call = some c) : Step ok s (s.deliver d c)
  /-- A call leaves its `select` – with its result, after a timeout or because
  the connection is done – or could not be sent. -/
  | select {k : ℕ} {c : Call ρ} (made : s.calls k = some c) (waits : c.phase = .waiting) :
      Step ok s
        { s with calls := Function.update s.calls k (some { c with phase := .returning }) }
  /-- `finalizeCall`. -/
  | finalize {k : ℕ} {c : Call ρ} (made : s.calls k = some c) (returns : c.phase = .returning) :
      Step ok s
        { s with
          pendings := Function.update s.pendings c.id none
          calls := Function.update s.calls k (some { c with phase := .returned }) }
  /-- `Serve` returns for another reason. -/
  | close (reads : s.serving = none) : Step ok s { s with done := true }

/-- A run of a connection. -/
abbrev Run (ok : Connection ρ → UInt32 → Prop) : Connection ρ → Connection ρ → Prop :=
  Relation.ReflTransGen (Step ok)

theorem cases_of_update {α β : Type} [DecidableEq α] {f : α → Option β} {a a' : α} {b b' : β}
    (h : Function.update f a (some b) a' = some b') :
    a' = a ∧ b' = b ∨ a' ≠ a ∧ f a' = some b' := by
  rw [Function.update_apply] at h
  split at h
  · exact .inl ⟨‹_›, (Option.some.inj h).symm⟩
  · exact .inr ⟨‹_›, h⟩

/-! ## Results reach their own calls -/

/-- What is logged of a call. -/
def delivered (k : ℕ) (c : Call ρ) : List (Delivery ρ) :=
  c.answer.toList.map (fun decoded => ⟨k, c.id, c.msgCode, decoded⟩)

/-- **The invariant of the answers**: whoever listens was not answered yet,
nor is one whose result `Serve` has, and what a call was given is what was
logged for it. -/
structure Answers (s : Connection ρ) : Prop where
  listens : ∀ id k, s.pendings id = some k → ∃ c, s.calls k = some c ∧ c.id = id ∧ c.answer = none
  serves : ∀ d, s.serving = some d → ∃ c, s.calls d.call = some c ∧ c.id = d.id ∧ c.answer = none
  apart : ∀ d, s.serving = some d → ∀ id, s.pendings id ≠ some d.call
  logged : ∀ k, s.log.filter (·.call = k) = (s.calls k).elim [] (delivered k)

section Invariants

variable {ok : Connection ρ → UInt32 → Prop} {s s' : Connection ρ}

theorem of_erase {id id' : UInt32} {k : ℕ} (h : Function.update s.pendings id none id' = some k) :
    id' ≠ id ∧ s.pendings id' = some k := by
  rw [Function.update_apply] at h
  split at h
  · cases h
  · exact ⟨‹_›, h⟩

theorem Answers.erase (h : s.Answers) (id : UInt32) :
    Answers { s with pendings := Function.update s.pendings id none } :=
  ⟨fun id' k' hk' => h.listens id' k' (of_erase hk').2, h.serves,
    fun d hd id' hk' => h.apart d hd id' (of_erase hk').2, h.logged⟩

/-- A call moves on. -/
theorem Answers.move (h : s.Answers) {k : ℕ} {c : Call ρ} (made : s.calls k = some c)
    (phase : CallPhase) : Answers
      { s with calls := Function.update s.calls k (some { c with phase }) } := by
  have hmade : ∀ {k' id}, (∃ c', s.calls k' = some c' ∧ c'.id = id ∧ c'.answer = none) →
      ∃ c', Function.update s.calls k (some { c with phase }) k' = some c' ∧ c'.id = id
        ∧ c'.answer = none := by
    rintro k' id ⟨c', hc', hfacts⟩
    by_cases hkk : k' = k
    · subst hkk
      obtain rfl := Option.some.inj (made.symm.trans hc')
      exact ⟨_, Function.update_self .., hfacts⟩
    · exact ⟨c', (Function.update_of_ne hkk ..).trans hc', hfacts⟩
  refine ⟨fun id' k' hk' => hmade (h.listens id' k' hk'), fun d hd => hmade (h.serves d hd),
    h.apart, fun k' => ?_⟩
  rw [h.logged k']
  by_cases hkk : k' = k
  · subst hkk
    simp [made, delivered]
  · simp [Function.update_of_ne hkk]

theorem Answers.step (h : s.Answers) (hstep : Step ok s s') : s'.Answers := by
  cases hstep with
  | close => exact { h with }
  | select made => exact h.move made _
  | finalize made => exact (h.erase _).move made _
  | take d serves reads pending =>
    obtain ⟨c, hc, hid, hanswer⟩ := h.listens _ _ pending
    refine ⟨fun id' k' hk' => h.listens id' k' (of_erase hk').2, fun d' hd' => ?_,
      fun d' hd' id' hk' => ?_, h.logged⟩
    · obtain rfl := Option.some.inj hd'
      exact ⟨c, hc, hid, hanswer⟩
    · obtain rfl := Option.some.inj hd'
      -- another identifier leads to another call
      obtain ⟨hne, hk'⟩ := of_erase hk'
      obtain ⟨c', hc', hid', -⟩ := h.listens id' _ hk'
      obtain rfl := Option.some.inj (hc.symm.trans hc')
      exact hne (hid'.symm.trans hid)
  | @call id k msgCode isNew =>
    have hne : ∀ {k' c'}, s.calls k' = some c' → k' ≠ k := by
      rintro k' c' hc' rfl
      cases isNew.symm.trans hc'
    refine ⟨fun id' k' hk' => ?_, fun d hd => ?_, fun d hd id' hk' => ?_, fun k' => ?_⟩
    · rcases cases_of_update hk' with ⟨rfl, rfl⟩ | ⟨-, hk'⟩
      · exact ⟨_, Function.update_self .., rfl, rfl⟩
      · obtain ⟨c, hc, hfacts⟩ := h.listens id' k' hk'
        exact ⟨c, (Function.update_of_ne (hne hc) ..).trans hc, hfacts⟩
    · obtain ⟨c, hc, hfacts⟩ := h.serves d hd
      exact ⟨c, (Function.update_of_ne (hne hc) ..).trans hc, hfacts⟩
    · obtain ⟨c, hc, -⟩ := h.serves d hd
      rcases cases_of_update hk' with ⟨-, heq⟩ | ⟨-, hk'⟩
      · exact hne hc heq
      · exact h.apart d hd id' hk'
    · by_cases hkk : k' = k
      · subst hkk
        simp [h.logged, isNew, delivered]
      · simp [h.logged, Function.update_of_ne hkk]
  | @deliver d c serving made =>
    obtain ⟨c', hc', hid, hanswer⟩ := h.serves d serving
    obtain rfl := Option.some.inj (made.symm.trans hc')
    unfold Connection.deliver
    split
    · exact ⟨h.listens, fun _ hd => (by cases hd), fun _ hd => (by cases hd), h.logged⟩
    rename_i hcode
    refine ⟨fun id' k' hk' => ?_, fun _ hd => (by cases hd), fun _ hd => (by cases hd),
      fun k' => ?_⟩
    · obtain ⟨c', hc', hfacts⟩ := h.listens id' k' hk'
      have hkk : k' ≠ d.call := fun heq => h.apart d serving id' (heq ▸ hk')
      exact ⟨c', (Function.update_of_ne hkk ..).trans hc', hfacts⟩
    · dsimp only
      rw [List.filter_append, h.logged]
      by_cases hkk : k' = d.call
      · subst hkk
        simp [made, delivered, hanswer, hid, not_ne_iff.mp hcode]
      · simp [Function.update_of_ne hkk, Ne.symm hkk]

theorem Answers.of_run (hrun : Run ok new s) : s.Answers := by
  induction hrun with
  | refl =>
    exact ⟨fun _ _ h => (by cases h), fun _ h => (by cases h), fun _ h => (by cases h),
      fun _ => rfl⟩
  | tail _ hstep ih => exact ih.step hstep

end Invariants

/-! ## Calls that wait are registered -/

/-- No call that has not returned has the identifier. -/
def Unused (s : Connection ρ) (id : UInt32) : Prop :=
  ∀ k c, s.calls k = some c → c.phase ≠ .returned → c.id ≠ id

/-- The call is registered, or `Serve` has its result, or has returned. -/
def Attended (s : Connection ρ) (k : ℕ) (c : Call ρ) : Prop :=
  s.pendings c.id = some k ∨ (∃ d, s.serving = some d ∧ d.call = k) ∨ s.done = true

/-- **The invariant of the listeners**, with identifiers that are not used
twice at a time. -/
structure Registered (s : Connection ρ) : Prop where
  distinct : ∀ j k c d, s.calls j = some c → s.calls k = some d → c.phase ≠ .returned →
    d.phase ≠ .returned → c.id = d.id → j = k
  attended : ∀ k c, s.calls k = some c → c.phase = .waiting → c.answer = none → s.Attended k c

section Registered

variable {s s' : Connection ρ}

theorem ne_returned {c : Call ρ} (h : c.phase = .waiting) : c.phase ≠ .returned := by
  rw [h]
  exact fun heq => by cases heq

/-- A call that goes on under its identifier leaves the others alone. -/
theorem Registered.distinct_update (h : s.Registered) {k : ℕ} {c c' : Call ρ}
    (made : s.calls k = some c) (hid : c'.id = c.id)
    (hactive : c'.phase ≠ .returned → c.phase ≠ .returned) (i j : ℕ) (a b : Call ρ)
    (ha : Function.update s.calls k (some c') i = some a)
    (hb : Function.update s.calls k (some c') j = some b) (hai : a.phase ≠ .returned)
    (hbi : b.phase ≠ .returned) (heq : a.id = b.id) : i = j := by
  have hback : ∀ n d, Function.update s.calls k (some c') n = some d → d.phase ≠ .returned →
      ∃ d', s.calls n = some d' ∧ d'.phase ≠ .returned ∧ d'.id = d.id := by
    intro n d hd hdi
    rcases cases_of_update hd with ⟨rfl, rfl⟩ | ⟨-, hd⟩
    · exact ⟨c, made, hactive hdi, hid.symm⟩
    · exact ⟨d, hd, hdi, rfl⟩
  obtain ⟨a', ha', hai', haid⟩ := hback i a ha hai
  obtain ⟨b', hb', hbi', hbid⟩ := hback j b hb hbi
  exact h.distinct i j a' b' ha' hb' hai' hbi' (haid.trans (heq.trans hbid.symm))

theorem Registered.step (h : s.Registered) (hstep : Step Unused s s') : s'.Registered := by
  cases hstep with
  | close => exact ⟨h.distinct, fun _ _ _ _ _ => .inr (.inr rfl)⟩
  | @call id k msgCode isNew nonzero free drawn =>
    refine ⟨fun i j a b ha hb hai hbi heq => ?_, fun k' c hc hwaits hanswer => ?_⟩
    · rcases cases_of_update ha with ⟨rfl, rfl⟩ | ⟨-, ha'⟩ <;>
        rcases cases_of_update hb with ⟨rfl, rfl⟩ | ⟨-, hb'⟩
      · rfl
      · exact absurd heq.symm (drawn j b hb' hbi)
      · exact absurd heq (drawn i a ha' hai)
      · exact h.distinct i j a b ha' hb' hai hbi heq
    · rcases cases_of_update hc with ⟨rfl, rfl⟩ | ⟨-, hc⟩
      · exact .inl (Function.update_self ..)
      · have hne := drawn k' c hc (ne_returned hwaits)
        exact (h.attended k' c hc hwaits hanswer).imp_left (Function.update_of_ne hne ..).trans
  | take d serves reads pending =>
    refine ⟨h.distinct, fun k' c' hc' hwaits hanswer => ?_⟩
    rcases h.attended k' c' hc' hwaits hanswer with hpending | ⟨d', hd', -⟩ | hdone
    · by_cases hid : c'.id = d.id
      · exact .inr (.inl ⟨d, rfl, Option.some.inj (pending.symm.trans (hid ▸ hpending))⟩)
      · exact .inl ((Function.update_of_ne hid ..).trans hpending)
    · cases reads.symm.trans hd'
    · exact .inr (.inr hdone)
  | @deliver d c serving made =>
    unfold Connection.deliver
    split
    · exact ⟨h.distinct, fun _ _ _ _ _ => .inr (.inr rfl)⟩
    refine ⟨h.distinct_update made rfl fun hactive => hactive, fun k' c' hc' hwaits hanswer => ?_⟩
    rcases cases_of_update hc' with ⟨rfl, rfl⟩ | ⟨hne, hc'⟩
    · cases hanswer
    rcases h.attended k' c' hc' hwaits hanswer with hpending | ⟨d', hd', hcall⟩ | hdone
    · exact .inl hpending
    · obtain rfl := Option.some.inj (serving.symm.trans hd')
      exact absurd hcall.symm hne
    · exact .inr (.inr (by simp [hdone]))
  | @select k c made waits =>
    refine ⟨h.distinct_update made rfl fun _ => ne_returned waits, fun k' c' hc' hwaits => ?_⟩
    rcases cases_of_update hc' with ⟨rfl, rfl⟩ | ⟨-, hc'⟩
    · cases hwaits
    · exact h.attended k' c' hc' hwaits
  | @finalize k c made returns =>
    have hactive : c.phase ≠ .returned := by simp [returns]
    refine ⟨h.distinct_update made rfl fun _ => hactive, fun k' c' hc' hwaits hanswer => ?_⟩
    rcases cases_of_update hc' with ⟨rfl, rfl⟩ | ⟨hne, hc'⟩
    · cases hwaits
    · have hid : c'.id ≠ c.id := fun heq =>
        hne (h.distinct k' k c' c hc' made (ne_returned hwaits) hactive heq)
      exact (h.attended k' c' hc' hwaits hanswer).imp_left (Function.update_of_ne hid ..).trans

end Registered

end Connection

/-! ## Results -/

open Connection

variable {ρ : Type}

/-- **A result reaches only the call that asked for it, and once.** Whatever
the peer sends, whichever identifiers are drawn and in whatever order calls
end: what `Serve` has given to a call is what that call was given, under its
own identifier and of its own kind, and at most once. A call whose result
`Serve` has in hand was not answered, so `Serve` finds room in its channel. -/
theorem results_reach_their_calls {ok : Connection ρ → UInt32 → Prop} {s : Connection ρ}
    (hrun : Connection.Run ok new s) :
    (∀ k, s.log.filter (·.call = k) = (s.calls k).elim [] (delivered k))
      ∧ ∀ d, s.serving = some d → ∃ c, s.calls d.call = some c ∧ c.id = d.id ∧ c.answer = none :=
  have h := Answers.of_run hrun
  ⟨h.logged, h.serves⟩

/-- A connection with a call and its result. -/
def Connection.called : Connection Unit where
  pendings := Function.update (Function.update (fun _ => none) 7 (some 0)) 7 none
  calls := Function.update (fun _ => none) 0 (some ⟨7, 1, none, .waiting⟩)
  serving := some ⟨0, 7, 1, some ()⟩
  done := false
  log := []

theorem Connection.run_called : Connection.Run Unused new called :=
  .tail (.single (.call 1 rfl (by decide) rfl fun _ _ hc => by cases hc))
    (.take ⟨0, 7, 1, some ()⟩ rfl rfl rfl)

/-- The call has got its result. -/
def Connection.answered : Connection Unit :=
  called.deliver ⟨0, 7, 1, some ()⟩ ⟨7, 1, none, .waiting⟩

/-- The call was not answered before, and is answered once. -/
theorem Connection.called_answered :
    (∃ c, called.calls 0 = some c ∧ c.id = 7 ∧ c.answer = none)
      ∧ answered.log ≠ []
      ∧ ∀ k, answered.log.filter (·.call = k) = (answered.calls k).elim [] (delivered k) :=
  ⟨(results_reach_their_calls run_called).2 ⟨0, 7, 1, some ()⟩ rfl, by decide,
    (results_reach_their_calls (run_called.tail (.deliver rfl rfl))).1⟩

/-- **A call that waits is registered**, or `Serve` has its result or is done,
if no identifier is drawn that a call which has not returned yet still has.
Without that, a call loses its listener when the other one returns. -/
theorem waiting_call_is_attended {s : Connection ρ} (hrun : Connection.Run Unused new s) {k : ℕ}
    {c : Call ρ} (hc : s.calls k = some c) (hwaits : c.phase = .waiting)
    (hanswer : c.answer = none) : s.Attended k c := by
  have h : s.Registered := by
    clear hc
    induction hrun with
    | refl => exact ⟨fun _ _ _ _ hc => (by cases hc), fun _ _ hc => (by cases hc)⟩
    | tail _ hstep ih => exact ih.step hstep
  exact h.attended k c hc hwaits hanswer

/-- `Serve` has the result of the call. -/
theorem Connection.called_is_attended : called.Attended 0 ⟨7, 1, none, .waiting⟩ :=
  waiting_call_is_attended run_called rfl rfl rfl

/-- The identifier of a call that has its result is drawn again, and then that
call returns: nobody attends to the second one. -/
theorem Connection.exists_unattended : ∃ s : Connection Unit,
    Connection.Run (fun _ _ => True) new s ∧ s.calls 1 = some ⟨7, 1, none, .waiting⟩
      ∧ ¬ s.Attended 1 ⟨7, 1, none, .waiting⟩ := by
  have hcalled : Connection.Run (fun _ _ => True) new called :=
    .tail (.single (.call 1 rfl (by decide) rfl trivial)) (.take ⟨0, 7, 1, some ()⟩ rfl rfl rfl)
  refine ⟨_, .tail (.tail (.tail (.tail hcalled (.deliver rfl rfl))
    (@Step.call _ _ _ 7 1 1 rfl (by decide) rfl trivial)) (@Step.select _ _ _ 0 _ rfl rfl))
    (@Step.finalize _ _ _ 0 _ rfl rfl), rfl, ?_⟩
  rintro (hpending | ⟨d, hd, -⟩ | hdone)
  · cases hpending
  · cases hd
  · cases hdone

end LoragonBFT
