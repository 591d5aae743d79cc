import LoragonBFT.Testnet

/-!
# Whose proposals are voted for

A proposal names its proposer inside the block, and `AddIncoming` verifies
the message's signature with the key at that place of the committee. That is
all that ties a proposal to a validator: neither `AddIncoming` nor
`OnReceiveProposal` compares the proposer with the one `getRoundProposer`
names for the round, so every committee member may propose in every round.

The message a node handles left the queue, and a message reaches the queue
through `AddIncoming`, if not directly then by being put back or by waiting
for its epoch. `AddIncoming` reads the epoch before it verifies the signature,
and again before it queues the message. If the epoch is the same both times, a
member of the committee signed what is voted for. A message of the next epoch
is not verified, and is queued if the epoch changes between the two.
-/

namespace LoragonBFT

variable {E : Env} {p₀ : Pacemaker}

/-- Every run. -/
abbrev Runs (E : Env) : Pacemaker → Pacemaker → Prop := Run E (fun _ _ => True)

/-- `AddIncoming` checked the message at some earlier state of the run. -/
def CheckedEarlier (E : Env) (p₀ p : Pacemaker) (m : ConsensusMessage) : Prop :=
  ∃ q, Runs E p₀ q ∧ Runs E q p ∧ Checked E q.epochState m

/-- And at a later one it found the message to be of the epoch the node was
in by then. -/
def AdmittedEarlier (E : Env) (p₀ p : Pacemaker) (m : ConsensusMessage) : Prop :=
  ∃ q, CheckedEarlier E p₀ q m ∧ Runs E q p ∧ m.getEpoch = q.epochState.epoch

/-- What is queued was let in, and what was voted for was queued. -/
structure Authentic (checked good : ConsensusMessage → Prop) (c : Core) : Prop where
  admitting : ∀ mi ∈ c.admitting, checked mi.msg
  queued : ∀ mi ∈ c.inQueue, good mi.msg
  delayed : ∀ mi ∈ c.delayed, good mi.msg
  voted : ∀ d v, Event.voted d v ∈ c.trace → ∃ msg, d.msg = some msg
    ∧ msg.decodedBlock = some d.proposedBlock ∧ good (.proposal msg)

variable {checked good : ConsensusMessage → Prop}

theorem Authentic.mono {checked' good' : ConsensusMessage → Prop} {c : Core}
    (h : Authentic checked good c) (hchecked : ∀ m, checked m → checked' m)
    (himp : ∀ m, good m → good' m) : Authentic checked' good' c where
  admitting mi hmi := hchecked _ (h.admitting mi hmi)
  queued mi hmi := himp _ (h.queued mi hmi)
  delayed mi hmi := himp _ (h.delayed mi hmi)
  voted d v hv := by
    obtain ⟨msg, hmsg, hblk, hgood⟩ := h.voted d v hv
    exact ⟨msg, hmsg, hblk, himp _ hgood⟩

/-- An action that lets nothing into the queues and votes for nothing. -/
theorem Authentic.frame {c c' : Core} (h : Authentic checked good c)
    (hadmitting : ∀ mi ∈ c'.admitting, mi ∈ c.admitting)
    (hqueue : ∀ mi ∈ c'.inQueue, mi ∈ c.inQueue ∨ mi ∈ c.delayed)
    (hdelayed : ∀ mi ∈ c'.delayed, mi ∈ c.delayed)
    (hvoted : ∀ d v, Event.voted d v ∈ c'.trace → Event.voted d v ∈ c.trace) :
    Authentic checked good c' where
  admitting mi hmi := h.admitting mi (hadmitting mi hmi)
  queued mi hmi := (hqueue mi hmi).elim (h.queued mi) (h.delayed mi)
  delayed mi hmi := h.delayed mi (hdelayed mi hmi)
  voted d v hv := h.voted d v (hvoted d v hv)

/-- **A step keeps the queues authentic**, if what it checks and what it lets
in is good. -/
theorem Authentic.step {s : Pacemaker} {i : Input} {c c' : Core} (hstep : CoreStep E s i c c')
    (hchecked : ∀ m, Checked E s.epochState m → checked m)
    (hgood : ∀ m, checked m → m.getEpoch = s.epochState.epoch → good m)
    (hstart : Authentic checked good s.core) (h : Authentic checked good c) :
    Authentic checked good c' := by
  have hhandled : ∀ m, s.Handles i m → good m := by
    rintro m ⟨-, mi, rest, hqueue, rfl⟩
    refine hstart.queued mi ?_
    show mi ∈ s.inQueue
    rw [hqueue]
    exact List.mem_cons_self
  cases hstep with
  | dequeue mi rest hhead =>
    exact h.frame (fun _ => id) (fun mi' hmi => .inl (hhead ▸ List.mem_cons_of_mem _ hmi))
      (fun _ => id) (fun _ _ => id)
  | putBack mi hhandles =>
    refine ⟨h.admitting, h.queued, fun mi' hmi => ?_, h.voted⟩
    rcases List.mem_append.mp hmi with hold | hnew
    · exact h.delayed mi' hold
    · rw [List.mem_singleton.mp hnew]
      exact hhandled _ hhandles
  | redeliver k mi hdue =>
    refine h.frame (fun _ => id) (fun mi' hmi => ?_) (fun mi' hmi => List.mem_of_mem_eraseIdx hmi)
      (fun _ _ => id)
    rcases mem_of_mem_pushQueue hmi with hold | rfl
    · exact .inl hold
    · exact .inr (List.mem_of_getElem? hdue)
  | check mi _ hmi =>
    refine ⟨fun mi' hmem => ?_, h.queued, h.delayed, h.voted⟩
    rcases List.mem_append.mp hmem with hold | hnew
    · exact h.admitting mi' hold
    · rw [List.mem_singleton.mp hnew]
      exact hchecked _ hmi
  | enter k =>
    exact h.frame (fun _ hmi => List.mem_of_mem_eraseIdx hmi) (fun _ => .inl) (fun _ => id)
      (fun _ _ => id)
  | enqueue mi hmi hcurrent =>
    refine ⟨h.admitting, fun mi' hmem => ?_, h.delayed, h.voted⟩
    rcases mem_of_mem_pushQueue hmem with hold | rfl
    · exact h.queued mi' hold
    · exact hgood _ (hstart.admitting _ hmi) hcurrent
  | vote msg blk parent bnew v haccepted =>
    refine ⟨h.admitting, h.queued, h.delayed, fun d v' hv => ?_⟩
    rcases List.mem_append.mp hv with hold | hnew
    · exact h.voted d v' hold
    · obtain ⟨rfl, rfl⟩ := Event.voted.inj (List.mem_singleton.mp hnew)
      obtain ⟨ref, hbnew⟩ := haccepted.bnew_eq
      exact ⟨msg, by rw [hbnew]; rfl, by rw [hbnew]; exact haccepted.decoded,
        hhandled _ haccepted.handles⟩
  | record e hquiet =>
    refine h.frame (fun _ => id) (fun _ => .inl) (fun _ => id) (fun d v hv => ?_)
    rcases List.mem_append.mp hv with hold | hnew
    · exact hold
    · rw [← List.mem_singleton.mp hnew] at hquiet
      exact nomatch hquiet
  | sendVote | commitList | propose =>
    exact h.frame (fun _ => id) (fun _ => .inl) (fun _ => id) (fun d v hv => by simpa using hv)
  | _ => exact h.frame (fun _ => id) (fun _ => .inl) (fun _ => id) (fun _ _ => id)

/-- **In every state a run reaches, what was voted for was let in before.** -/
theorem Authentic.run {p : Pacemaker} (hrun : Runs E p₀ p)
    (h₀ : Authentic (CheckedEarlier E p₀ p₀) (AdmittedEarlier E p₀ p₀) p₀.core) :
    Authentic (CheckedEarlier E p₀ p) (AdmittedEarlier E p₀ p) p.core := by
  induction hrun with
  | refl => exact h₀
  | @tail q p hq hlast ih =>
    obtain ⟨i, -, rfl⟩ := hlast
    have hsteps : Runs E q (q.step E i) := .single ⟨i, trivial, rfl⟩
    -- what a step queues was checked before it, so the check is looked for in the run up to `q`
    have hmono : Authentic (CheckedEarlier E p₀ q) (AdmittedEarlier E p₀ (q.step E i)) q.core := by
      refine ih.mono (fun _ => id) ?_
      rintro m ⟨r, hr, hrq, hepoch⟩
      exact ⟨r, hr, hrq.trans hsteps, hepoch⟩
    have hafter : Authentic (CheckedEarlier E p₀ q) (AdmittedEarlier E p₀ (q.step E i))
        (q.step E i).core :=
      q.step_invariant E i hmono fun c c' hstep _ hc =>
        Authentic.step hstep (fun m hchecked => ⟨q, hq, .refl, hchecked⟩)
          (fun m hchecked hepoch => ⟨q, hchecked, hsteps, hepoch⟩) hmono hc
    refine hafter.mono ?_ (fun _ => id)
    rintro m ⟨r, hr, hrq, hchecked⟩
    exact ⟨r, hr, hrq.trans hsteps, hchecked⟩

/-- A vote that passes the test is in the trace. -/
def anyVote (test : DraftBlock → Bool) (trace : List Event) : Bool :=
  trace.any (fun e => match e with | .voted d _ => test d | _ => false)

theorem exists_of_anyVote {test : DraftBlock → Bool} {trace : List Event}
    (h : anyVote test trace = true) : ∃ d v, Event.voted d v ∈ trace ∧ test d = true := by
  obtain ⟨e, hmem, htest⟩ := List.any_eq_true.mp h
  cases e with
  | voted d v => exact ⟨d, v, hmem, htest⟩
  | _ => exact nomatch htest

end LoragonBFT
