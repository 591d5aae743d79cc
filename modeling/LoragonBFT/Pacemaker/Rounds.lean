import LoragonBFT.DraftMap
import LoragonBFT.Pacemaker.Marks
import LoragonBFT.Pacemaker.Votes

/-!
# The current round and the highest certificate

The current round is documented as one more than the round of the highest
certificate, or of the highest timeout. It goes up with `enterRound`, which
four handlers call with the round after the one they were told about, and the
highest certificate is replaced by three handlers. Only one of them does both
every time: a vote that completes a certificate takes the node to the round
after it. A proposal does when it is voted for, and a timeout message enters
no round at all, although it may bring a certificate of any round.

Between two calls of `Regulate` the round goes up as long as the round after
the one at hand exists – at the last round of `uint32` it is round zero, which
`enterRound` never skips – and it stays past the highest certificate as long as
the certificates that proposals and timeout messages bring are of earlier
rounds (`roundsHeld_of_certificatesPast`).
-/

namespace LoragonBFT

open EStateM

variable {E : Env} {s : Pacemaker} {i : Input}

/-- Two certificates of votes for one block in one round, whoever signed
them. -/
def QuorumCert.SameVote (qc qc' : QuorumCert) : Prop :=
  qc.blockID = qc'.blockID ∧ qc.round = qc'.round

instance (qc qc' : QuorumCert) : Decidable (qc.SameVote qc') :=
  inferInstanceAs (Decidable (_ ∧ _))

namespace Pacemaker

/-- The current round is later than that of the highest certificate. -/
def PastQCHigh (p : Pacemaker) : Prop := p.qcHigh.qc.round.toNat + 1 ≤ p.currentRound.toNat

instance (p : Pacemaker) : Decidable p.PastQCHigh := inferInstanceAs (Decidable (_ ≤ _))

/-- **The epoch has just started at round zero**: the `Regulate` that left
`p₀` behind started from the last block of an epoch, and the highest
certificate is still one of that block. -/
def EpochJustStarted (p₀ p : Pacemaker) : Prop :=
  p₀.lastCommitted.isKBlock = true ∧ p.qcHigh.qc.SameVote p₀.qcHigh.qc

end Pacemaker

/-- A step that calls no `Regulate`. -/
def NoRegulate (_ : Pacemaker) (i : Input) : Prop := i ≠ .loop .cmd

/-- The certificate is of a round that is over, or as good as the highest
one. -/
def Pacemaker.Past (p : Pacemaker) (qc : QuorumCert) : Prop :=
  qc.SameVote p.qcHigh.qc ∨ qc.round < p.currentRound

instance (p : Pacemaker) (qc : QuorumCert) : Decidable (p.Past qc) :=
  inferInstanceAs (Decidable (_ ∨ _))

/-- What a step needs for the bookkeeping to hold: the round after the one at
hand exists, and the certificates a proposal or a timeout message brings are
of rounds that are over. The last vote in a timeout message brings one if it
completes it. -/
structure CertificatesPast (E : Env) (p : Pacemaker) (i : Input) : Prop where
  proposal : ∀ msg, p.Handles i (.proposal msg) → msg.round + 1 ≠ 0
  carried : ∀ msg blk, p.Handles i (.proposal msg) → msg.decodedBlock = some blk → p.Past blk.qc
  vote : ∀ msg, p.Handles i (.vote msg) → msg.voteRound + 1 ≠ 0
  lastVote : ∀ msg, p.Handles i (.timeout msg) → ∀ qc es,
    p.epochState.addQCVote E.B msg.signerIndex msg.lastVoteRound msg.lastVoteBlockID
      msg.lastVoteSignature = .ok (some qc, es) → p.Past qc
  qcHigh : ∀ msg qc, p.Handles i (.timeout msg) → msg.decodedQCHigh = some qc → p.Past qc
  roundTimeout : ∀ ti rest, i = .loop .roundTimeout → p.roundTimeoutCh = ti :: rest →
    ti.round + 1 ≠ 0

/-! ## The round goes up -/

/-- The round has not gone down, and the node is in the committee if it
was. -/
structure Core.NotBefore (c₀ c : Core) : Prop where
  round_le : c₀.currentRound ≤ c.currentRound
  member_eq : c.epochState.inCommittee = c₀.epochState.inCommittee

/-- **An action of such a step does not lower the round.** -/
theorem Core.NotBefore.step {c₀ c c' : Core} (hok : CertificatesPast E s i)
    (hregulate : NoRegulate s i) (hstep : CoreStep E s i c c') (h : c₀.NotBefore c) :
    c₀.NotBefore c' := by
  cases hstep with
  | countQCVote m signerIndex round blockID sig qc es _ _ hcounted =>
    obtain ⟨m, rfl⟩ := EpochState.addQCVote_eq hcounted
    exact ⟨h.round_le, h.member_eq⟩
  | countTCVote signerIndex round sig hash tc es hcounted =>
    obtain ⟨m, rfl⟩ := EpochState.addTCVote_eq hcounted
    exact ⟨h.round_le, h.member_eq⟩
  | sendVote msg v hhandles hround hmember hsame =>
    refine ⟨UInt32.le_trans h.round_le ?_, h.member_eq⟩
    show c.currentRound ≤ if _ then _ else _
    split
    · exact UInt32.le_refl _
    · rename_i hlower
      rw [Bool.and_eq_true, decide_eq_true_iff, decide_eq_true_iff, not_and, UInt32.not_lt]
        at hlower
      exact hlower (UInt32.pos_iff_ne_zero.mpr (hok.proposal msg hhandles))
  | enterRound round hsource hlater hmember =>
    have hne : round ≠ 0 := by
      rcases hsource with ⟨msg, hhandles, rfl⟩ | ⟨ti, rest, hinput, hhead, rfl⟩
      · exact hok.vote msg hhandles
      · exact hok.roundTimeout ti rest hinput hhead
    exact ⟨UInt32.le_trans h.round_le (hlater (UInt32.pos_iff_ne_zero.mpr hne)), h.member_eq⟩
  | regulate bestNode es hcmd => exact absurd hcmd hregulate
  | _ => exact ⟨h.round_le, h.member_eq⟩

/-- **A step does not lower the round.** -/
theorem Pacemaker.step_notBefore (hok : CertificatesPast E s i) (hregulate : NoRegulate s i) :
    s.core.NotBefore (s.step E i).core :=
  s.step_invariant E i ⟨UInt32.le_refl _, rfl⟩ fun _ _ hstep _ h => h.step hok hregulate hstep

/-! ## The highest certificate -/

variable {t p : Pacemaker}

section TakesOnly

variable {P : QuorumCert → Prop}

/-- A computation that takes no certificate for the highest one but those
with a property. -/
abbrev TakesOnly (P : QuorumCert → Prop) {α : Type} (x : PM α) : Prop :=
  Preserves (fun p : Pacemaker => P p.qcHigh.qc) x

theorem takesOnly_updateQCHigh {q : DraftQC} (hq : P q.qc) : TakesOnly P (updateQCHigh q) := by
  intro t ht
  refine (updateQCHigh_cases q t).imp (fun _ t' h => ?_) (fun _ h => h.1 ▸ ht)
  rcases h with ⟨-, -, rfl⟩ | ⟨-, -, rfl⟩
  · exact hq
  · exact ht

theorem takesOnly_update {qc : QuorumCert} (hqc : P qc) : TakesOnly P (update E qc) := by
  refine fun t ht => ensures_update qc t ⟨ht, ht⟩ fun bPrime t₁ _ _ h => ?_
  have ht₁ : P t₁.qcHigh.qc := by
    rcases h with ⟨-, rfl⟩ | ⟨-, rfl⟩
    · exact hqc
    · exact ht
  exact ⟨ht₁, ht₁, fun l _ =>
    Preserves.of_keeps (keeps_lead_onCommit l) (fun lead => P lead.qcHigh.qc) t₁ ht₁⟩

theorem takesOnly_collectLastVote {msg : PMTimeoutMessage} (ht : P t.qcHigh.qc)
    (hformed : ∀ qc es, t.epochState.addQCVote E.B msg.signerIndex msg.lastVoteRound
      msg.lastVoteBlockID msg.lastVoteSignature = .ok (some qc, es) → P qc) :
    Ensures (collectLastVote E msg) t (fun _ t' => P t'.qcHigh.qc) (fun t' => P t'.qcHigh.qc) := by
  unfold collectLastVote
  rw [ensures_bind]
  refine (addQCVote_spec _ _ _ _ t).imp (fun r t₁ h => ?_) (fun _ h => h ▸ ht)
  obtain ⟨es, hcount, rfl⟩ := h
  split
  · exact ht
  rename_i newQC
  have hqc : P newQC := hformed newQC es hcount
  have hlookup : TakesOnly P (getDraftByEscortQC newQC) := fun _ h => h
  have hrest : TakesOnly P (do
      let escortQCNode ← getDraftByEscortQC newQC
      let _ ← updateQCHigh ⟨escortQCNode, newQC⟩
      let _ ← update E newQC : PM Unit) :=
    hlookup.bind fun node => (takesOnly_updateQCHigh (q := ⟨node, newQC⟩) hqc).bind fun _ =>
      (takesOnly_update hqc).bind fun _ => Preserves.pure _
  exact hrest { t with epochState := es } ht

/-- **A timeout message brings the certificate its last vote completes and
the one it carries**, and no other. -/
theorem takesOnly_onReceiveTimeout {msg : PMTimeoutMessage} (ht : P t.qcHigh.qc)
    (hformed : ∀ qc es, t.epochState.addQCVote E.B msg.signerIndex msg.lastVoteRound
      msg.lastVoteBlockID msg.lastVoteSignature = .ok (some qc, es) → P qc)
    (hcarried : ∀ qc, msg.decodedQCHigh = some qc → P qc) :
    Ensures (onReceiveTimeout E msg) t (fun _ t' => P t'.qcHigh.qc)
      (fun t' => P t'.qcHigh.qc) := by
  unfold onReceiveTimeout
  simp only [ensures_bind, ensures_get]
  split
  · exact ht
  rw [ensures_bind]
  refine (takesOnly_collectLastVote ht hformed).imp (fun _ t₁ h₁ => ?_) (fun _ h => h)
  simp only [adoptQCHigh, ensures_bind, ensures_ofExcept, ensures_getDraftByEscortQC]
  refine ⟨fun qc hqc => ?_, fun _ _ => h₁⟩
  have hqc' := hcarried qc (eq_some_of_deref hqc)
  have hadopt : TakesOnly P (updateQCHigh ⟨t₁.chain.getDraftByEscortQC qc, qc⟩) :=
    takesOnly_updateQCHigh hqc'
  refine (hadopt t₁.bump h₁).imp (fun _ t₂ h₂ => ?_) (fun _ h => h)
  rw [ensures_pure]
  refine (addTCVote_spec _ _ _ _ t₂).imp (fun r t₃ h => ?_) (fun _ h => h ▸ h₂)
  obtain ⟨es, -, rfl⟩ := h
  split
  · exact h₂
  · exact h₂

end TakesOnly

/-- The round `enterRound` leads a member of the committee to is not before
the one it was asked for. -/
theorem le_entered {round current : UInt32} :
    round ≤ if round > 0 && round < current then current else round := by
  split
  · rename_i hlower
    rw [Bool.and_eq_true, decide_eq_true_iff, decide_eq_true_iff] at hlower
    exact UInt32.le_of_lt hlower.2
  · exact UInt32.le_refl _

/-- **A vote that completes the highest certificate takes the node past
it.** -/
theorem past_of_onReceiveVote (mi : IncomingMsg) {msg : PMVoteMessage}
    (hmember : t.epochState.inCommittee = true) (hround : msg.voteRound + 1 ≠ 0) :
    Ensures (onReceiveVote E mi msg) t
      (fun _ t' => t'.qcHigh.qc = t.qcHigh.qc ∨ t'.PastQCHigh)
      (fun t' => t'.qcHigh.qc = t.qcHigh.qc ∨ t'.PastQCHigh) := by
  have hsame : t.qcHigh.qc = t.qcHigh.qc ∨ t.PastQCHigh := .inl rfl
  unfold onReceiveVote
  simp only [ensures_bind, ensures_get]
  split
  · exact hsame
  split
  · exact hsame
  simp only [ensures_bind, ensures_getDraft]
  split
  · exact .inl rfl
  unfold countVote
  split
  · exact .inl rfl
  rw [ensures_bind]
  refine (addQCVote_spec _ _ _ _ t.bump).imp (fun r t₁ h => ?_) (fun _ h => h ▸ .inl rfl)
  obtain ⟨es, hcount, rfl⟩ := h
  split
  · exact .inl rfl
  rename_i b _ _ qc
  obtain ⟨-, hqc, -⟩ := EpochState.eq_of_addQCVote hcount
  obtain ⟨m, rfl⟩ := EpochState.addQCVote_eq hcount
  rw [ensures_bind]
  refine (updateQCHigh_cases _ _).imp (fun changed t₂ h => ?_) (fun _ h => h.1 ▸ .inl rfl)
  rcases h with ⟨rfl, -, rfl⟩ | ⟨rfl, -, rfl⟩
  · rw [if_pos rfl]
    simp only [scheduleOnBeat, ensures_bind, ensures_get, ensures_modify, ensures_pure]
    refine ((keeps_enterRound _ _ _).and (enterRound_core _ _ _ ?_)).imp
      (fun _ t₃ h => Or.inr ?_) (fun _ h => h.2.elim)
    · exact hmember
    obtain ⟨hsettled, hcore⟩ := h
    have hhigh : t₃.qcHigh.qc = qc := congrArg (fun st : Settled => st.qcHigh.qc) hsettled
    have hentered : t₃.currentRound = _ := congrArg Core.currentRound hcore
    have hlt : qc.round < t₃.currentRound := by
      rw [hqc, hentered]
      exact UInt32.lt_of_lt_of_le (UInt32.lt_succ_of_ne hround) le_entered
    unfold Pacemaker.PastQCHigh
    rw [hhigh]
    exact UInt32.lt_iff_toNat_lt.mp hlt
  · exact .inl rfl

/-! ## A step -/

/-- **An action on the highest certificate**, unless a vote is handled, takes
one of a round that is over. -/
theorem MarkStep.past {m m' : Marks} (hok : CertificatesPast E s i) (hregulate : NoRegulate s i)
    (hvote : ∀ msg, ¬ s.Handles i (.vote msg)) (hstep : MarkStep E s i m m')
    (h : s.Past m.qcHigh.qc) : s.Past m'.qcHigh.qc := by
  cases hstep with
  | vote msg b qc es hhandles => exact absurd hhandles (hvote msg)
  | update m c qc bPrime hsteps hsource =>
    cases hsource with
    | proposal msg blk parent bnew haccepted hqc =>
      have hpast := hok.carried msg blk haccepted.handles haccepted.decoded
      rwa [hqc] at hpast
    | timeout msg hhandles hformed => exact hok.lastVote msg hhandles qc _ hformed
  | lastVote msg node qc es hhandles hformed => exact hok.lastVote msg hhandles qc es hformed
  | timeout m msg node qc c hhandles hcarried => exact hok.qcHigh msg qc hhandles hcarried
  | commit => exact h
  | sync => exact h
  | regulate bestNode hcmd => exact absurd hcmd hregulate

theorem MarkSteps.past (hok : CertificatesPast E s i) (hregulate : NoRegulate s i)
    (hvote : ∀ msg, ¬ s.Handles i (.vote msg)) (hsteps : MarkSteps E s i s.marks t.marks) :
    s.Past t.qcHigh.qc := by
  have hgeneral : ∀ m, MarkSteps E s i s.marks m → s.Past m.qcHigh.qc := by
    intro m hm
    induction hm with
    | refl => exact .inl ⟨rfl, rfl⟩
    | tail _ hlast ih => exact hlast.past hok hregulate hvote ih
  exact hgeneral t.marks hsteps

/-- **What a step does to the highest certificate**: it takes one of a round
that was over before the step or is over after it, if any. -/
theorem Pacemaker.step_qcHigh (hok : CertificatesPast E s i) (hregulate : NoRegulate s i)
    (hmember : s.epochState.inCommittee = true) :
    s.Past (s.step E i).qcHigh.qc ∨ (s.step E i).PastQCHigh := by
  have hsame : ∀ t : Pacemaker, t.qcHigh = s.qcHigh → s.Past t.qcHigh.qc ∨ t.PastQCHigh := by
    intro t ht
    rw [ht]
    exact .inl (.inl ⟨rfl, rfl⟩)
  refine Outcomes.step (f := Settled.toStanding) (Q := fun t => s.Past t.qcHigh.qc ∨ t.PastQCHigh)
    ⟨?_, ?_, ?_, ?_, ?_, ?_, ?_, ?_⟩
  · exact fun t ht => hsame t (congrArg (fun st : Standing => st.qcHigh) ht)
  · exact fun t fault h => h
  · intro mi rest cmdCh msg htakes hmsg
    have hhandles := htakes.handles hmsg
    have hvote : ∀ v, ¬ s.Handles i (.vote v) := fun v hv => nomatch hhandles.unique hv
    have hmarked := (onReceiveProposal_marks (E := E) mi msg (s.taking cmdCh rest)
      (.single (.dequeue s.core mi rest htakes.queue)) hmsg hhandles ⟨⟨_, rfl⟩, rfl, rfl⟩).exec
    exact .inl (MarkSteps.past hok hregulate hvote hmarked)
  · intro mi rest cmdCh msg htakes hmsg
    have hpast := (past_of_onReceiveVote (E := E) mi (t := s.taking cmdCh rest) hmember
      (hok.vote msg (htakes.handles hmsg))).exec
    rcases hpast with hkept | hentered
    · refine .inl (.inl ?_)
      rw [hkept]
      exact ⟨rfl, rfl⟩
    · exact .inr hentered
  · intro mi rest cmdCh msg htakes hmsg
    have hhandles := htakes.handles hmsg
    exact .inl (takesOnly_onReceiveTimeout (P := s.Past) (t := s.taking cmdCh rest)
      (.inl ⟨rfl, rfl⟩) (hok.lastVote msg hhandles) (fun qc => hok.qcHigh msg qc hhandles)).exec
  · intro b cmdCh _ _
    have hbeat := (keeps_onBeat (E := E) b.epoch b.round).comp (fun st => st.1)
    exact hsame _ (Ensures.exec (hbeat (s.beating cmdCh)))
  · exact fun hcmd => absurd hcmd hregulate
  · intro blk qc hsync
    have hvote : ∀ v, ¬ s.Handles i (.vote v) := by
      intro v hv
      rw [hsync] at hv
      exact nomatch hv.1
    have hmarked : MarkSteps E s i s.marks ((processBlock E blk qc).exec s).marks :=
      (processBlock_marks blk qc s hsync).exec
    exact .inl (MarkSteps.past hok hregulate hvote hmarked)

/-! ## Between two calls of Regulate -/

/-- What holds of a state `p'` reached from `p` between two calls of
`Regulate`, the first of which left `p₀` behind: the round has not gone down,
and at a member of the committee it is past the highest certificate. -/
structure RoundsHeld (p₀ p p' : Pacemaker) : Prop where
  round_le : p.currentRound ≤ p'.currentRound
  past : p₀.epochState.inCommittee = true → p'.PastQCHigh ∨ Pacemaker.EpochJustStarted p₀ p'

theorem QuorumCert.SameVote.trans {qc qc' qc'' : QuorumCert} (h : qc.SameVote qc')
    (h' : qc'.SameVote qc'') : qc.SameVote qc'' := ⟨h.1.trans h'.1, h.2.trans h'.2⟩

/-- A certificate that was past is past later. -/
theorem Pacemaker.PastQCHigh.of_past {p' : Pacemaker} (h : p.PastQCHigh)
    (hpast : p.Past p'.qcHigh.qc) (hle : p.currentRound ≤ p'.currentRound) : p'.PastQCHigh := by
  have hle' := UInt32.le_iff_toNat_le.mp hle
  unfold Pacemaker.PastQCHigh at h ⊢
  rcases hpast with ⟨-, hround⟩ | hlt
  · rw [hround]
    exact h.trans hle'
  · have hlt' := UInt32.lt_iff_toNat_lt.mp hlt
    omega

/-- **One step between two calls of `Regulate`.** -/
theorem RoundsHeld.step {p₀ : Pacemaker} (hok : CertificatesPast E s i) (hregulate : NoRegulate s i)
    (hmember : s.epochState.inCommittee = p₀.epochState.inCommittee) (h : RoundsHeld p₀ p s) :
    RoundsHeld p₀ p (s.step E i) := by
  have hbefore := Pacemaker.step_notBefore hok hregulate
  refine ⟨UInt32.le_trans h.round_le hbefore.round_le, fun hin => ?_⟩
  rcases Pacemaker.step_qcHigh hok hregulate (hmember.trans hin) with hpast | hpast
  · rcases h.past hin with hold | ⟨hkblock, hsame⟩
    · exact .inl (hold.of_past hpast hbefore.round_le)
    · rcases hpast with hsame' | hlt
      · exact .inr ⟨hkblock, hsame'.trans hsame⟩
      · have hlt' := UInt32.lt_of_lt_of_le hlt hbefore.round_le
        exact .inl (UInt32.lt_iff_toNat_lt.mp hlt')
  · exact .inl hpast

/-- **What `Regulate` starts from**: the round after the certificate it takes
for the highest one, or round zero of a new epoch. -/
theorem RoundsHeld.of_regulate {q p₀ : Pacemaker} (hregulate : regulate E q = .ok () p₀)
    (hround : q.chain.bestBlock.isKBlock = true ∨ q.regulateRound ≠ 0) : RoundsHeld p₀ p₀ p₀ := by
  refine ⟨UInt32.le_refl _, fun hin => ?_⟩
  obtain ⟨bestNode, es, -, -, hsettled⟩ := (regulate_settled (E := E) q).of_ok hregulate
  obtain ⟨bestNode', es', -, -, hcore⟩ := (regulate_core (E := E) q).of_ok hregulate
  have hhigh : p₀.qcHigh.qc = q.regulateQC := congrArg (fun st : Settled => st.qcHigh.qc) hsettled
  have hes : p₀.epochState = es' := congrArg Core.epochState hcore
  have hlast : p₀.lastCommitted = q.chain.bestBlock := congrArg Core.lastCommitted hcore
  have hentered : p₀.currentRound = q.regulateRound := by
    rw [hes] at hin
    have hif : p₀.currentRound = _ := congrArg Core.currentRound hcore
    rw [hif]
    exact if_pos hin
  by_cases hkblock : q.chain.bestBlock.isKBlock = true
  · exact .inr ⟨hlast ▸ hkblock, rfl, rfl⟩
  · have hnext : q.regulateRound = q.regulateQC.round + 1 := if_neg hkblock
    left
    unfold Pacemaker.PastQCHigh
    rw [hhigh, hentered, hnext]
    exact UInt32.lt_iff_toNat_lt.mp
      (UInt32.lt_succ_of_ne (hnext ▸ hround.resolve_left hkblock))

/-- **The round does not go down and stays past the highest certificate**
between two calls of `Regulate`, in every run whose steps all meet the
condition. -/
theorem roundsHeld_of_certificatesPast {q p₀ p p' : Pacemaker}
    (hregulate : regulate E q = .ok () p₀)
    (hround : q.chain.bestBlock.isKBlock = true ∨ q.regulateRound ≠ 0)
    (hrun : Run E (fun s i => NoRegulate s i ∧ CertificatesPast E s i) p₀ p)
    (hrun' : Run E (fun s i => NoRegulate s i ∧ CertificatesPast E s i) p p') :
    RoundsHeld p₀ p p' := by
  -- what a step keeps: the membership, and the bookkeeping from some state on
  have hstep : ∀ r (s : Pacemaker) i, NoRegulate s i ∧ CertificatesPast E s i →
      (s.epochState.inCommittee = p₀.epochState.inCommittee ∧ RoundsHeld p₀ r s) →
      (s.step E i).epochState.inCommittee = p₀.epochState.inCommittee
        ∧ RoundsHeld p₀ r (s.step E i) := by
    rintro r s i ⟨hno, hok⟩ ⟨hmember, hheld⟩
    exact ⟨(Pacemaker.step_notBefore hok hno).member_eq.trans hmember, hheld.step hok hno hmember⟩
  obtain ⟨hmember, hheld⟩ := Machine.Run.invariant hrun ⟨rfl, .of_regulate hregulate hround⟩
    (hstep p₀)
  exact (Machine.Run.invariant hrun' ⟨hmember, UInt32.le_refl _, hheld.past⟩ (hstep p)).2

/-! ## Runs -/

/-- A test for the condition. -/
def pastTest (E : Env) (p : Pacemaker) : Input → Bool
  | .loop .message => match p.inQueue.head?.map IncomingMsg.msg with
    | some (.proposal msg) =>
      decide (msg.round + 1 ≠ 0) && msg.decodedBlock.all (fun blk => decide (p.Past blk.qc))
    | some (.vote msg) => decide (msg.voteRound + 1 ≠ 0)
    | some (.timeout msg) =>
      (match p.epochState.addQCVote E.B msg.signerIndex msg.lastVoteRound msg.lastVoteBlockID
          msg.lastVoteSignature with
        | .ok (some qc, _) => decide (p.Past qc)
        | _ => true)
      && msg.decodedQCHigh.all (fun qc => decide (p.Past qc))
    | _ => true
  | .loop .roundTimeout => p.roundTimeoutCh.head?.all (fun ti => decide (ti.round + 1 ≠ 0))
  | .loop .cmd => false
  | _ => true

theorem CertificatesPast.of_test {i : Input} (h : pastTest E p i = true) :
    NoRegulate p i ∧ CertificatesPast E p i := by
  refine ⟨?_, ?_, ?_, ?_, ?_, ?_, ?_⟩
  · rintro rfl
    exact nomatch h
  · rintro msg ⟨rfl, mi, rest, hqueue, hmsg⟩
    unfold pastTest at h
    rw [hqueue, List.head?_cons, Option.map_some, hmsg] at h
    exact of_decide_eq_true (Bool.and_eq_true_iff.mp h).1
  · rintro msg blk ⟨rfl, mi, rest, hqueue, hmsg⟩ hdecoded
    unfold pastTest at h
    rw [hqueue, List.head?_cons, Option.map_some, hmsg] at h
    have hqc := (Bool.and_eq_true_iff.mp h).2
    rw [hdecoded] at hqc
    exact of_decide_eq_true hqc
  · rintro msg ⟨rfl, mi, rest, hqueue, hmsg⟩
    unfold pastTest at h
    rw [hqueue, List.head?_cons, Option.map_some, hmsg] at h
    exact of_decide_eq_true h
  · rintro msg ⟨rfl, mi, rest, hqueue, hmsg⟩ qc es hformed
    unfold pastTest at h
    rw [hqueue, List.head?_cons, Option.map_some, hmsg] at h
    have hqc := (Bool.and_eq_true_iff.mp h).1
    rw [hformed] at hqc
    exact of_decide_eq_true hqc
  · rintro msg qc ⟨rfl, mi, rest, hqueue, hmsg⟩ hcarried
    unfold pastTest at h
    rw [hqueue, List.head?_cons, Option.map_some, hmsg] at h
    have hqc := (Bool.and_eq_true_iff.mp h).2
    rw [hcarried] at hqc
    exact of_decide_eq_true hqc
  · rintro ti rest rfl hhead
    unfold pastTest at h
    rw [hhead] at h
    exact of_decide_eq_true h

/-- A list of inputs without a `Regulate` is played without one. -/
theorem run_noRegulate {inputs : List Input}
    (h : inputs.all (fun i => match i with | .loop .cmd => false | _ => true) = true)
    (p : Pacemaker) : Run E NoRegulate p (p.play E inputs) := by
  refine Machine.Run.of_plays _ ?_
  induction inputs generalizing p with
  | nil => trivial
  | cons i inputs ih =>
    obtain ⟨hi, hrest⟩ := Bool.and_eq_true_iff.mp h
    refine ⟨?_, ih hrest _⟩
    rintro rfl
    exact nomatch hi

namespace Testnet

/-- **A block, its child, and a timeout message that brings the certificate of
the child**: the round is the one after that certificate's. -/
theorem roundsHeld_of_timeout :
    ∃ q p₀, start 1 = .ok p₀ ∧ regulate env q = .ok () p₀
      ∧ let b := block genesis 1 genesisQC []
        let b' := block b 2 (certificate b 1) []
        let p := p₀.play env (deliver b 1)
        let p' := p.play env (deliver b' 2 ++ deliverTimeout 0 5 (certificate b' 2))
        p.currentRound = 2 ∧ p'.qcHigh.qc = certificate b' 2 ∧ p'.currentRound = 3
          ∧ p₀.epochState.inCommittee = true ∧ RoundsHeld p₀ p p' := by
  obtain ⟨p₀, hstart, htest⟩ := exists_of_start (k := 1)
    (fun p₀ =>
      let b := block genesis 1 genesisQC []
      let b' := block b 2 (certificate b 1) []
      let inputs := deliver b' 2 ++ deliverTimeout 0 5 (certificate b' 2)
      let p := p₀.play env (deliver b 1)
      Machine.passes (Pacemaker.step env) (pastTest env) p₀ (deliver b 1)
        && Machine.passes (Pacemaker.step env) (pastTest env) p inputs
        && decide (p.currentRound = 2 ∧ (p.play env inputs).qcHigh.qc = certificate b' 2
          ∧ (p.play env inputs).currentRound = 3 ∧ p₀.epochState.inCommittee = true))
    (by decide +kernel)
  simp only [Bool.and_eq_true] at htest
  obtain ⟨⟨hpasses, hpasses'⟩, hstates⟩ := htest
  obtain ⟨hround, hqc, hround', hmember⟩ := of_decide_eq_true hstates
  obtain ⟨registry, bestNode, es, -, -, -, hregulate⟩ := startPacemaker_eq hstart
  have hrun := Machine.Run.of_plays _
    (.of_test (pastTest env) (fun _ _ => CertificatesPast.of_test) _ hpasses)
  have hrun' := Machine.Run.of_plays _
    (.of_test (pastTest env) (fun _ _ => CertificatesPast.of_test) _ hpasses')
  have hentered : (newPacemaker chain app [1] es registry 1000000000).regulateRound ≠ 0 := by
    unfold Pacemaker.regulateRound
    rw [regulateQC_newPacemaker]
    show (if chain.bestBlock.isKBlock then 0 else chain.bestQC.round + 1) ≠ 0
    decide +kernel
  exact ⟨_, p₀, hstart, hregulate, hround, hqc, hround', hmember,
    roundsHeld_of_certificatesPast hregulate (.inr hentered) hrun hrun'⟩

/-- A second block of height one, which the node does not vote for because it
has voted for a block of height two. -/
def sideBlock : Block := block genesis 7 genesisQC []

/-- Two blocks are voted for, a second block of height one is proposed in the
ninth round, after timeouts, and then a timeout message brings its
certificate. -/
def sideCertificate : List Input :=
  let b := block genesis 1 genesisQC []
  deliver b 1 ++ deliver (block b 2 (certificate b 1) []) 2
    ++ [.receive (.proposal (lateProposal sideBlock 9)) [], .enter 0, .loop .message]
    ++ deliverTimeout 0 5 (certificate sideBlock 9)

/-- The child is proposed in the last round there is, after timeouts. -/
def lastRound : List Input :=
  let b := block genesis 1 genesisQC []
  [.receive (.proposal (lateProposal (block b 2 (certificate b 1) []) 0xffffffff)) [],
    .enter 0, .loop .message]

/-- **The round falls back to zero, and behind the highest certificate.** The
round after the last one is zero, which the node enters from round two. And
the certificate a timeout message brings is taken although it is of round
nine, while the node stays in round three. -/
theorem round_goes_down_and_behind :
    ∃ q p₀, start 1 = .ok p₀ ∧ regulate env q = .ok () p₀ ∧ p₀.epochState.inCommittee = true
      ∧ (let p := p₀.play env (deliver (block genesis 1 genesisQC []) 1)
        let p' := p.play env lastRound
        Run env NoRegulate p₀ p ∧ Run env NoRegulate p p' ∧ p'.halted = none
          ∧ ¬ p.currentRound ≤ p'.currentRound)
      ∧ let p := p₀.play env sideCertificate
        Run env NoRegulate p₀ p ∧ p.halted = none
          ∧ ¬ (p.PastQCHigh ∨ Pacemaker.EpochJustStarted p₀ p) := by
  obtain ⟨p₀, hstart, htest⟩ := exists_of_start (k := 1)
    (fun p₀ =>
      let p := p₀.play env (deliver (block genesis 1 genesisQC []) 1)
      let side := p₀.play env sideCertificate
      decide (p₀.epochState.inCommittee = true) && (p.play env lastRound).halted.isNone
        && decide (¬ p.currentRound ≤ (p.play env lastRound).currentRound)
        && side.halted.isNone && decide (¬ side.PastQCHigh)
        && decide (p₀.lastCommitted.isKBlock = false))
    (by decide +kernel)
  simp only [Bool.and_eq_true] at htest
  obtain ⟨⟨⟨⟨⟨hmember, hruns⟩, hlower⟩, hruns'⟩, hbehind⟩, hkblock⟩ := htest
  obtain ⟨registry, bestNode, es, -, -, -, hregulate⟩ := startPacemaker_eq hstart
  refine ⟨_, p₀, hstart, hregulate, of_decide_eq_true hmember,
    ⟨run_noRegulate (by decide +kernel) _, run_noRegulate (by decide +kernel) _,
      Option.isNone_iff_eq_none.mp hruns, of_decide_eq_true hlower⟩,
    run_noRegulate (by decide +kernel) _, Option.isNone_iff_eq_none.mp hruns', ?_⟩
  rintro (hpast | ⟨hkblock', -⟩)
  · exact of_decide_eq_true hbehind hpast
  · rw [of_decide_eq_true hkblock] at hkblock'
    exact nomatch hkblock'

end Testnet

end LoragonBFT
