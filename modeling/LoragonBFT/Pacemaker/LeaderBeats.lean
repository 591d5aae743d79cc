import LoragonBFT.Pacemaker.Marks
import LoragonBFT.Pacemaker.Proposers

/-!
# One proposal a round

A leader makes a block when a beat for a round of its own is handled, and
`lastOnBeatRound` keeps it from making two: a beat of the current epoch goes
through only for a later round. What is written there is the round as an
`int32`, which is harmless – two rounds with the same `int32` are the same
round – and what is compared is compared only when the beat names the current
epoch.

The record is lost with `Regulate`, which sets it to one below the round it
enters. That round comes from a certificate and not from what the node has
done, so a leader that made a block in a round it reached by a timeout
certificate, and then regulates to a best block certified in an earlier
round, makes another one in a round it has already led.

The invariant is that every block the node made in the epoch it is in was
made in a round up to `lastOnBeatRound` (`BeatsRecorded`). Nothing but a beat
and a `Regulate` touches the three things it mentions.
-/

namespace LoragonBFT

open EStateM

variable {E : Env} {s : Pacemaker} {i : Input}

/-! ## What the rest leaves alone -/

/-- The epoch, the round of the last beat, and the blocks made. -/
def Pacemaker.beats (p : Pacemaker) : UInt64 × Int32 × List DraftBlock :=
  (p.epochState.epoch, p.lastOnBeatRound, p.proposed)

def Tally.beats (l : Tally) : UInt64 × Int32 × List DraftBlock :=
  (l.epochState.epoch, l.lastOnBeatRound, l.proposed)

def Standing.beats (st : Standing) : UInt64 × Int32 × List DraftBlock := st.toLead.tally.beats

theorem keeps_beats {α : Type} {x : PM α} (h : Keeps Pacemaker.settled x) :
    Keeps Pacemaker.beats x := h.comp (fun st => st.toStanding.beats)

theorem keeps_beats_of_tally {α : Type} {x : PM α} (h : Keeps Pacemaker.tally x) :
    Keeps Pacemaker.beats x := h.comp Tally.beats

theorem keeps_beats_addQCVote (signerIndex round : UInt32) (blockID : Bytes32) (sig : Bytes) :
    Keeps Pacemaker.beats (addQCVote E signerIndex round blockID sig) := by
  refine fun t => (addQCVote_spec _ _ _ _ t).imp (fun _ _ h => ?_) (fun _ h => by rw [h])
  obtain ⟨es, hcount, rfl⟩ := h
  obtain ⟨m, rfl⟩ := EpochState.addQCVote_eq hcount
  rfl

theorem keeps_beats_addTCVote (signerIndex round : UInt32) (sig : Bytes) (hash : Bytes32) :
    Keeps Pacemaker.beats (addTCVote E signerIndex round sig hash) := by
  refine fun t => (addTCVote_spec _ _ _ _ t).imp (fun _ _ h => ?_) (fun _ h => by rw [h])
  obtain ⟨es, hcount, rfl⟩ := h
  obtain ⟨m, rfl⟩ := EpochState.addTCVote_eq hcount
  rfl

theorem keeps_beats_scheduleOnBeat (epoch : UInt64) (round : UInt32) :
    Keeps Pacemaker.beats (scheduleOnBeat epoch round) := fun _ => rfl

theorem keeps_beats_onReceiveVote (mi : IncomingMsg) (msg : PMVoteMessage) :
    Keeps Pacemaker.beats (onReceiveVote E mi msg) :=
  keeps_onReceiveVote keeps_beats keeps_beats_addQCVote
    (fun q => keeps_beats_of_tally (keeps_tally_updateQCHigh q)) mi msg

theorem keeps_beats_onReceiveTimeout (msg : PMTimeoutMessage) :
    Keeps Pacemaker.beats (onReceiveTimeout E msg) := by
  have hlookup : ∀ qc, Keeps Pacemaker.beats (getDraftByEscortQC qc) := fun _ _ => rfl
  have hset : ∀ tc, Keeps Pacemaker.beats (modify (fun p : Pacemaker =>
    { p with tcHigh := tc }) : PM Unit) := fun _ _ => rfl
  refine Keeps.get.bind fun p => ?_
  split
  · exact Keeps.pure _
  have hcollect : Keeps Pacemaker.beats (collectLastVote E msg) := by
    refine (keeps_beats_addQCVote _ _ _ _).bind fun qc => ?_
    split
    · exact Keeps.pure _
    · exact (hlookup _).bind fun _ => (keeps_beats_of_tally (keeps_tally_updateQCHigh _)).bind
        fun _ => (keeps_beats_of_tally (keeps_tally_update _)).bind fun _ => Keeps.pure _
  have hadopt : Keeps Pacemaker.beats (adoptQCHigh msg) :=
    (keeps_ofExcept _).bind fun qc => (hlookup qc).bind fun _ =>
      (keeps_beats_of_tally (keeps_tally_updateQCHigh _)).bind fun _ => Keeps.pure _
  refine hcollect.bind fun _ => hadopt.bind fun _ =>
    (keeps_beats_addTCVote _ _ _ _).bind fun tc => ?_
  split
  · exact Keeps.pure _
  · exact (hset _).bind fun _ => Keeps.get.bind fun _ => keeps_beats_scheduleOnBeat _ _

/-! ## A beat -/

/-- The message of a block is for a round of an epoch. -/
def DraftBlock.MadeFor (epoch : UInt64) (round : UInt32) (d : DraftBlock) : Prop :=
  ∃ m, d.msg = some m ∧ m.epoch = epoch ∧ m.round = round

/-- A block `OnPropose` makes is for the epoch the node is in and the round of
the beat. -/
theorem onPropose_message (qc : DraftQC) (round : UInt32) (t : Pacemaker) :
    Ensures (onPropose E qc round) t
      (fun r _ => ∀ d, r = some d → d.MadeFor t.epochState.epoch round) (fun _ => True) := by
  unfold onPropose
  simp only [ensures_bind, ensures_getDraftByEscortQC, ensures_ofExcept]
  refine ⟨fun parent _ => ?_, fun _ _ => trivial⟩
  refine ((keeps_createLeaf parent qc round t.bump).and
    (createLeaf_spec (s := t) (i := .loop .beat) parent qc round t.bump)).imp (fun r t₁ h => ?_)
    (fun _ _ => trivial)
  obtain ⟨hsettled, -, hr⟩ := h
  have hes : t₁.epochState = t.epochState := congrArg (fun st : Settled => st.epochState) hsettled
  split
  · exact fun _ h => by cases h
  rename_i bnew
  obtain ⟨p, timestamp, txs, hbnew⟩ := hr bnew rfl
  split
  · exact fun _ h => by cases h
  simp only [ensures_bind, ensures_get, ensures_record, ensures_ofExcept, ensures_modify,
    ensures_pure]
  refine ⟨fun _ _ d hd => ⟨buildProposalMessage E t₁ bnew, by rw [← Option.some.inj hd], ?_, ?_⟩,
    fun _ _ => trivial⟩
  · exact congrArg EpochState.epoch hes
  · show bnew.round = round
    rw [hbnew]
    rfl

/-- A beat is let through: it is not outdated, and for the current epoch its
round is later than that of the last one. -/
def Pacemaker.LetsThrough (p : Pacemaker) (epoch : UInt64) (round : UInt32) : Prop :=
  p.epochState.epoch ≤ epoch
    ∧ (epoch = p.epochState.epoch → p.lastOnBeatRound < Int32.ofNat round.toNat)

variable {p : Pacemaker} {epoch : UInt64} {round : UInt32}

/-- Its round is then later than that of the last one, unless it names a later
epoch than the node is in. -/
theorem Pacemaker.LetsThrough.later (h : p.LetsThrough epoch round)
    (hahead : p.epochState.epoch < epoch → p.lastOnBeatRound < Int32.ofNat round.toNat) :
    p.lastOnBeatRound < Int32.ofNat round.toNat := by
  rcases UInt64.lt_or_eq_of_le h.1 with hlt | heq
  · exact hahead hlt
  · exact h.2 heq.symm

/-- **What a beat does**: nothing, or it is let through, its round is
recorded, and at most one block is made, with the property `P` of what
`OnPropose` makes. -/
inductive Beaten (P : DraftBlock → Prop) (t : Pacemaker) (epoch : UInt64) (round : UInt32)
    (t' : Pacemaker) : Prop
  | skipped (beats_eq : t'.beats = t.beats) (trace_eq : t'.trace = t.trace)
  | failed (through : t.LetsThrough epoch round)
      (beats_eq : t'.beats = (t.epochState.epoch, Int32.ofNat round.toNat, t.proposed))
  | proposed (through : t.LetsThrough epoch round) (d : DraftBlock) (made : P d)
      (beats_eq : t'.beats
        = (t.epochState.epoch, Int32.ofNat round.toNat, t.proposed ++ [d]))

theorem onBeat_beaten {P : DraftBlock → Prop} (epoch : UInt64) (round : UInt32) (t : Pacemaker)
    (hpropose : Ensures (onPropose E t.qcHigh round)
      (Pacemaker.bump { t with lastOnBeatRound := Int32.ofNat round.toNat })
      (fun r _ => ∀ d, r = some d → P d) (fun _ => True)) :
    Ensures (onBeat E epoch round) t (fun _ => Beaten P t epoch round)
      (Beaten P t epoch round) := by
  unfold onBeat
  simp only [ensures_bind, ensures_get]
  split
  · exact .skipped rfl rfl
  rename_i hcurrent
  split
  · exact .skipped rfl rfl
  rename_i hlater
  split
  · exact .skipped rfl rfl
  have hthrough : t.LetsThrough epoch round := by
    refine ⟨UInt64.not_lt.mp hcurrent, fun hepoch => Int32.not_le.mp fun hle => hlater ?_⟩
    exact Bool.and_eq_true_iff.mpr ⟨beq_iff_eq.mpr hepoch, decide_eq_true hle⟩
  simp only [ensures_bind, ensures_set, ensures_getDraftByEscortQC]
  split
  · exact .failed hthrough rfl
  rw [ensures_bind]
  set t₁ : Pacemaker := ({ t with lastOnBeatRound := Int32.ofNat round.toNat } : Pacemaker).bump
  have hfailed : ∀ t' : Pacemaker, t'.beats = t₁.beats → Beaten P t epoch round t' :=
    fun t' h => .failed hthrough h
  refine ((keeps_beats (keeps_onPropose t.qcHigh round) t₁).and hpropose).imp (fun r t₂ h => ?_)
    (fun t₂ h => hfailed t₂ h.1)
  obtain ⟨hbeats, hmade⟩ := h
  split
  · exact hfailed t₂ hbeats
  rename_i bnew
  simp only [ensures_bind, ensures_ofExcept]
  refine ⟨fun m' _ => ?_, fun _ _ => hfailed t₂ hbeats⟩
  have hadopt : Ensures (adoptProposal E bnew m') t₂
      (fun _ t' => t'.beats = (t₂.beats.1, t₂.beats.2.1, t₂.beats.2.2 ++ [bnew]))
      (fun _ => False) := by
    unfold adoptProposal scheduleBroadcast
    simp only [ensures_bind, ensures_addDraft, ensures_record, ensures_modify, ensures_get]
    split <;> simp [Pacemaker.beats, Pacemaker.proposed, proposedDrafts]
  refine hadopt.imp (fun _ t' h => ?_) (fun _ h => h.elim)
  rw [hbeats] at h
  exact .proposed hthrough bnew (hmade bnew rfl) h

/-! ## The invariant -/

/-- **Every block the node made in the epoch it is in was made in a round up
to that of the last beat**, and no two blocks were made for one round of one
epoch. -/
structure BeatsRecorded (p : Pacemaker) : Prop where
  recorded : ∀ d ∈ p.proposed, ∀ m, d.msg = some m → m.epoch = p.epochState.epoch →
    Int32.ofNat m.round.toNat ≤ p.lastOnBeatRound
  unique : p.proposed.Pairwise (fun d d' => ∀ m m', d.msg = some m → d'.msg = some m' →
    ¬ (m.epoch = m'.epoch ∧ m.round = m'.round))

theorem BeatsRecorded.of_beats {p' : Pacemaker} (h : BeatsRecorded p)
    (hbeats : p'.beats = p.beats) : BeatsRecorded p' := by
  obtain ⟨hepoch, hrest⟩ := Prod.mk.inj hbeats
  obtain ⟨hround, hproposed⟩ := Prod.mk.inj hrest
  refine ⟨fun d hd m hm hm' => ?_, ?_⟩
  · rw [hround]
    rw [hproposed] at hd
    exact h.recorded d hd m hm (hm'.trans hepoch)
  · rw [hproposed]
    exact h.unique

/-- The epoch the node is in after a `Regulate`. An epoch state that cannot be
made leaves the old one. -/
def Pacemaker.RegulatesTo (E : Env) (p : Pacemaker) (epoch : UInt64) : Prop :=
  ∃ bestNode, p.chain.getDraftByEscortQC p.regulateQC = some bestNode
    ∧ ((newEpochState E p.chain bestNode.proposedBlock p.myPubKey = .ok none
        ∧ p.epochState.epoch = epoch)
      ∨ ∃ es, newEpochState E p.chain bestNode.proposedBlock p.myPubKey = .ok (some es)
        ∧ es.epoch = epoch)

/-- What a step needs for a leader to make one block a round. A `Regulate`
does not go back to a round the node has led, or to one before it, in the
epoch it leads to. A beat does not name a later epoch than the node is in, or
its round is later than that of the last one. -/
structure LeadsForward (E : Env) (p : Pacemaker) (i : Input) : Prop where
  regulate : i = .loop .cmd → p.wantsRegulate = true → ∀ epoch, p.RegulatesTo E epoch →
    ∀ d ∈ p.proposed, ∀ m, d.msg = some m → m.epoch = epoch →
      Int32.ofNat m.round.toNat ≤ Int32.ofNat p.regulateRound.toNat - 1
  beat : ∀ b, i = .loop .beat → p.beatCh = some b → p.epochState.epoch < b.epoch →
    p.lastOnBeatRound < Int32.ofNat b.round.toNat

/-- A beat that is let through is for a round the node has not led. -/
theorem BeatsRecorded.fresh (h : BeatsRecorded s) (hthrough : s.LetsThrough epoch round)
    (hahead : s.epochState.epoch < epoch → s.lastOnBeatRound < Int32.ofNat round.toNat) :
    ∀ d ∈ s.proposed, ∀ m, d.msg = some m →
      ¬ (m.epoch = s.epochState.epoch ∧ m.round = round) := by
  rintro d hd m hm ⟨hepoch, hround⟩
  have hle := h.recorded d hd m hm hepoch
  rw [hround] at hle
  exact Int32.not_le.mpr (hthrough.later hahead) hle

/-- **A beat keeps the record.** -/
theorem BeatsRecorded.beaten {t' : Pacemaker} (h : BeatsRecorded s)
    (hbeaten : Beaten (DraftBlock.MadeFor s.epochState.epoch round) s epoch round t')
    (hahead : s.epochState.epoch < epoch → s.lastOnBeatRound < Int32.ofNat round.toNat) :
    BeatsRecorded t' := by
  have hmoved : s.LetsThrough epoch round → ∀ d ∈ s.proposed, ∀ m, d.msg = some m →
      m.epoch = s.epochState.epoch → Int32.ofNat m.round.toNat ≤ Int32.ofNat round.toNat := by
    intro hthrough d hd m hm hepoch
    exact Int32.le_of_lt
      (Int32.lt_of_le_of_lt (h.recorded d hd m hm hepoch) (hthrough.later hahead))
  cases hbeaten with
  | skipped hbeats => exact h.of_beats hbeats
  | failed hthrough hbeats =>
    obtain ⟨hepoch, hrest⟩ := Prod.mk.inj hbeats
    obtain ⟨hround, hproposed⟩ := Prod.mk.inj hrest
    refine ⟨fun d hd m hm hm' => ?_, by rw [hproposed]; exact h.unique⟩
    rw [hround]
    rw [hproposed] at hd
    exact hmoved hthrough d hd m hm (hm'.trans hepoch)
  | proposed hthrough d hmade hbeats =>
    obtain ⟨m, hm, hmepoch, hmround⟩ := hmade
    obtain ⟨hepoch, hrest⟩ := Prod.mk.inj hbeats
    obtain ⟨hround, hproposed⟩ := Prod.mk.inj hrest
    refine ⟨fun d' hd' m' hm' hm'' => ?_, ?_⟩
    · rw [hround]
      rw [hproposed] at hd'
      rcases List.mem_append.mp hd' with hold | hnew
      · exact hmoved hthrough d' hold m' hm' (hm''.trans hepoch)
      · obtain rfl := List.mem_singleton.mp hnew
        obtain rfl := Option.some.inj (hm.symm.trans hm')
        rw [hmround]
        exact Int32.le_refl _
    · rw [hproposed]
      refine List.pairwise_append.mpr ⟨h.unique, List.pairwise_singleton _ _, ?_⟩
      intro d' hd' d'' hd'' m' m'' hm' hm'' heq
      obtain rfl := List.mem_singleton.mp hd''
      obtain rfl := Option.some.inj (hm.symm.trans hm'')
      exact h.fresh hthrough hahead d' hd' m' hm'
        ⟨heq.1.trans hmepoch, heq.2.trans hmround⟩

/-- **What a step does to the record**: it keeps it, beats or regulates. -/
theorem Pacemaker.step_beats {Q : Pacemaker → Prop}
    (hsame : ∀ {t t' : Pacemaker}, Q t → t'.beats = t.beats → Q t') (hs : Q s)
    (hbeat : ∀ b cmdCh t, i = .loop .beat → s.beatCh = some b →
      Beaten (DraftBlock.MadeFor s.epochState.epoch b.round) (s.beating cmdCh) b.epoch b.round t →
      Q t)
    (hregulate : ∀ epoch t, i = .loop .cmd → s.wantsRegulate = true → s.RegulatesTo E epoch →
      t.beats = (epoch, Int32.ofNat s.regulateRound.toNat - 1, s.proposed) → Q t) :
    Q (s.step E i) := by
  have hkeeps : ∀ {α : Type} {x : PM α} {t : Pacemaker}, Keeps Pacemaker.beats x →
      t.beats = s.beats → Q (x.exec t) := fun {_ x t} hx ht =>
    Ensures.exec ((hx t).imp (fun _ _ h => hsame hs (h.trans ht))
      (fun _ h => hsame hs (h.trans ht)))
  refine Outcomes.step (f := Settled.toStanding) (Q := Q) ⟨?_, ?_, ?_, ?_, ?_, ?_, ?_, ?_⟩
  · exact fun t ht => hsame hs (congrArg Standing.beats ht)
  · exact fun t fault ht => hsame ht rfl
  · exact fun mi rest cmdCh msg _ _ =>
      hkeeps (keeps_beats_of_tally (keeps_tally_onReceiveProposal mi msg)) rfl
  · exact fun mi rest cmdCh msg _ _ => hkeeps (keeps_beats_onReceiveVote mi msg) rfl
  · exact fun mi rest cmdCh msg _ _ => hkeeps (keeps_beats_onReceiveTimeout msg) rfl
  · exact fun b cmdCh hi hb => hbeat b cmdCh _ hi hb
      (onBeat_beaten b.epoch b.round (s.beating cmdCh) (onPropose_message _ _ _)).exec
  · intro hcmd hwants
    refine Ensures.exec ((regulate_settled s.regulating).imp (fun _ t h => ?_) (fun t h => ?_))
    · obtain ⟨bestNode, es, hlookup, hes, hsettled⟩ := h
      refine hregulate es.epoch t hcmd hwants ⟨bestNode, hlookup, ?_⟩
        (congrArg (fun st : Settled => st.toStanding.beats) hsettled)
      rcases hes with ⟨rfl, hnone⟩ | hsome
      · exact .inl ⟨hnone, rfl⟩
      · exact .inr ⟨es, hsome, rfl⟩
    · exact hsame hs (congrArg (fun st : Settled => st.toStanding.beats) h)
  · exact fun blk qc _ => hkeeps (keeps_beats_of_tally (keeps_tally_processBlock blk qc)) rfl

/-- **A step keeps the record**, under the condition. -/
theorem BeatsRecorded.step (hok : LeadsForward E s i) (h : BeatsRecorded s) :
    BeatsRecorded (s.step E i) := by
  refine Pacemaker.step_beats (fun ht => ht.of_beats) h (fun b cmdCh t hbeat hb hbeaten => ?_)
    (fun epoch t hcmd hwants hto hbeats => ?_)
  · have hbeating : BeatsRecorded (s.beating cmdCh) := h.of_beats rfl
    exact hbeating.beaten hbeaten (hok.beat b hbeat hb)
  · obtain ⟨hepoch, hrest⟩ := Prod.mk.inj hbeats
    obtain ⟨hround, hproposed⟩ := Prod.mk.inj hrest
    refine ⟨fun d hd m hm hm' => ?_, by rw [hproposed]; exact h.unique⟩
    rw [hround]
    rw [hproposed] at hd
    exact hok.regulate hcmd hwants epoch hto d hd m hm (hm'.trans hepoch)

/-! ## Runs -/

/-- **No equivocation**: two blocks the node made for one round of one epoch
are the same block. -/
def NoEquivocation (H : Hashes) (p : Pacemaker) : Prop :=
  ∀ d ∈ p.proposed, ∀ d' ∈ p.proposed, ∀ m m', d.msg = some m → d'.msg = some m' →
    m.epoch = m'.epoch → m.round = m'.round → d.proposedBlock.id H = d'.proposedBlock.id H

theorem BeatsRecorded.noEquivocation {H : Hashes} (h : BeatsRecorded s) : NoEquivocation H s := by
  intro d hd d' hd' m m' hm hm' hepoch hround
  by_contra hne
  have : Std.Symm (fun d d' : DraftBlock => ∀ m m', d.msg = some m → d'.msg = some m' →
      ¬ (m.epoch = m'.epoch ∧ m.round = m'.round)) :=
    ⟨fun _ _ h m m' hm hm' heq => h m' m hm' hm ⟨heq.1.symm, heq.2.symm⟩⟩
  exact h.unique.forall hd hd' (fun heq => hne (by rw [heq])) m m' hm hm' ⟨hepoch, hround⟩

/-- The step is a beat in which the node signs a proposal, for the round of
the beat and the epoch it is in. The signature is made before the block is
kept, so a block that was signed may be lost to a fault. -/
def Pacemaker.SignsProposal (E : Env) (p : Pacemaker) (i : Input) (epoch : UInt64)
    (round : UInt32) : Prop :=
  i = .loop .beat ∧ (∃ b, p.beatCh = some b ∧ b.round = round) ∧ p.epochState.epoch = epoch
    ∧ ∃ hash new, (p.step E i).trace = p.trace ++ new ∧ Event.signed hash ∈ new

/-- What a beat adds to the trace is what `OnBeat` adds. -/
theorem step_beat_trace {P : List Event → Prop} {b : PMBeatInfo} (hb : s.beatCh = some b)
    (hs : P s.trace) (hbeat : ∀ cmdCh, Ensures (onBeat E b.epoch b.round) (s.beating cmdCh)
      (fun _ t => P t.trace) (fun t => P t.trace)) :
    P (s.step E (.loop .beat)).trace := by
  have hbranch : ∀ cmdCh, Ensures (selectBranch E .beat) { s with cmdCh }
      (fun _ t => P t.trace) (fun t => P t.trace) := by
    intro cmdCh
    unfold selectBranch
    rw [ensures_bind, ensures_get]
    split
    · exact hs
    · rename_i b' hb'
      obtain rfl := Option.some.inj (hb.symm.trans hb')
      rw [ensures_bind, ensures_set]
      exact hbeat cmdCh
  have hhandle : Ensures (Pacemaker.handle E (.loop .beat)) s
      (fun _ t => P t.trace) (fun t => P t.trace) := by
    unfold Pacemaker.handle mainLoop loopHead
    simp only [ensures_bind, ensures_get]
    split
    · exact hbranch true
    · exact hbranch s.cmdCh
  unfold Pacemaker.step
  split
  · exact hs
  unfold Ensures at hhandle
  split <;> rename_i heq <;> rw [heq] at hhandle <;> exact hhandle

/-- A beat that is not let through adds nothing to the trace. -/
theorem trace_step_beat {b : PMBeatInfo} (hb : s.beatCh = some b) :
    (s.step E (.loop .beat)).trace = s.trace ∨ s.LetsThrough b.epoch b.round := by
  have hbeaten : ∀ cmdCh t, Beaten (fun _ => True) (s.beating cmdCh) b.epoch b.round t →
      t.trace = s.trace ∨ s.LetsThrough b.epoch b.round := by
    intro cmdCh t ht
    cases ht with
    | skipped _ htrace => exact .inl htrace
    | failed hthrough => exact .inr hthrough
    | proposed hthrough => exact .inr hthrough
  refine step_beat_trace (P := fun trace => trace = s.trace ∨ s.LetsThrough b.epoch b.round) hb
    (.inl rfl) fun cmdCh => ?_
  exact (onBeat_beaten b.epoch b.round (s.beating cmdCh)
    (ensures_of_forall (fun _ _ _ _ => trivial) fun _ => trivial)).imp (fun _ => hbeaten cmdCh)
    (hbeaten cmdCh)

/-- **An honest leader does not equivocate**, in every run whose steps all
meet the condition: no two blocks it made are for one round of one epoch,
and it signs no proposal for a round of an epoch in which it has made a
block. -/
theorem noEquivocation_of_leadsForward {chain : Chain} {app : App} {myPubKey : Bytes} {now : Time}
    {p₀ p : Pacemaker} (hstart : startPacemaker E chain app myPubKey now = .ok p₀)
    (hrun : Run E (LeadsForward E) p₀ p) :
    NoEquivocation E.H p ∧ ∀ i epoch round, LeadsForward E p i →
      p.SignsProposal E i epoch round → ∀ d ∈ p.proposed, ∀ m, d.msg = some m →
        ¬ (m.epoch = epoch ∧ m.round = round) := by
  have hrecorded : BeatsRecorded p := by
    refine Machine.Run.invariant hrun ?_ fun q i hok hq => hq.step hok
    obtain ⟨bestNode, es, beat, -, -, hstanding⟩ := startPacemaker_standing hstart
    have hnone : p₀.proposed = [] := congrArg (fun st : Standing => st.proposed) hstanding
    refine ⟨fun d hd => ?_, ?_⟩
    · rw [hnone] at hd
      exact absurd hd List.not_mem_nil
    · rw [hnone]
      exact .nil
  refine ⟨hrecorded.noEquivocation, ?_⟩
  rintro i epoch round hok ⟨rfl, ⟨b, hb, rfl⟩, rfl, hash, new, htrace, hsigned⟩
  rcases trace_step_beat (E := E) hb with hsame | hthrough
  · -- nothing is signed
    rw [hsame] at htrace
    rw [List.append_right_eq_self.mp htrace.symm] at hsigned
    exact absurd hsigned List.not_mem_nil
  · exact hrecorded.fresh hthrough (hok.beat b rfl hb)

/-- A test for `LeadsForward`. -/
def leadTest (p : Pacemaker) : Input → Bool
  | .loop .cmd => p.proposed.all (fun d => d.msg.all (fun m =>
      decide (Int32.ofNat m.round.toNat ≤ Int32.ofNat p.regulateRound.toNat - 1)))
  | .loop .beat => p.beatCh.all (fun b => decide (b.epoch ≤ p.epochState.epoch))
  | _ => true

theorem LeadsForward.of_test {i : Input} (h : leadTest p i = true) :
    LeadsForward E p i where
  regulate := by
    rintro rfl - epoch - d hd m hm -
    have hall := List.all_eq_true.mp h d hd
    rw [hm] at hall
    exact of_decide_eq_true hall
  beat := by
    rintro b rfl hb hahead
    unfold leadTest at h
    rw [hb] at h
    exact absurd hahead (UInt64.not_lt.mpr (of_decide_eq_true h))

namespace Testnet

/-- A block comes from a peer, certified in some round: the node regulates to
the round after it and gets the beat. -/
def leadAfter (b : Block) (round : UInt32) : List Input :=
  [.sync b (certificate b round), .loop .cmd, .loop .beat]

/-- A node that leads round four and then round eight. -/
theorem noEquivocation_of_two_rounds :
    ∃ p₀, start 0 = .ok p₀
      ∧ let b := block genesis 1 genesisQC []
        let p := p₀.play env (leadAfter b 3 ++ leadAfter (block b 2 (certificate b 3) []) 7)
        (p.proposed.map (fun d => d.msg.map (fun m => m.round))) = [some 4, some 8]
          ∧ Run env (LeadsForward env) p₀ p
          ∧ (NoEquivocation hashes p
            ∧ ∀ i epoch round, LeadsForward env p i →
              p.SignsProposal env i epoch round → ∀ d ∈ p.proposed, ∀ m, d.msg = some m →
                ¬ (m.epoch = epoch ∧ m.round = round)) := by
  obtain ⟨p₀, hstart, htest⟩ := exists_of_start (k := 0)
    (fun p₀ =>
      let b := block genesis 1 genesisQC []
      let inputs := leadAfter b 3 ++ leadAfter (block b 2 (certificate b 3) []) 7
      Machine.passes (Pacemaker.step env) leadTest p₀ inputs
        && decide ((p₀.play env inputs).proposed.map (fun d => d.msg.map (fun m => m.round))
          = [some 4, some 8]))
    (by decide +kernel)
  obtain ⟨hpasses, hrounds⟩ := Bool.and_eq_true_iff.mp htest
  have hplays : Machine.Plays (Pacemaker.step env) (LeadsForward env) p₀ _ :=
    .of_test leadTest (fun _ _ => LeadsForward.of_test) _ hpasses
  have hrun := Machine.Run.of_plays _ hplays
  exact ⟨p₀, hstart, of_decide_eq_true hrounds, hrun,
    noEquivocation_of_leadsForward (E := env) hstart hrun⟩

/-- A test for two blocks of one round and one epoch. -/
def equivocationTest (H : Hashes) (p : Pacemaker) : Bool :=
  p.proposed.any (fun d => p.proposed.any (fun d' => d.msg.any (fun m => d'.msg.any (fun m' =>
    decide (m.epoch = m'.epoch ∧ m.round = m'.round
      ∧ d.proposedBlock.id H ≠ d'.proposedBlock.id H)))))

theorem not_noEquivocation_of_test {H : Hashes} (h : equivocationTest H p = true) :
    ¬ NoEquivocation H p := by
  obtain ⟨d, hd, h⟩ := List.any_eq_true.mp h
  obtain ⟨d', hd', h⟩ := List.any_eq_true.mp h
  obtain ⟨m, hm, h⟩ := (Option.any_eq_true _ _).mp h
  obtain ⟨m', hm', h⟩ := (Option.any_eq_true _ _).mp h
  obtain ⟨hepoch, hround, hne⟩ := of_decide_eq_true h
  exact fun hno => hne (hno d hd d' hd' m m' hm hm' hepoch hround)

/-- **A leader makes two blocks in one round.** The timeout messages of the
three other validators take it to round four, where it makes a block on the
genesis block. Then the first block comes from a peer, certified in round
three, and it regulates to round four and makes another block there. -/
theorem two_blocks_in_round_four :
    ∃ p₀, start 0 = .ok p₀
      ∧ let p := p₀.play env (deliverTimeout 1 4 genesisQC ++ deliverTimeout 2 4 genesisQC
          ++ deliverTimeout 3 4 genesisQC
          ++ .loop .beat :: leadAfter (block genesis 1 genesisQC []) 3)
        Runs env p₀ p ∧ ¬ NoEquivocation hashes p := by
  obtain ⟨p₀, hstart, htest⟩ := exists_of_start (k := 0)
    (fun p₀ => equivocationTest hashes (p₀.play env (deliverTimeout 1 4 genesisQC
      ++ deliverTimeout 2 4 genesisQC ++ deliverTimeout 3 4 genesisQC
      ++ .loop .beat :: leadAfter (block genesis 1 genesisQC []) 3)))
    (by decide +kernel)
  exact ⟨p₀, hstart, Machine.run_play _ _,
    not_noEquivocation_of_test htest⟩

end Testnet

end LoragonBFT
