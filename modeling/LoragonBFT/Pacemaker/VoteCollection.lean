import LoragonBFT.Pacemaker.HighestQC
import LoragonBFT.SharedValidators
import LoragonBFT.TimeoutFormation

/-!
# No vote is lost

The leader of the next round collects the votes for a block. They arrive one
by one, with anything else between them, and `OnReceiveVote` has four ways
out before it counts one: the vote is outdated, the node does not lead the
next round, the block is not there, or the draft is of another round.

The first of them is tested in `uint32`, and at round zero the current round
minus one wraps: a node that has just entered round zero of an epoch takes
every vote but those of round zero for outdated (`voteOutdated_iff`). What is
counted is kept in the epoch state, so a `Regulate` that makes a new one
forgets it. And a certificate that is completed by the last vote of a timeout
message before its block has arrived is turned down by `UpdateQCHigh` and,
since its key is sealed, never made again.

`VotesKept` says that none of this happens between two votes. The proof has
three parts. One call of `AddQCVote` loses no voter, breaks no seal, and sets
one exactly when it returns a certificate (`EpochState.addQCVote_tally`). A
step makes at most one call, and offers what it returns to `UpdateQCHigh`
(`Counted`). Along a run the voters of a key that is not sealed are therefore
all there, and a quorum of them would have sealed it (`Collecting`).
-/

namespace LoragonBFT

open EStateM

variable {E : Env} {s : Pacemaker} {i : Input} {round : UInt32} {id : Bytes32}

/-! ## Outdated votes -/

/-- **Which votes are dropped as outdated**: those of a round before the last
one and, at round zero, those of every round but zero and the largest there
is. -/
theorem voteOutdated_iff : s.voteOutdated round = true ↔
    round.toNat + 1 < s.currentRound.toNat
      ∨ s.currentRound = 0 ∧ round ≠ 0 ∧ round.toNat + 1 < 2 ^ 32 := by
  unfold Pacemaker.voteOutdated
  by_cases hzero : s.currentRound = 0
  · rw [hzero]
    by_cases hround : round = 0
    · simp [hround]
    · have hlt : (0 : UInt32) - 1 = 4294967295 := by decide
      simp [hround, hlt, UInt32.lt_iff_toNat_lt]
      omega
  · have hpos : 1 ≤ s.currentRound.toNat := by
      rw [Nat.one_le_iff_ne_zero]
      exact fun h => hzero (UInt32.toNat_inj.mp h)
    have hsub : (s.currentRound - 1).toNat = s.currentRound.toNat - 1 :=
      UInt32.toNat_sub_of_le _ _ (UInt32.le_iff_toNat_le.mpr hpos)
    have hne : ¬ (round = s.currentRound ∧ round = 0) := fun h => hzero (h.1 ▸ h.2)
    rw [or_iff_left fun h => hzero h.1, Bool.and_eq_true, Bool.not_eq_true', decide_eq_true_iff,
      Bool.eq_false_iff, UInt32.lt_iff_toNat_lt, hsub, and_iff_right (by simpa using hne)]
    omega

/-! ## What a step does to the votes -/

/-- The message a step handles carries a vote: that of a vote message, or the
last vote of the sender of a timeout message. -/
def Pacemaker.CarriesVote (s : Pacemaker) (i : Input) (index round : UInt32) (id : Bytes32)
    (sig : Bytes) : Prop :=
  (∃ msg, s.Handles i (.vote msg) ∧ msg.signerIndex = index ∧ msg.voteRound = round
      ∧ msg.voteBlockID = id ∧ msg.voteSignature = sig)
    ∨ ∃ msg, s.Handles i (.timeout msg) ∧ msg.signerIndex = index ∧ msg.lastVoteRound = round
      ∧ msg.lastVoteBlockID = id ∧ msg.lastVoteSignature = sig

/-- What a step does to the votes collected: nothing, or what the vote of its
message does. -/
def StepCounted (E : Env) (s : Pacemaker) (i : Input) (t' : Pacemaker) : Prop :=
  (∃ tc, t'.epochState = { s.epochState with tcVoteManager := tc })
    ∨ ∃ index round id sig, s.CarriesVote i index round id sig
      ∧ Counted E s i index round id sig t'

theorem Pacemaker.step_counted (htree : DraftTree E.H (BlockLink E.H) s.core)
    (hquiet : i = .loop .cmd → s.wantsRegulate = false) : StepCounted E s i (s.step E i) := by
  have hsame : ∀ t : Pacemaker, t.epochState = s.epochState → StepCounted E s i t :=
    fun t ht => .inl ⟨s.epochState.tcVoteManager, ht⟩
  have hkeeps : ∀ {α : Type} {x : PM α} {t : Pacemaker}, Keeps Pacemaker.tally x →
      t.epochState = s.epochState → StepCounted E s i (x.exec t) := fun {_ x t} hx ht =>
    Ensures.exec ((hx t).imp (fun _ t' h => hsame t' ((congrArg Tally.epochState h).trans ht))
      (fun t' h => hsame t' ((congrArg Tally.epochState h).trans ht)))
  refine Outcomes.step (f := Settled.toStanding) (Q := StepCounted E s i)
    ⟨?_, ?_, ?_, ?_, ?_, ?_, ?_, ?_⟩
  · exact fun t ht => hsame t (congrArg (fun st : Standing => st.epochState) ht)
  · rintro t fault (hquiet | ⟨index, round, id, sig, hcarries, hcounted⟩)
    · exact .inl hquiet
    · exact .inr ⟨index, round, id, sig, hcarries, hcounted.move .refl t.epochState.tcVoteManager
        rfl⟩
  · exact fun mi rest cmdCh msg _ _ => hkeeps (keeps_tally_onReceiveProposal mi msg) rfl
  · intro mi rest cmdCh msg htakes hmsg
    exact .inr ⟨_, _, _, _, .inl ⟨msg, htakes.handles hmsg, rfl, rfl, rfl, rfl⟩,
      (Ensures.exec (onReceiveVote_handled cmdCh (htakes.handles hmsg))).counted⟩
  · intro mi rest cmdCh msg htakes hmsg
    exact .inr ⟨_, _, _, _, .inr ⟨msg, htakes.handles hmsg, rfl, rfl, rfl, rfl⟩,
      (Ensures.exec (onReceiveTimeout_handled cmdCh htree htakes hmsg)).counted⟩
  · intro b cmdCh _ _
    refine Ensures.exec ((keeps_onBeat b.epoch b.round (s.beating cmdCh)).imp (fun _ t h => ?_)
      (fun t h => ?_)) <;> exact hsame t (congrArg (fun st => st.2.1) h)
  · intro hcmd hwants
    rw [hquiet hcmd] at hwants
    exact nomatch hwants
  · exact fun blk qc _ => hkeeps (keeps_tally_processBlock blk qc) rfl

/-- The step completes a certificate for a round and a block: the vote it
carries is counted by a call that returns one. -/
def Pacemaker.FormsQC (E : Env) (s : Pacemaker) (i : Input) (round : UInt32) (id : Bytes32) :
    Prop :=
  ∃ index sig qc es, s.CarriesVote i index round id sig
    ∧ s.epochState.addQCVote E.B index round id sig = .ok (some qc, es)
    ∧ (s.step E i).epochState.qcVoteManager = es.qcVoteManager

/-- The step hands `OnReceiveVote` a valid vote of the member `index`, not
later than in the round after that of the vote. -/
def Pacemaker.TakesVote (E : Env) (s : Pacemaker) (i : Input) (round : UInt32) (id : Bytes32)
    (index : UInt32) : Prop :=
  s.halted = none ∧ s.currentRound.toNat ≤ round.toNat + 1
    ∧ ∃ mi rest msg, s.Takes i mi rest ∧ mi.msg = .vote msg ∧ msg.signerIndex = index
      ∧ msg.voteRound = round ∧ msg.voteBlockID = id
      ∧ s.epochState.verifyVote E.B index id msg.voteSignature = .ok true

/-- The votes for a round and a block, and whether they were enough. -/
def Pacemaker.votesFor (s : Pacemaker) (round : UInt32) (id : Bytes32) : VoteMap :=
  s.epochState.qcVoteManager.votes (round, id)

def Pacemaker.sealedFor (s : Pacemaker) (round : UInt32) (id : Bytes32) : Bool :=
  s.epochState.qcVoteManager.sealed (round, id)

/-! ## The condition -/

/-- The draft of a block in a round. -/
def Pacemaker.HoldsDraft (s : Pacemaker) (round : UInt32) (id : Bytes32) : Prop :=
  ∃ d, s.chain.proposals id = some d ∧ d.round = round

/-- What a step needs for a certificate of the block in the round not to be
lost: the highest certificate keeps its place, and a vote for the block is
handled only when the block is there. -/
structure VotesCounted (round : UInt32) (id : Bytes32) (p : Pacemaker) (i : Input) : Prop
    extends CertificatesKnown p i where
  held : ∀ index sig, p.CarriesVote i index round id sig → p.HoldsDraft round id

/-- What a step needs for the votes for the block in the round not to be lost:
there is no `Regulate`, and when a vote is handled, the node leads the next
round and its own round is not zero, unless that of the vote is. -/
structure VotesKept (round : UInt32) (id : Bytes32) (p : Pacemaker) (i : Input) : Prop
    extends VotesCounted round id p i where
  quiet : i = .loop .cmd → p.wantsRegulate = false
  leads : ∀ msg, p.Handles i (.vote msg) → msg.voteRound = round → msg.voteBlockID = id →
    p.amIRoundProproser (round + 1) = true
  started : ∀ msg, p.Handles i (.vote msg) → msg.voteRound = round → msg.voteBlockID = id →
    p.currentRound ≠ 0 ∨ round = 0 ∨ round.toNat + 1 = 2 ^ 32

/-! ## A certificate that is completed -/

/-- A certificate of a known block that does not replace a well-formed one is
not above it. -/
theorem DraftQC.rank_le_of_not_replaces {H : Hashes} {q q₀ : DraftQC} (h : ¬ q.Replaces q₀)
    (hnode : q.qcNode.isSome) (hq₀ : q₀.WellFormed H) : q.qc.rank ≤ q₀.qc.rank := by
  rw [QuorumCert.rank_le]
  rcases UInt32.lt_or_eq_of_le (number_le_of_not_replaces h hnode) with hlt | heq
  · exact .inl hlt
  · refine .inr ⟨heq, UInt32.not_lt.mp fun hlater => h (.inr ?_)⟩
    obtain ⟨node, hnode', -, hheight, hround⟩ := hq₀
    exact ⟨node, hnode', heq.trans hheight.symm, hround ▸ hlater⟩

/-- **The highest certificate is not below one that was offered**, if its
block is there. -/
theorem Offered.rank_le {qc : QuorumCert} {m : Marks} (h : Offered E s i qc m)
    (hok : CertificatesKnown s i) (htree : DraftTree E.H (BlockLink E.H) s.core)
    (hs : s.qcHigh.WellFormed E.H) (hheld : s.HoldsDraft qc.round qc.blockID) :
    qc.rank ≤ m.qcHigh.qc.rank := by
  obtain ⟨node, m₁, hto, hfrom, hfound, houtcome⟩ := h
  obtain ⟨d, hd, hround⟩ := hheld
  obtain rfl := hfound d hd hround
  have hm₁ := (MarkSteps.ordered hok htree hto hs).wellFormed
  refine le_trans ?_ (MarkSteps.ordered hok htree hfrom hm₁).rank_le
  rcases houtcome with htaken | hkept
  · rw [htaken]
  · exact DraftQC.rank_le_of_not_replaces hkept rfl hm₁

/-- The place of a certificate of a block in a round. -/
def rankOf (round : UInt32) (id : Bytes32) : ℕ ×ₗ ℕ := toLex ((number id).toNat, round.toNat)

/-- **What a step does to the votes for a round and a block.** -/
structure Tallies (E : Env) (s : Pacemaker) (i : Input) (round : UInt32) (id : Bytes32)
    (t' : Pacemaker) : Prop where
  committee : t'.epochState.committee = s.epochState.committee
  voters : ∀ v ∈ s.votesFor round id, ∃ v' ∈ t'.votesFor round id, v'.1 = v.1
  sealed : s.sealedFor round id = true → t'.sealedFor round id = true
  forms : s.FormsQC E i round id ↔ s.sealedFor round id = false ∧ t'.sealedFor round id = true
  rank : s.sealedFor round id = false → t'.sealedFor round id = true →
    rankOf round id ≤ t'.qcHigh.qc.rank

/-- A step that completes a certificate sets the seal. -/
theorem Pacemaker.FormsQC.seals (h : s.FormsQC E i round id) :
    s.sealedFor round id = false ∧ (s.step E i).sealedFor round id = true := by
  obtain ⟨index, sig, qc, es, -, hcall, hmanager⟩ := h
  obtain ⟨-, hseals, hopen⟩ := EpochState.addQCVote_tally hcall
  refine ⟨hopen rfl, ?_⟩
  unfold Pacemaker.sealedFor
  rw [hmanager, hseals]
  exact .inr ⟨rfl, rfl⟩

theorem Pacemaker.step_tallies (hok : VotesCounted round id s i)
    (hquiet : i = .loop .cmd → s.wantsRegulate = false)
    (htree : DraftTree E.H (BlockLink E.H) s.core) (hs : s.qcHigh.WellFormed E.H) :
    Tallies E s i round id (s.step E i) := by
  have hnothing : (s.step E i).epochState.committee = s.epochState.committee →
      (s.step E i).epochState.qcVoteManager = s.epochState.qcVoteManager →
      Tallies E s i round id (s.step E i) := by
    intro hcommittee hmanager
    have hseal : (s.step E i).sealedFor round id = s.sealedFor round id := by
      rw [Pacemaker.sealedFor, hmanager]
      rfl
    have hflip : ¬ (s.sealedFor round id = false ∧ (s.step E i).sealedFor round id = true) := by
      rintro ⟨hopen, hsealed⟩
      rw [hseal, hopen] at hsealed
      exact nomatch hsealed
    refine ⟨hcommittee, fun v hv => ⟨v, ?_, rfl⟩, fun h => hseal ▸ h, ⟨fun h => h.seals,
      fun h => absurd h hflip⟩, fun h h' => absurd ⟨h, h'⟩ hflip⟩
    rw [Pacemaker.votesFor, hmanager]
    exact hv
  rcases s.step_counted htree hquiet with ⟨tc, hes⟩ | ⟨index, round', id', sig, hcarries, hcounted⟩
  · exact hnothing (by rw [hes]) (by rw [hes])
  cases hcounted with
  | skipped tc hes => exact hnothing (by rw [hes]) (by rw [hes])
  | counted qc es tc hcall hes hoffered =>
    obtain ⟨m, rfl⟩ := EpochState.addQCVote_eq hcall
    obtain ⟨hvoters, hseals, -⟩ := EpochState.addQCVote_tally hcall
    have hmanager : (s.step E i).epochState.qcVoteManager = m := by rw [hes]
    have hsealed : (s.step E i).sealedFor round id = m.sealed (round, id) := by
      rw [Pacemaker.sealedFor, hmanager]
    -- a seal that is set belongs to the vote that was counted
    have hflip : s.sealedFor round id = false → (s.step E i).sealedFor round id = true →
        round = round' ∧ id = id' ∧ ∃ q, qc = some q := by
      intro hopen hclosed
      rw [hsealed] at hclosed
      rcases (hseals (round, id)).mp hclosed with hold | ⟨hkey, hsome⟩
      · rw [show s.epochState.qcVoteManager.sealed (round, id) = false from hopen] at hold
        exact nomatch hold
      · exact ⟨(Prod.mk.inj hkey).1, (Prod.mk.inj hkey).2, Option.isSome_iff_exists.mp hsome⟩
    refine ⟨by rw [hes], fun v hv => ?_, fun h => ?_, ⟨fun h => h.seals, ?_⟩, ?_⟩
    · rw [Pacemaker.votesFor, hmanager]
      exact hvoters (round, id) v hv
    · rw [hsealed]
      exact (hseals (round, id)).mpr (.inl h)
    · rintro ⟨hopen, hclosed⟩
      obtain ⟨rfl, rfl, q, rfl⟩ := hflip hopen hclosed
      exact ⟨index, sig, q, _, hcarries, hcall, hmanager⟩
    · intro hopen hclosed
      obtain ⟨rfl, rfl, q, rfl⟩ := hflip hopen hclosed
      obtain ⟨hid, hround, -⟩ := EpochState.eq_of_addQCVote hcall
      have hnode : s.qcHigh.qcNode.isSome := by
        obtain ⟨node, hnode, -⟩ := hs
        rw [hnode]
        rfl
      have hheld : s.HoldsDraft q.round q.blockID := by
        rw [hid, hround]
        exact hok.held index sig hcarries
      have hrank := (hoffered q rfl hnode).rank_le hok.toCertificatesKnown htree hs hheld
      rwa [QuorumCert.rank, QuorumCert.number, hid, hround] at hrank

/-! ## A vote that is handled -/

/-- A vote that is not outdated, for a draft in its round, is counted by the
leader of the next round. -/
theorem onReceiveVote_counts (mi : IncomingMsg) (msg : PMVoteMessage) (t : Pacemaker)
    (hoff : t.voteOutdated msg.voteRound = false)
    (hleads : t.amIRoundProproser (msg.voteRound + 1) = true)
    (hheld : t.HoldsDraft msg.voteRound msg.voteBlockID) {qc : Option QuorumCert} {es : EpochState}
    (hcall : t.epochState.addQCVote E.B msg.signerIndex msg.voteRound msg.voteBlockID
      msg.voteSignature = .ok (qc, es)) :
    Ensures (onReceiveVote E mi msg) t (fun _ t' => t'.epochState = es)
      (fun t' => t'.epochState = es) := by
  obtain ⟨d, hd, hround⟩ := hheld
  have hlookup : t.chain.getDraft msg.voteBlockID = some d := by
    unfold Chain.getDraft
    rw [hd]
  unfold onReceiveVote
  rw [ensures_bind, ensures_get, hoff, hleads, if_neg Bool.false_ne_true, if_neg (by decide),
    ensures_bind, ensures_getDraft, hlookup]
  show Ensures (countVote E msg d) t.bump _ _
  unfold countVote
  rw [if_neg (not_not.mpr hround), ensures_bind]
  have hcounted : Ensures (addQCVote E msg.signerIndex msg.voteRound msg.voteBlockID
      msg.voteSignature) t.bump (fun _ t' => t'.epochState = es) (fun _ => False) := by
    unfold addQCVote
    simp only [ensures_bind, ensures_get, ensures_ofExcept, ensures_set, ensures_pure]
    refine ⟨fun r hr => ?_, fun _ hr => ?_⟩
    · rw [Except.ok.inj (hr.symm.trans hcall)]
    · cases hr.symm.trans hcall
  refine hcounted.imp (fun qc' t₁ h => ?_) (fun _ h => h.elim)
  have hrest : ∀ {α : Type} {x : PM α}, Keeps Pacemaker.tally x →
      Ensures x t₁ (fun _ t' => t'.epochState = es) (fun t' => t'.epochState = es) :=
    fun {_ x} hx => (hx t₁).imp (fun _ _ h' => (congrArg Tally.epochState h').trans h)
      (fun _ h' => (congrArg Tally.epochState h').trans h)
  split
  · exact h
  refine hrest ((keeps_tally_updateQCHigh _).bind fun changed => ?_)
  have hschedule : ∀ epoch round, Keeps Pacemaker.tally (scheduleOnBeat epoch round) :=
    fun _ _ _ => rfl
  split
  · exact Keeps.get.bind fun _ => (hschedule _ _).bind fun _ =>
      (keeps_tally (keeps_enterRound _ _)).bind fun _ => Keeps.pure _
  · exact Keeps.pure _

/-- **A valid vote that is handled in time is noted**, unless its key is
sealed. -/
theorem Pacemaker.TakesVote.noted (hok : VotesKept round id s i)
    (hnil : E.B.validSignature [] = false)
    (hn : s.epochState.committee.size < 2 ^ 32) (htidy : s.epochState.Tidy E.B) {index : UInt32}
    (h : s.TakesVote E i round id index) :
    (s.step E i).sealedFor round id = true
      ∨ ∃ v ∈ (s.step E i).votesFor round id, v.1 = index := by
  obtain ⟨hrunning, hround, mi, rest, msg, htakes, hmsg, rfl, rfl, rfl, hvalid⟩ := h
  have hhandles := htakes.handles hmsg
  have hoff : s.voteOutdated msg.voteRound = false := by
    rw [Bool.eq_false_iff]
    intro houtdated
    rcases voteOutdated_iff.mp houtdated with hlater | ⟨hzero, hne, hlt⟩
    · omega
    · rcases hok.started msg hhandles rfl rfl with h | h | h
      · exact h hzero
      · exact hne h
      · omega
  obtain ⟨qc, es, hcall, hnoted⟩ := htidy.exists_addQCVote hnil hn msg.voteRound hvalid
  have hstep : (s.step E i).epochState = es := by
    refine htakes.step (Q := fun t => t.epochState = es) hrunning (fun t _ h => h) fun cmdCh => ?_
    unfold handleMessage
    rw [hmsg]
    exact onReceiveVote_counts mi msg (s.taking cmdCh rest) hoff (hok.leads msg hhandles rfl rfl)
      (hok.held _ _ (.inl ⟨msg, hhandles, rfl, rfl, rfl, rfl⟩)) hcall
  unfold Pacemaker.sealedFor Pacemaker.votesFor
  rw [hstep]
  exact hnoted

/-! ## A run -/

/-- **The votes of a node are in order** in every state. -/
theorem Pacemaker.step_tidy (h : s.epochState.Tidy E.B) : (s.step E i).epochState.Tidy E.B := by
  refine s.step_invariant E i (P := fun c => c.epochState.Tidy E.B) h fun c c' hstep _ hc => ?_
  cases hstep with
  | countQCVote m index round id sig qc es hhandles hcarried hcounted => exact hc.addQCVote hcounted
  | countTCVote index round sig hash tc es hcounted =>
    obtain ⟨manager, rfl⟩ := EpochState.addTCVote_eq hcounted
    exact ⟨hc.size_eq, hc.checked, hc.minority⟩
  | regulate bestNode es hcmd hbest hround hes =>
    rcases hes with rfl | hes
    · exact hc
    · exact .fresh (newEpochState_fresh hes)
  | _ => exact hc

/-- No step but a counted vote sets a seal: a `Regulate` keeps the votes or
starts without any. -/
theorem Pacemaker.sealedFor_of_step_cmd (hcmd : i = .loop .cmd)
    (h : (s.step E i).sealedFor round id = true) : s.sealedFor round id = true := by
  have hmessage : ∀ {mi rest}, ¬ s.Takes i mi rest := fun htakes =>
    nomatch hcmd.symm.trans htakes.input
  have hsame : ∀ t : Pacemaker, t.epochState = s.epochState → t.sealedFor round id = true →
      s.sealedFor round id = true := by
    intro t ht hsealed
    rwa [Pacemaker.sealedFor, ht] at hsealed
  refine Outcomes.step (f := Settled.toStanding) (E := E) (s := s) (i := i)
    (Q := fun t => t.sealedFor round id = true → s.sealedFor round id = true)
    ⟨?_, fun _ _ ht => ht, fun _ _ _ _ h' => absurd h' hmessage,
      fun _ _ _ _ h' => absurd h' hmessage, fun _ _ _ _ h' => absurd h' hmessage,
      (fun _ _ h' => nomatch hcmd.symm.trans h'), ?_, (fun _ _ h' => nomatch hcmd.symm.trans h')⟩ h
  · exact fun t ht => hsame t (congrArg (fun st : Standing => st.epochState) ht)
  · intro _ _
    refine Ensures.exec (E := fun t => t.sealedFor round id = true → s.sealedFor round id = true)
      ((regulate_settled s.regulating).imp (fun _ t h' => ?_) (fun t h' => ?_))
    · obtain ⟨bestNode, es, -, hes, hsettled⟩ := h'
      have hes' : t.epochState = es := congrArg (fun st : Settled => st.epochState) hsettled
      rcases hes with ⟨rfl, -⟩ | hnew
      · exact hsame t hes'
      · intro hsealed
        rw [Pacemaker.sealedFor, hes', newEpochState_fresh hnew] at hsealed
        exact nomatch hsealed
    · exact hsame t (congrArg (fun st : Settled => st.epochState) h')

/-- What holds in every state in which votes for a round and a block are
collected. -/
structure Collectable (E : Env) (round : UInt32) (id : Bytes32) (p : Pacemaker) : Prop where
  tree : DraftTree E.H (BlockLink E.H) p.core
  wellFormed : p.qcHigh.WellFormed E.H
  tidy : p.epochState.Tidy E.B
  rank : p.sealedFor round id = true → rankOf round id ≤ p.qcHigh.qc.rank

theorem Collectable.step (h : Collectable E round id s) (hok : VotesCounted round id s i) :
    Collectable E round id (s.step E i) := by
  have hordered := s.step_ordered hok.toCertificatesKnown h.tree h.wellFormed
  refine ⟨blockTree_steps hok.toNumbersGrow h.tree (s.step_refines E i), hordered.wellFormed,
    s.step_tidy h.tidy, fun hsealed => ?_⟩
  by_cases hold : s.sealedFor round id = true
  · exact (h.rank hold).trans hordered.rank_le
  · by_cases hcmd : i = .loop .cmd
    · exact absurd (s.sealedFor_of_step_cmd hcmd hsealed) hold
    · exact (s.step_tallies hok (fun h' => absurd h' hcmd) h.tree h.wellFormed).rank
        (Bool.eq_false_iff.mpr hold) hsealed

variable {p : Pacemaker}

theorem Collectable.start {chain : Chain} {app : App} {myPubKey : Bytes} {now : Time}
    (hchain : chain.Fresh E.H) (h : startPacemaker E chain app myPubKey now = .ok p) :
    Collectable E round id p := by
  obtain ⟨bestNode, es, beat, -, hes, hstanding⟩ := startPacemaker_standing h
  have hes' : p.epochState = es := congrArg (fun st : Standing => st.epochState) hstanding
  have hfresh := newEpochState_fresh hes
  refine ⟨DraftTree.start hchain h, wellFormed_startPacemaker hchain h, hes' ▸ .fresh hfresh,
    fun hsealed => ?_⟩
  rw [Pacemaker.sealedFor, hes', hfresh] at hsealed
  exact nomatch hsealed

/-- The input at a place completes a certificate for a round and a block. -/
def FormedAt (E : Env) (s : Pacemaker) (inputs : List Input) (round : UInt32) (id : Bytes32)
    (n : ℕ) : Prop :=
  ∃ i, inputs[n]? = some i ∧ (s.play E (inputs.take n)).FormsQC E i round id

/-- The input at a place hands `OnReceiveVote` a valid vote of a member in
time. -/
def TakenAt (E : Env) (s : Pacemaker) (inputs : List Input) (round : UInt32) (id : Bytes32)
    (index : UInt32) (n : ℕ) : Prop :=
  ∃ i, inputs[n]? = some i ∧ (s.play E (inputs.take n)).TakesVote E i round id index

/-- **No vote is lost** among these inputs: if valid votes of a quorum of
members were handled, exactly one certificate was made – by one of the inputs
or before them – and the highest one is not below it. And a vote is dropped as
outdated only if the round after its own is over. -/
structure NoVoteLost (E : Env) (s : Pacemaker) (inputs : List Input) (round : UInt32)
    (id : Bytes32) : Prop where
  formed : ∀ voters : List UInt32, voters.Nodup →
    majorityTwoThird (UInt32.ofNat voters.length) s.epochState.committeeSize = true →
    (∀ index ∈ voters, ∃ n, TakenAt E s inputs round id index n) →
    (s.sealedFor round id = false → ∃! n, FormedAt E s inputs round id n)
      ∧ (s.sealedFor round id = true → ∀ n, ¬ FormedAt E s inputs round id n)
      ∧ rankOf round id ≤ (s.play E inputs).qcHigh.qc.rank
  dropped : ∀ n i msg, inputs[n]? = some i →
    (s.play E (inputs.take n)).Handles i (.vote msg) → msg.voteRound = round →
    msg.voteBlockID = id → (s.play E (inputs.take n)).voteOutdated round = true →
    round.toNat + 1 < (s.play E (inputs.take n)).currentRound.toNat

/-- What holds after `n` of the inputs: while the key is not sealed every
voter is there and no certificate was made, and once it is exactly one was. -/
structure Collecting (E : Env) (s : Pacemaker) (inputs : List Input) (round : UInt32)
    (id : Bytes32) (n : ℕ) (q : Pacemaker) : Prop extends Collectable E round id q where
  committee : q.epochState.committee = s.epochState.committee
  voters : q.sealedFor round id = false → ∀ m < n, ∀ index, TakenAt E s inputs round id index m →
    ∃ v ∈ q.votesFor round id, v.1 = index
  unformed : q.sealedFor round id = false → ∀ m < n, ¬ FormedAt E s inputs round id m
  still : s.sealedFor round id = true →
    q.sealedFor round id = true ∧ ∀ m < n, ¬ FormedAt E s inputs round id m
  formed : s.sealedFor round id = false → q.sealedFor round id = true →
    ∃! m, m < n ∧ FormedAt E s inputs round id m

variable {inputs : List Input}

/-- Whether the next input completes a certificate. -/
theorem formedAt_iff {n : ℕ} (hi : inputs[n]? = some i) :
    FormedAt E s inputs round id n ↔ (s.play E (inputs.take n)).FormsQC E i round id := by
  constructor
  · rintro ⟨i', hi', hforms⟩
    obtain rfl := Option.some.inj (hi.symm.trans hi')
    exact hforms
  · exact fun hforms => ⟨i, hi, hforms⟩

/-- **One more input.** -/
theorem Collecting.step (hnil : E.B.validSignature [] = false)
    (hn : s.epochState.committee.size < 2 ^ 32) {n : ℕ} (hi : inputs[n]? = some i)
    (hok : VotesKept round id (s.play E (inputs.take n)) i)
    (h : Collecting E s inputs round id n (s.play E (inputs.take n))) :
    Collecting E s inputs round id (n + 1) ((s.play E (inputs.take n)).step E i) := by
  set q := s.play E (inputs.take n) with hq
  have htallies := q.step_tallies hok.toVotesCounted hok.quiet h.tree h.wellFormed
  have hforms : FormedAt E s inputs round id n
      ↔ q.sealedFor round id = false ∧ (q.step E i).sealedFor round id = true :=
    (formedAt_iff hi).trans htallies.forms
  have hopen : (q.step E i).sealedFor round id = false → q.sealedFor round id = false := by
    intro hopen
    rw [Bool.eq_false_iff]
    exact fun hsealed => nomatch (htallies.sealed hsealed).symm.trans hopen
  refine ⟨h.toCollectable.step hok.toVotesCounted, htallies.committee.trans h.committee, ?_, ?_, ?_,
    ?_⟩
  · intro hopen' m hm index htaken
    rcases Nat.lt_succ_iff_lt_or_eq.mp hm with hlt | rfl
    · obtain ⟨v, hv, rfl⟩ := h.voters (hopen hopen') m hlt index htaken
      exact htallies.voters v hv
    · obtain ⟨i', hi', htakes⟩ := htaken
      obtain rfl := Option.some.inj (hi.symm.trans hi')
      rcases htakes.noted hok hnil (h.committee ▸ hn) h.tidy with hsealed | hnoted
      · exact nomatch hsealed.symm.trans hopen'
      · exact hnoted
  · intro hopen' m hm
    rcases Nat.lt_succ_iff_lt_or_eq.mp hm with hlt | rfl
    · exact h.unformed (hopen hopen') m hlt
    · rw [hforms, hopen']
      exact fun h' => nomatch h'.2
  · intro hsealed
    obtain ⟨hstill, hnone⟩ := h.still hsealed
    refine ⟨htallies.sealed hstill, fun m hm => ?_⟩
    rcases Nat.lt_succ_iff_lt_or_eq.mp hm with hlt | rfl
    · exact hnone m hlt
    · rw [hforms, hstill]
      exact fun h' => nomatch h'.1
  · intro hstart hsealed
    by_cases hearlier : q.sealedFor round id = true
    · -- the certificate was made before, and this input makes none
      obtain ⟨m, ⟨hm, hformed⟩, hunique⟩ := h.formed hstart hearlier
      refine ⟨m, ⟨Nat.lt_succ_of_lt hm, hformed⟩, ?_⟩
      rintro m' ⟨hm', hformed'⟩
      rcases Nat.lt_succ_iff_lt_or_eq.mp hm' with hlt | rfl
      · exact hunique m' ⟨hlt, hformed'⟩
      · exact nomatch hearlier.symm.trans (hforms.mp hformed').1
    · have hopen' : q.sealedFor round id = false := Bool.eq_false_iff.mpr hearlier
      refine ⟨n, ⟨Nat.lt_succ_self n, hforms.mpr ⟨hopen', hsealed⟩⟩, ?_⟩
      rintro m' ⟨hm', hformed'⟩
      rcases Nat.lt_succ_iff_lt_or_eq.mp hm' with hlt | rfl
      · exact absurd hformed' (h.unformed hopen' m' hlt)
      · rfl

/-- A minority has no majority among them. -/
theorem majority_of_length_le {committee : ValidatorSet} (hn : committee.size < 2 ^ 32) {a b : ℕ}
    (hle : a ≤ b) (hb : b ≤ committee.size)
    (h : majorityTwoThird (UInt32.ofNat a) (UInt32.ofNat committee.size) = true) :
    majorityTwoThird (UInt32.ofNat b) (UInt32.ofNat committee.size) = true := by
  rw [majorityTwoThird_iff] at h ⊢
  rw [UInt32.toNat_ofNat_of_lt' (lt_of_le_of_lt (hle.trans hb) hn)] at h
  rw [UInt32.toNat_ofNat_of_lt' (lt_of_le_of_lt hb hn)]
  exact ⟨h.1, by omega⟩

/-- **No valid vote is lost**, in every run whose steps all meet the
condition. -/
theorem noVoteLost_of_votesKept {chain : Chain} {app : App} {myPubKey : Bytes} {now : Time}
    {p₀ : Pacemaker} (hnil : E.B.validSignature [] = false) (hchain : chain.Fresh E.H)
    (hstart : startPacemaker E chain app myPubKey now = .ok p₀)
    (hrun : Run E (VotesCounted round id) p₀ s) (hn : s.epochState.committee.size < 2 ^ 32)
    (hplays : Machine.Plays (Pacemaker.step E) (VotesKept round id) s inputs) :
    NoVoteLost E s inputs round id := by
  have hs : Collectable E round id s :=
    Machine.Run.invariant hrun (.start hchain hstart) fun q i hok hq => hq.step hok
  have hend : Collecting E s inputs round id inputs.length (s.play E inputs) := by
    refine hplays.invariant (P := Collecting E s inputs round id)
      ⟨hs, rfl, fun _ _ hm => absurd hm (Nat.not_lt_zero _),
        fun _ _ hm => absurd hm (Nat.not_lt_zero _),
        fun h => ⟨h, fun _ hm => absurd hm (Nat.not_lt_zero _)⟩,
        fun hopen hsealed => nomatch hopen.symm.trans hsealed⟩ fun n i hi hok h =>
          h.step hnil hn hi hok
  refine ⟨fun voters hnodup hmajority htaken => ?_, ?_⟩
  · -- otherwise all voters are there, and they are not enough
    have hsealed : (s.play E inputs).sealedFor round id = true := by
      by_contra hopen
      have hopen' := Bool.eq_false_iff.mpr hopen
      have hthere : ∀ index ∈ voters, ∃ v ∈ (s.play E inputs).votesFor round id, v.1 = index := by
        intro index hindex
        obtain ⟨n, i, hi, htakes⟩ := htaken index hindex
        exact hend.voters hopen' n (List.getElem?_eq_some_iff.mp hi).1 index ⟨i, hi, htakes⟩
      have hminority := hend.tidy.minority (round, id) hopen'
      rw [EpochState.committeeSize, hend.committee] at hminority
      have hlength : ((s.play E inputs).votesFor round id).length
          ≤ s.epochState.committee.size := by
        rw [← hend.committee]
        exact (hend.tidy.checked (round, id)).length_le (hend.committee ▸ hn)
      exact nomatch hminority.symm.trans (majority_of_length_le hn
        (VoteMap.length_le_of_voters hnodup hthere) hlength hmajority)
    refine ⟨fun hopen => ?_, fun hclosed n hformed => ?_, hend.rank hsealed⟩
    · obtain ⟨n, ⟨-, hformed⟩, hunique⟩ := hend.formed hopen hsealed
      refine ⟨n, hformed, fun n' hformed' => hunique n' ⟨?_, hformed'⟩⟩
      obtain ⟨i, hi, -⟩ := hformed'
      exact (List.getElem?_eq_some_iff.mp hi).1
    · have hformed' := hformed
      obtain ⟨i, hi, -⟩ := hformed'
      exact (hend.still hclosed).2 n (List.getElem?_eq_some_iff.mp hi).1 hformed
  · intro n i msg hi hhandles hround hid houtdated
    rcases voteOutdated_iff.mp houtdated with hlater | ⟨hzero, hne, hlt⟩
    · exact hlater
    · rcases (hplays.at hi).started msg hhandles hround hid with h | h | h
      · exact absurd hzero h
      · exact absurd h hne
      · omega

/-! ## Runs -/

theorem holdsDraft_of_test (h : (p.chain.proposals id).any (fun d => d.round == round) = true) :
    p.HoldsDraft round id := by
  obtain ⟨d, hd, hround⟩ := (Option.any_eq_true _ _).mp h
  exact ⟨d, hd, eq_of_beq hround⟩

/-- A test for `VotesCounted`. -/
def countedTest (round : UInt32) (id : Bytes32) (p : Pacemaker) (i : Input) : Bool :=
  knownTest p i && match i, p.inQueue.head?.map IncomingMsg.msg with
    | .loop .message, some (.vote _) => (p.chain.proposals id).any (fun d => d.round == round)
    | .loop .message, some (.timeout _) => (p.chain.proposals id).any (fun d => d.round == round)
    | _, _ => true

theorem VotesCounted.of_test (h : countedTest round id p i = true) :
    VotesCounted round id p i where
  toCertificatesKnown := .of_test (Bool.and_eq_true_iff.mp h).1
  held := by
    have hrest := (Bool.and_eq_true_iff.mp h).2
    rintro index sig (⟨msg, ⟨rfl, mi, rest, hqueue, hmsg⟩, -⟩ |
      ⟨msg, ⟨rfl, mi, rest, hqueue, hmsg⟩, -⟩)
    all_goals
      rw [hqueue, List.head?_cons, Option.map_some, hmsg] at hrest
      exact holdsDraft_of_test hrest

/-- A test for `VotesKept`. -/
def keptTest (round : UInt32) (id : Bytes32) (p : Pacemaker) (i : Input) : Bool :=
  countedTest round id p i && match i with
    | .loop .cmd => !p.wantsRegulate
    | .loop .message => p.amIRoundProproser (round + 1) && p.currentRound != 0
    | _ => true

theorem VotesKept.of_test (h : keptTest round id p i = true) :
    VotesKept round id p i where
  toVotesCounted := .of_test (Bool.and_eq_true_iff.mp h).1
  quiet := by
    rintro rfl
    simpa using (Bool.and_eq_true_iff.mp h).2
  leads := by
    rintro msg ⟨rfl, -⟩ - -
    exact (Bool.and_eq_true_iff.mp (Bool.and_eq_true_iff.mp h).2).1
  started := by
    rintro msg ⟨rfl, -⟩ - -
    exact .inl (bne_iff_ne.mp (Bool.and_eq_true_iff.mp (Bool.and_eq_true_iff.mp h).2).2)

/-- A test for `TakenAt`. -/
def takenTest (E : Env) (s : Pacemaker) (inputs : List Input) (round : UInt32) (id : Bytes32)
    (index : UInt32) (n : ℕ) : Bool :=
  let p := s.play E (inputs.take n)
  match inputs[n]?, p.inQueue with
  | some (.loop .message), mi :: _ => match mi.msg with
    | .vote msg => p.halted.isNone && p.listens
      && decide (p.currentRound.toNat ≤ round.toNat + 1 ∧ mi.msg.getEpoch = p.epochState.epoch
        ∧ msg.signerIndex = index ∧ msg.voteRound = round ∧ msg.voteBlockID = id)
      && (p.epochState.verifyVote E.B index id msg.voteSignature).toOption == some true
    | _ => false
  | _, _ => false

theorem TakenAt.of_test {index : UInt32} {n : ℕ}
    (h : takenTest E s inputs round id index n = true) : TakenAt E s inputs round id index n := by
  unfold takenTest at h
  dsimp only at h
  split at h
  · rename_i mi rest hi hqueue
    split at h
    · rename_i msg hmsg
      simp only [Bool.and_eq_true, decide_eq_true_eq, beq_iff_eq] at h
      obtain ⟨⟨⟨hhalted, hlistens⟩, hround, hepoch, hindex, hvote, hid⟩, hverify⟩ := h
      refine ⟨_, hi, Option.isNone_iff_eq_none.mp hhalted, hround, mi, rest, msg,
        ⟨rfl, hqueue, hlistens, hepoch⟩, hmsg, hindex, hvote, hid, ?_⟩
      revert hverify
      cases EpochState.verifyVote E.B (s.play E (inputs.take n)).epochState index id
        msg.voteSignature with
      | error fault =>
        intro h
        cases h
      | ok valid => exact fun h => congrArg Except.ok (Option.some.inj h)
    · exact absurd h Bool.false_ne_true
  · exact absurd h Bool.false_ne_true

theorem forall_taken_of_test {votes : List (UInt32 × ℕ)}
    (h : votes.all (fun v => takenTest E s inputs round id v.1 v.2) = true) :
    ∀ index ∈ votes.map Prod.fst, ∃ n, TakenAt E s inputs round id index n := by
  intro index hindex
  obtain ⟨v, hv, rfl⟩ := List.mem_map.mp hindex
  exact ⟨v.2, .of_test (List.all_eq_true.mp h v hv)⟩

namespace Testnet

/-- The vote of a validator. -/
def voteMessage (k : UInt8) (round : UInt32) (id : Bytes32) : PMVoteMessage :=
  let msg : PMVoteMessage :=
    { timestamp := 0, epoch := 1, signerIndex := k.toUInt32, voteRound := round, voteBlockID := id,
      voteSignature := bls.sign [k] id, msgSignature := [] }
  { msg with msgSignature := bls.sign [k] ((ConsensusMessage.vote msg).getMsgHash hashes) }

/-- The votes of the three other validators arrive at the third one, and the
main loop takes them. -/
def threeVotes (round : UInt32) (id : Bytes32) : List Input :=
  ([0, 1, 3] : List UInt8).flatMap
    (fun k => [.receive (.vote (voteMessage k round id)) [], .enter 0, .loop .message])

/-- The leader of round two gets the first block and the votes for it. -/
theorem noVoteLost_of_threeVotes :
    ∃ p₀, startPacemaker additiveEnv chain app [2] 1000000000 = .ok p₀
      ∧ let b := block genesis 1 genesisQC []
        let s := p₀.play additiveEnv (deliver b 1)
        let inputs := threeVotes 1 (b.id hashes)
        s.HoldsDraft 1 (b.id hashes) ∧ s.sealedFor 1 (b.id hashes) = false
          ∧ (∀ index ∈ [0, 1, 3], ∃ n, TakenAt additiveEnv s inputs 1 (b.id hashes) index n)
          ∧ NoVoteLost additiveEnv s inputs 1 (b.id hashes) := by
  obtain ⟨p₀, hstart, htest⟩ := exists_of_ok
    (x := startPacemaker additiveEnv chain app [2] 1000000000)
    (fun p₀ =>
      let b := block genesis 1 genesisQC []
      let s := p₀.play additiveEnv (deliver b 1)
      let inputs := threeVotes 1 (b.id hashes)
      Machine.passes (Pacemaker.step additiveEnv) (countedTest 1 (b.id hashes)) p₀ (deliver b 1)
        && Machine.passes (Pacemaker.step additiveEnv) (keptTest 1 (b.id hashes)) s inputs
        && (s.chain.proposals (b.id hashes)).any (fun d => d.round == 1)
        && !s.sealedFor 1 (b.id hashes)
        && [(0, 2), (1, 5), (3, 8)].all
          (fun v => takenTest additiveEnv s inputs 1 (b.id hashes) v.1 v.2)
        && decide (s.epochState.committee.size < 2 ^ 32))
    (by decide +kernel)
  simp only [Bool.and_eq_true] at htest
  obtain ⟨⟨⟨⟨⟨hpasses, hpasses'⟩, hheld⟩, hopen⟩, htaken⟩, hsize⟩ := htest
  have hrun := Machine.Run.of_plays _
    (.of_test (countedTest 1 _) (fun _ _ => VotesCounted.of_test) _ hpasses)
  have hplays : Machine.Plays (Pacemaker.step additiveEnv) (VotesKept 1 _) _ _ :=
    .of_test (keptTest 1 _) (fun _ _ => VotesKept.of_test) _ hpasses'
  refine ⟨p₀, hstart, holdsDraft_of_test hheld, by simpa using hopen, ?_,
    noVoteLost_of_votesKept (E := additiveEnv) rfl fresh_chain hstart hrun
      (of_decide_eq_true hsize) hplays⟩
  exact forall_taken_of_test htaken

/-- The validators of a genesis document, the fourth one with the most
power. -/
def documentValidators : ValidatorSet :=
  ⟨([3, 2, 1, 0] : List UInt8).map (fun k => ⟨[k], ⟨.bls12381, [k]⟩, k.toNat + 1⟩)⟩

/-- What is left of them if the application gives all the same power: they
stay in the order of the document, and the committee is in another. -/
def oldCommittee : ValidatorSet := ⟨committee.validators.reverse⟩

/-- The genesis block of that document, with which an epoch ends: the first
round of the next one is round zero. -/
def turningGenesis : Block := (Genesis.build additiveEnv 0 0 oldCommittee committee).block

/-- The node of the third validator on it. -/
def turningStart : Except Panic Pacemaker :=
  startPacemaker additiveEnv
    (Chain.initializeStore additiveEnv turningGenesis oldCommittee committee (fun _ => true)) app
    [2] 1000000000

/-- Two blocks on it. -/
def turningBlock (timestamp : UInt64) : Block :=
  block turningGenesis timestamp (genesisEscortQC hashes turningGenesis 4) []

/-- **A quorum of valid votes is lost.** The node is in round zero and has
committed a block it got from a peer, so it keeps the proposal of another one
in round one but does not vote for it. It leads round two; the votes of the
three other validators for that proposal arrive, and it drops them as
outdated. -/
theorem three_votes_lost_in_round_zero :
    applyUpdatesInPlace sortingEnv keyLibrary (fun keys => keys) documentValidators
        [update 0 1, update 1 1, update 2 1, update 3 1] 5 = some (.ok committee, oldCommittee)
    ∧ ∃ p₀, turningStart = .ok p₀
      ∧ let b := turningBlock 2
        let s := p₀.play additiveEnv
          (.sync (turningBlock 1) (certificate (turningBlock 1) 1) :: deliver b 1)
        let inputs := threeVotes 1 (b.id hashes)
        Run additiveEnv (fun _ _ => True) p₀ s
          ∧ s.amIRoundProproser 2 = true ∧ s.HoldsDraft 1 (b.id hashes)
          ∧ (∀ index ∈ [0, 1, 3], ∃ n, TakenAt additiveEnv s inputs 1 (b.id hashes) index n)
          ∧ ¬ NoVoteLost additiveEnv s inputs 1 (b.id hashes) := by
  obtain ⟨p₀, hstart, htest⟩ := exists_of_ok (x := turningStart)
    (fun p₀ =>
      let b := turningBlock 2
      let s := p₀.play additiveEnv
        (.sync (turningBlock 1) (certificate (turningBlock 1) 1) :: deliver b 1)
      let inputs := threeVotes 1 (b.id hashes)
      s.amIRoundProproser 2
        && (s.chain.proposals (b.id hashes)).any (fun d => d.round == 1)
        && [(0, 2), (1, 5), (3, 8)].all
          (fun v => takenTest additiveEnv s inputs 1 (b.id hashes) v.1 v.2)
        && majorityTwoThird 3 s.epochState.committeeSize
        && decide (¬ rankOf 1 (b.id hashes) ≤ (s.play additiveEnv inputs).qcHigh.qc.rank))
    (by decide +kernel)
  simp only [Bool.and_eq_true] at htest
  obtain ⟨⟨⟨⟨hleads, hheld⟩, htaken⟩, hmajority⟩, hbelow⟩ := htest
  have htaken' := forall_taken_of_test htaken
  refine ⟨rfl, p₀, hstart, Machine.run_play _ _,
    hleads, holdsDraft_of_test hheld, htaken', fun hno => ?_⟩
  exact of_decide_eq_true hbelow (hno.formed [0, 1, 3] (by decide) hmajority htaken').2.2

end Testnet

end LoragonBFT
