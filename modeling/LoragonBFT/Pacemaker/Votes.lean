import LoragonBFT.Testnet

/-!
# The rounds a node votes in

A node should vote once a round. Nothing in `OnReceiveProposal` looks at the
round: a proposal is voted for when it is as high as the last block voted
for, so two blocks of one height proposed in one round are both voted for,
and an old round comes back with a new proposal.

What the round does is go up. A vote takes the node to the round after the
one voted in, `enterRound` skips lower rounds, and so a node that is only
ever given proposals of its own round or later votes in ever higher rounds –
as long as a `Regulate` does not take it back, and no round wraps.
-/

namespace LoragonBFT

variable {E : Env} {s : Pacemaker} {i : Input}

/-- The votes among the events, oldest first. -/
def sentVotes (trace : List Event) : List PMVoteMessage :=
  trace.filterMap (fun e => match e with | .broadcast (.vote v) => some v | _ => none)

/-- **No double vote**: when the block voted for changes the round has gone
up, and no round has votes for two blocks. -/
def NoDoubleVote (trace : List Event) : Prop :=
  (sentVotes trace).IsChain (fun u v => u.voteBlockID ≠ v.voteBlockID → u.voteRound < v.voteRound)
    ∧ ∀ u ∈ sentVotes trace, ∀ v ∈ sentVotes trace,
      u.voteRound = v.voteRound → u.voteBlockID = v.voteBlockID

instance (trace : List Event) : Decidable (NoDoubleVote trace) :=
  inferInstanceAs (Decidable (_ ∧ _))

/-! ## Rounds that go up -/

/-- What a step needs for the rounds to go up: a proposal is of the current
round or a later one, a `Regulate` neither lowers the round nor takes the
node out of the committee, and the round after the one at hand exists. -/
structure RoundsAscend (E : Env) (p : Pacemaker) (i : Input) : Prop where
  proposal : ∀ msg, p.Handles i (.proposal msg) → p.currentRound ≤ msg.round ∧ msg.round + 1 ≠ 0
  vote : ∀ msg, p.Handles i (.vote msg) → msg.voteRound + 1 ≠ 0
  timeout : ∀ ti rest, i = .loop .roundTimeout → p.roundTimeoutCh = ti :: rest → ti.round + 1 ≠ 0
  regulate : i = .loop .cmd → p.currentRound ≤ p.regulateRound
    ∧ ∀ bestNode es, p.core.IsEscortDraft p.regulateQC bestNode →
      newEpochState E p.chain bestNode.proposedBlock p.myPubKey = .ok (some es) →
      es.inCommittee = true

/-- A test for `RoundsAscend` on inputs that are no `Regulate`. -/
def ascendTest (p : Pacemaker) : Input → Bool
  | .loop .message => match p.inQueue.head?.map IncomingMsg.msg with
    | some (.proposal msg) => decide (p.currentRound ≤ msg.round) && decide (msg.round + 1 ≠ 0)
    | some (.vote msg) => decide (msg.voteRound + 1 ≠ 0)
    | _ => true
  | .loop .roundTimeout => p.roundTimeoutCh.head?.all (fun ti => decide (ti.round + 1 ≠ 0))
  | .loop .cmd => false
  | _ => true

theorem RoundsAscend.of_test {p : Pacemaker} {i : Input} (h : ascendTest p i = true) :
    RoundsAscend E p i where
  proposal := by
    rintro msg ⟨rfl, mi, rest, hqueue, hmsg⟩
    simpa [ascendTest, hqueue, hmsg] using h
  vote := by
    rintro msg ⟨rfl, mi, rest, hqueue, hmsg⟩
    simpa [ascendTest, hqueue, hmsg] using h
  timeout := by
    rintro ti rest rfl hhead
    simpa [ascendTest, hhead] using h
  regulate := by
    rintro rfl
    exact nomatch h

/-- The votes sent so far are of ever higher rounds, all below the current
one, and were sent by a member of the committee. -/
structure VotesAscend (c : Core) : Prop where
  ascending : (sentVotes c.trace).Pairwise (fun u v => u.voteRound < v.voteRound)
  below : ∀ v ∈ sentVotes c.trace, v.voteRound < c.currentRound
  member : sentVotes c.trace ≠ [] → c.epochState.inCommittee = true

/-- An action that sends no vote and does not lower the round. -/
theorem VotesAscend.frame {c c' : Core} (h : VotesAscend c)
    (hvotes : sentVotes c'.trace = sentVotes c.trace) (hround : c.currentRound ≤ c'.currentRound)
    (hmember : c'.epochState.inCommittee = c.epochState.inCommittee) : VotesAscend c' := by
  refine ⟨hvotes ▸ h.ascending, fun v hv => ?_, ?_⟩
  · exact UInt32.lt_of_lt_of_le (h.below v (hvotes ▸ hv)) hround
  · rw [hvotes, hmember]
    exact h.member

theorem sentVotes_append (l l' : List Event) : sentVotes (l ++ l') = sentVotes l ++ sentVotes l' :=
  List.filterMap_append

theorem sentVotes_append_of_isQuiet (l : List Event) {e : Event} (h : e.isQuiet = true) :
    sentVotes (l ++ [e]) = sentVotes l := by
  have hnone : sentVotes [e] = [] := by
    cases e with
    | broadcast m => cases m <;> first | rfl | exact nomatch h
    | _ => rfl
  rw [sentVotes_append, hnone, List.append_nil]

/-- A proposal's round is below the one a vote for it leads to. -/
theorem UInt32.lt_succ_of_ne {r : UInt32} (h : r + 1 ≠ 0) : r < r + 1 := by
  have hr : r.toNat < 2 ^ 32 := r.toNat_lt
  have hne : r.toNat ≠ 2 ^ 32 - 1 := by
    intro heq
    apply h
    apply UInt32.toNat.inj
    rw [UInt32.toNat_add, heq]
    rfl
  rw [UInt32.lt_iff_toNat_lt, UInt32.toNat_add]
  have hone : (1 : UInt32).toNat = 1 := rfl
  omega

/-- **The votes of a step that meets the condition ascend.** -/
theorem VotesAscend.step {c c' : Core} (hok : RoundsAscend E s i) (hstep : CoreStep E s i c c')
    (h : VotesAscend c) : VotesAscend c' := by
  cases hstep with
  | record e hquiet =>
    exact h.frame (sentVotes_append_of_isQuiet _ hquiet) (UInt32.le_refl _) rfl
  | vote => exact h.frame (by simp [sentVotes]) (UInt32.le_refl _) rfl
  | commitList => exact h.frame (by simp [sentVotes]) (UInt32.le_refl _) rfl
  | propose => exact h.frame (by simp [sentVotes]) (UInt32.le_refl _) rfl
  | countQCVote m signerIndex round blockID sig qc es _ _ hcounted =>
    obtain ⟨m, rfl⟩ := EpochState.addQCVote_eq hcounted
    exact h.frame rfl (UInt32.le_refl _) rfl
  | countTCVote signerIndex round sig hash tc es hcounted =>
    obtain ⟨m, rfl⟩ := EpochState.addTCVote_eq hcounted
    exact h.frame rfl (UInt32.le_refl _) rfl
  | sendVote msg v hhandles hround hmember hsame =>
    obtain ⟨hle, hne⟩ := hok.proposal msg hhandles
    have hlt := UInt32.lt_succ_of_ne hne
    have hnew : ¬ ((msg.round + 1 > 0 && msg.round + 1 < c.currentRound) = true) := by
      rw [Bool.and_eq_true, decide_eq_true_iff, decide_eq_true_iff, hsame]
      exact fun hlower => UInt32.lt_irrefl _
        (UInt32.lt_of_lt_of_le (UInt32.lt_trans hlt hlower.2) hle)
    have hvotes : sentVotes (c.trace ++ [.broadcast (.vote v)]) = sentVotes c.trace ++ [v] :=
      sentVotes_append _ _
    -- the round of the new vote is the current one or later, the rounds of the others are earlier
    have hbelow : ∀ u ∈ sentVotes c.trace, u.voteRound < msg.round := fun u hu =>
      UInt32.lt_of_lt_of_le (h.below u hu) (hsame ▸ hle)
    rw [if_neg hnew]
    refine ⟨?_, fun u hu => ?_, fun _ => hmember⟩
    · show (sentVotes (c.trace ++ [.broadcast (.vote v)])).Pairwise _
      rw [hvotes, List.pairwise_append]
      refine ⟨h.ascending, List.pairwise_singleton _ _, fun u hu w hw => ?_⟩
      rw [List.mem_singleton.mp hw, hround]
      exact hbelow u hu
    · rw [hvotes, List.mem_append, List.mem_singleton] at hu
      rcases hu with hu | rfl
      · exact UInt32.lt_trans (hbelow u hu) hlt
      · rw [hround]
        exact hlt
  | enterRound round hsource hlater hmember =>
    have hne : round ≠ 0 := by
      rcases hsource with ⟨msg, hhandles, rfl⟩ | ⟨ti, rest, hinput, hhead, rfl⟩
      · exact hok.vote msg hhandles
      · exact hok.timeout ti rest hinput hhead
    exact h.frame rfl (hlater (UInt32.pos_iff_ne_zero.mpr hne)) rfl
  | regulate bestNode es hcmd hbest hsame hes =>
    obtain ⟨hle, hin⟩ := hok.regulate hcmd
    by_cases hnone : sentVotes c.trace = []
    · refine ⟨hnone ▸ List.Pairwise.nil, fun v hv => ?_, fun hne => absurd hnone hne⟩
      exact absurd (List.ne_nil_of_mem hv) (not_not.mpr hnone)
    have hmember : es.inCommittee = true := by
      rcases hes with rfl | hnew
      · exact h.member hnone
      · exact hin bestNode es hbest hnew
    rw [if_pos hmember]
    exact ⟨h.ascending, fun v hv => UInt32.lt_of_lt_of_le (h.below v hv) (hsame ▸ hle),
      fun _ => hmember⟩
  | _ => exact h.frame rfl (UInt32.le_refl _) rfl

/-- **The votes ascend in every state a run reaches.** -/
theorem VotesAscend.run {p₀ p : Pacemaker} (hrun : Run E (RoundsAscend E) p₀ p)
    (h₀ : VotesAscend p₀.core) : VotesAscend p.core :=
  Run.core_invariant hrun h₀ fun _ _ hok _ _ _ hstep _ hc => VotesAscend.step hok hstep hc

theorem VotesAscend.noDoubleVote {c : Core} (h : VotesAscend c) : NoDoubleVote c.trace := by
  have hchain : (sentVotes c.trace).Pairwise
      (fun u v => u.voteBlockID ≠ v.voteBlockID → u.voteRound < v.voteRound) := by
    refine h.ascending.imp ?_
    exact fun hlt _ => hlt
  have hround : (sentVotes c.trace).Pairwise
      (fun u v => u.voteRound = v.voteRound → u.voteBlockID = v.voteBlockID) := by
    refine h.ascending.imp ?_
    exact fun hlt heq => absurd hlt (heq ▸ UInt32.lt_irrefl _)
  have hround' : (sentVotes c.trace).Pairwise
      (flip fun u v => u.voteRound = v.voteRound → u.voteBlockID = v.voteBlockID) := by
    refine hround.imp ?_
    exact fun huv heq => (huv heq.symm).symm
  exact ⟨hchain.isChain, fun u hu v hv =>
    List.Pairwise.forall_of_forall_of_flip (fun _ _ _ => rfl) hround hround' hu hv⟩

/-- A node that has just started has sent no vote. -/
theorem VotesAscend.start {chain : Chain} {app : App} {myPubKey : Bytes} {now : Time}
    {p : Pacemaker} (h : startPacemaker E chain app myPubKey now = .ok p) : VotesAscend p.core := by
  obtain ⟨bestNode, es, -, -, round, hcore⟩ := startPacemaker_core h
  rw [hcore]
  exact ⟨List.Pairwise.nil, fun _ hv => absurd hv List.not_mem_nil, fun hne => absurd rfl hne⟩

/-- **A node does not vote twice in a run whose rounds ascend.** -/
theorem noDoubleVote_of_roundsAscend {chain : Chain} {app : App} {myPubKey : Bytes} {now : Time}
    {p₀ p : Pacemaker} (hstart : startPacemaker E chain app myPubKey now = .ok p₀)
    (hrun : Run E (RoundsAscend E) p₀ p) : NoDoubleVote p.trace :=
  (VotesAscend.run hrun (VotesAscend.start hstart)).noDoubleVote

open Testnet in
/-- A node is given a block in round one and its child in round two. -/
theorem noDoubleVote_of_two_rounds :
    ∃ p₀, start 1 = .ok p₀
      ∧ let b := block genesis 1 genesisQC []
        let p := p₀.play env (deliver b 1 ++ deliver (block b 2 (certificate b 1) []) 2)
        (sentVotes p.trace).length = 2 ∧ Run env (RoundsAscend env) p₀ p
          ∧ NoDoubleVote p.trace := by
  obtain ⟨p₀, hstart, htest⟩ := exists_of_start (k := 1)
    (fun p₀ =>
      let b := block genesis 1 genesisQC []
      let inputs := deliver b 1 ++ deliver (block b 2 (certificate b 1) []) 2
      Machine.passes (Pacemaker.step env) ascendTest p₀ inputs
        && decide ((sentVotes (p₀.play env inputs).trace).length = 2))
    (by decide +kernel)
  obtain ⟨hpasses, hlength⟩ := Bool.and_eq_true_iff.mp htest
  have hplays : Machine.Plays (Pacemaker.step env) (RoundsAscend env) p₀ _ :=
    .of_test ascendTest (fun _ _ => RoundsAscend.of_test) _ hpasses
  have hrun := Machine.Run.of_plays _ hplays
  exact ⟨p₀, hstart, of_decide_eq_true hlength, hrun, noDoubleVote_of_roundsAscend hstart hrun⟩

/-! ## Two votes in one round -/

open Testnet in
/-- **Two blocks of height one in round one are both voted for.** -/
theorem two_votes_in_round_one :
    ∃ p₀, start 1 = .ok p₀
      ∧ let p := p₀.play env (deliver (block genesis 1 genesisQC []) 1
          ++ deliver (block genesis 2 genesisQC []) 1)
        Run env (fun _ _ => True) p₀ p ∧ p.epochState.epoch = p₀.epochState.epoch
          ∧ ¬ NoDoubleVote p.trace := by
  obtain ⟨p₀, hstart, htest⟩ := exists_of_start (k := 1)
    (fun p₀ =>
      let p := p₀.play env (deliver (block genesis 1 genesisQC []) 1
        ++ deliver (block genesis 2 genesisQC []) 1)
      decide (p.epochState.epoch = p₀.epochState.epoch ∧ ¬ NoDoubleVote p.trace))
    (by decide +kernel)
  exact ⟨p₀, hstart, Machine.run_play _ _,
    of_decide_eq_true htest⟩

end LoragonBFT
