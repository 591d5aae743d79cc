import LoragonBFT.Pacemaker.Marks
import LoragonBFT.Testnet
import Mathlib.Data.Prod.Lex

/-!
# The highest certificate

`QCHigh` is a certificate together with the draft of the block it certifies,
and `UpdateQCHigh` replaces it by a certificate with a higher number, or with
the same number and a later round. It reads the second number and round from
the draft and not from the certificate, so the order it follows is the
lexicographic one only as long as the two agree.

They agree wherever the draft was found. Two callers look the draft up by
the certificate and pass on what they get, which may be nothing:
`OnReceiveTimeout` does so with the certificate its sender's last vote
completes and with the one the message brings along. A certificate without a
draft is turned down if its number is higher, but taken if its number is that
of the current draft and its round is later. And `Regulate` goes by the
number alone, so it falls back to the certificate of the best block from one
of the same number and a later round.

`CertificatesKnown` says that none of this happens. What makes the lookup in
`OnReceiveTimeout` delicate is that the blocks committed on the way prune
drafts, among them possibly the one of the certificate that is looked up
last; such a certificate is below the highest one by then
(`LastVoteCollected.lookup`) and is turned down.
-/

namespace LoragonBFT

variable {E : Env} {s : Pacemaker} {i : Input}

/-- **The certificate and its node agree.** -/
def DraftQC.WellFormed (H : Hashes) (q : DraftQC) : Prop :=
  ∃ node, q.qcNode = some node ∧ node.proposedBlock.id H = q.qc.blockID
    ∧ node.height = q.qc.number ∧ node.round = q.qc.round

/-- The place of a certificate: its number, and then its round. -/
def QuorumCert.rank (qc : QuorumCert) : ℕ ×ₗ ℕ := toLex (qc.number.toNat, qc.round.toNat)

variable {qc : QuorumCert} {H : Hashes}

theorem QuorumCert.rank_le {qc' : QuorumCert} :
    qc.rank ≤ qc'.rank
      ↔ qc.number < qc'.number ∨ qc.number = qc'.number ∧ qc.round ≤ qc'.round := by
  unfold QuorumCert.rank
  rw [Prod.Lex.toLex_le_toLex, UInt32.toNat_inj]
  exact Iff.rfl

/-! ## One action -/

/-- A certificate that replaces a well-formed one is above it. -/
theorem DraftQC.Replaces.rank_le {q q₀ : DraftQC} (h : q.Replaces q₀) (hq₀ : q₀.WellFormed H) :
    q₀.qc.rank ≤ q.qc.rank := by
  rw [QuorumCert.rank_le]
  rcases h with ⟨-, hnumber⟩ | ⟨node, hnode, hnumber, hround⟩
  · exact .inl hnumber
  · obtain ⟨node', hnode', -, hheight, hround'⟩ := hq₀
    obtain rfl := Option.some.inj (hnode.symm.trans hnode')
    exact .inr ⟨(hnumber.trans hheight).symm, UInt32.le_of_lt (hround' ▸ hround)⟩

/-- Without a node of its own a certificate replaces a well-formed one by a
later round only. -/
theorem DraftQC.Replaces.overtakes {q₀ : DraftQC} (h : (⟨none, qc⟩ : DraftQC).Replaces q₀)
    (hq₀ : q₀.WellFormed H) :
    qc.number = q₀.qc.number ∧ q₀.qc.round < qc.round := by
  rcases h with ⟨hnode, -⟩ | ⟨node, hnode, hnumber, hround⟩
  · exact nomatch hnode
  · obtain ⟨node', hnode', -, hheight, hround'⟩ := hq₀
    obtain rfl := Option.some.inj (hnode.symm.trans hnode')
    exact ⟨hnumber.trans hheight, hround' ▸ hround⟩

/-- What `GetDraftByEscortQC` finds agrees with the certificate. -/
theorem wellFormed_of_isEscortDraft {R : DraftInfo → DraftInfo → Prop} {c : Core}
    (htree : DraftTree H R c) {d : DraftBlock} (hd : c.IsEscortDraft qc d) :
    (⟨some d, qc⟩ : DraftQC).WellFormed H := by
  have hin := htree.inTree_of_isEscortDraft hd
  refine ⟨d, rfl, hin.keyed, ?_, ?_⟩
  · rw [hin.height_eq d.toDraftInfo List.mem_cons_self, ← Block.number_id H, hin.keyed]
    rfl
  · rcases hd with ⟨-, hround⟩ | ⟨-, blk, ref, -, rfl⟩
    · exact hround
    · rfl

/-- A draft found by its identifier agrees with a certificate of it in its
round. -/
theorem wellFormed_of_isDraft {R : DraftInfo → DraftInfo → Prop} {c : Core}
    (htree : DraftTree H R c) {id : Bytes32} {d : DraftBlock} (hd : c.IsDraft id d)
    (hid : qc.blockID = id) (hround : d.round = qc.round) :
    (⟨some d, qc⟩ : DraftQC).WellFormed H := by
  have hin := htree.inTree_of_isDraft hd
  refine ⟨d, rfl, hin.keyed.trans hid.symm, ?_, hround⟩
  rw [hin.height_eq d.toDraftInfo List.mem_cons_self, ← Block.number_id H, hin.keyed, ← hid]
  rfl

/-! ## The condition -/

/-- A block can be looked up with a round: there is a draft of that round, or
the block is stored. -/
def Core.knows (c : Core) (id : Bytes32) (round : UInt32) : Bool :=
  (c.proposals id).any (fun d => d.round == round) || (c.kv.blocks id).isSome

theorem Core.exists_isEscortDraft {c : Core} (h : c.knows qc.blockID qc.round = true) :
    ∃ d, c.IsEscortDraft qc d := by
  by_cases hdraft : ∃ d, c.proposals qc.blockID = some d ∧ d.round = qc.round
  · obtain ⟨d, hd, hround⟩ := hdraft
    exact ⟨d, .inl ⟨hd, hround⟩⟩
  · have hother : ∀ d, c.proposals qc.blockID = some d → d.round ≠ qc.round :=
      fun d hd hround => hdraft ⟨d, hd, hround⟩
    rcases Bool.or_eq_true_iff.mp h with hany | hstored
    · obtain ⟨d, hd, hround⟩ := (Option.any_eq_true _ _).mp hany
      exact absurd (eq_of_beq hround) (hother d hd)
    · obtain ⟨blk, hblk⟩ := Option.isSome_iff_exists.mp hstored
      exact ⟨.stored 0 blk qc.number qc.round, .inr ⟨hother, blk, 0, hblk, rfl⟩⟩

/-- What a step needs for the highest certificate to keep its node and its
place. The numbers do not wrap. The blocks a timeout message is about, that
of the sender's last vote and that of the certificate it brings, are known in
their round, unless they do not have the number of a certificate they might
replace and a later round. And `Regulate` does not find a best block of the
same number in an earlier round. -/
structure CertificatesKnown (p : Pacemaker) (i : Input) : Prop extends NumbersGrow p i where
  lastVote : ∀ msg, p.Handles i (.timeout msg) →
    p.core.knows msg.lastVoteBlockID msg.lastVoteRound = true
      ∨ ¬ (number msg.lastVoteBlockID = p.qcHigh.qc.number
        ∧ p.qcHigh.qc.round < msg.lastVoteRound)
  carried : ∀ msg qc, p.Handles i (.timeout msg) → msg.decodedQCHigh = some qc →
    p.core.knows qc.blockID qc.round = true
      ∨ ¬ (qc.number = p.qcHigh.qc.number ∧ p.qcHigh.qc.round < qc.round)
        ∧ ¬ (qc.number = number msg.lastVoteBlockID ∧ msg.lastVoteRound < qc.round)
  regulate : i = .loop .cmd → p.wantsRegulate = true →
    p.chain.bestQC.number = p.qcHigh.qc.number → p.qcHigh.qc.round ≤ p.chain.bestQC.round

/-! ## A step -/

/-- The highest certificate has a node and has not gone down. -/
structure Ordered (E : Env) (m₀ m : Marks) : Prop where
  wellFormed : m.qcHigh.WellFormed E.H
  rank_le : m₀.qcHigh.qc.rank ≤ m.qcHigh.qc.rank

theorem Ordered.replace {m : Marks} {q : DraftQC} (h : m.qcHigh.WellFormed E.H)
    (hreplaces : q.Replaces m.qcHigh) (hq : q.WellFormed E.H) :
    Ordered E m { m with qcHigh := q } := ⟨hq, hreplaces.rank_le h⟩

/-- **An action keeps the order**, under the condition. -/
theorem MarkStep.ordered {m m' : Marks} (hok : CertificatesKnown s i)
    (htree : DraftTree E.H (BlockLink E.H) s.core) (hstep : MarkStep E s i m m')
    (h : m.qcHigh.WellFormed E.H) : Ordered E m m' := by
  cases hstep with
  | vote msg b qc es hhandles hdraft hround hformed hreplaces =>
    obtain ⟨hid, hround', -⟩ := EpochState.eq_of_addQCVote hformed
    exact .replace h hreplaces (wellFormed_of_isDraft htree hdraft hid (hround.trans hround'.symm))
  | update m c qc bPrime hsteps hsource hdraft hreplaces =>
    have htree' := blockTree_steps hok.toNumbersGrow htree hsteps
    exact .replace h hreplaces (wellFormed_of_isEscortDraft htree' hdraft)
  | lastVote msg node qc es hhandles hformed hfound hmissing hreplaces =>
    refine .replace h hreplaces ?_
    cases node with
    | some d => exact wellFormed_of_isEscortDraft htree (hfound d rfl)
    | none =>
      obtain ⟨hid, hround, -⟩ := EpochState.eq_of_addQCVote hformed
      have hovertakes := hreplaces.overtakes h
      exfalso
      rcases hok.lastVote msg hhandles with hknown | hlower
      · rw [← hid, ← hround] at hknown
        obtain ⟨d, hd⟩ := Core.exists_isEscortDraft hknown
        exact hmissing rfl d hd
      · rw [← hid, ← hround] at hlower
        exact hlower hovertakes
  | timeout m msg node qc c hhandles hcarried hsteps hbase hfound hmissing hreplaces =>
    refine .replace h hreplaces ?_
    cases node with
    | some d =>
      exact wellFormed_of_isEscortDraft (blockTree_steps hok.toNumbersGrow htree hsteps)
        (hfound d rfl)
    | none =>
      obtain ⟨hnumber, hround⟩ := hreplaces.overtakes h
      exfalso
      rcases hok.carried msg qc hhandles hcarried with hknown | ⟨hhigh, hlast⟩
      · -- the block was known, and was pruned since
        obtain ⟨d, hd⟩ := Core.exists_isEscortDraft hknown
        exact UInt32.lt_irrefl _ (hnumber ▸ hmissing rfl d hd)
      · rcases hbase with hbase | ⟨hid, hround'⟩
        · rw [hbase] at hnumber hround
          exact hhigh ⟨hnumber, hround⟩
        · rw [QuorumCert.number, QuorumCert.number, hid] at hnumber
          rw [hround'] at hround
          exact hlast ⟨hnumber, hround⟩
  | commit => exact ⟨h, le_refl _⟩
  | sync => exact ⟨h, le_refl _⟩
  | regulate bestNode hcmd hwants hdraft =>
    refine ⟨wellFormed_of_isEscortDraft htree hdraft, ?_⟩
    show s.qcHigh.qc.rank ≤ s.regulateQC.rank
    unfold Pacemaker.regulateQC
    split
    · exact le_refl _
    · rename_i hbehind
      rw [QuorumCert.rank_le]
      rcases UInt32.lt_or_eq_of_le (UInt32.not_lt.mp hbehind) with hlt | heq
      · exact .inl hlt
      · exact .inr ⟨heq, hok.regulate hcmd hwants heq.symm⟩

theorem MarkSteps.ordered {m m' : Marks} (hok : CertificatesKnown s i)
    (htree : DraftTree E.H (BlockLink E.H) s.core) (hsteps : MarkSteps E s i m m')
    (h : m.qcHigh.WellFormed E.H) : Ordered E m m' := by
  induction hsteps with
  | refl => exact ⟨h, le_refl _⟩
  | tail _ hlast ih =>
    have hordered := hlast.ordered hok htree ih.wellFormed
    exact ⟨hordered.wellFormed, ih.rank_le.trans hordered.rank_le⟩

/-- **A step keeps the node of the highest certificate and does not move it
down.** -/
theorem Pacemaker.step_ordered (hok : CertificatesKnown s i)
    (htree : DraftTree E.H (BlockLink E.H) s.core) (hs : s.qcHigh.WellFormed E.H) :
    Ordered E s.marks (s.step E i).marks :=
  MarkSteps.ordered hok htree (s.step_marks E i htree) hs

/-! ## A run -/

/-- The certificate a node starts with is that of the best block, and it has
its node. -/
theorem wellFormed_startPacemaker {chain : Chain} {app : App} {myPubKey : Bytes} {now : Time}
    {p : Pacemaker} (hchain : chain.Fresh E.H)
    (h : startPacemaker E chain app myPubKey now = .ok p) : p.qcHigh.WellFormed E.H := by
  obtain ⟨bestNode, es, beat, hbest, -, hstanding⟩ := startPacemaker_standing h
  have hhigh : p.qcHigh = ⟨some bestNode, chain.bestQC⟩ :=
    congrArg (fun st : Standing => st.qcHigh) hstanding
  obtain ⟨blk, hblk, rfl⟩ := hchain.stored_of_lookup hbest
  rw [hhigh]
  exact ⟨_, rfl, hchain.stored _ _ hblk, rfl, rfl⟩

/-- **The highest certificate is well formed and never goes down**, in every
run whose steps all meet the condition. -/
theorem qcHigh_ordered_of_certificatesKnown {chain : Chain} {app : App} {myPubKey : Bytes}
    {now : Time} {p₀ p : Pacemaker} (hchain : chain.Fresh E.H)
    (hstart : startPacemaker E chain app myPubKey now = .ok p₀)
    (hrun : Run E CertificatesKnown p₀ p) :
    p.qcHigh.WellFormed E.H
      ∧ ∀ p', Run E CertificatesKnown p p' → p.qcHigh.qc.rank ≤ p'.qcHigh.qc.rank := by
  -- what a step keeps: the tree of drafts, the node, and the place from which on we look
  have hstep : ∀ (rank₀ : ℕ ×ₗ ℕ) (q : Pacemaker) (i : Input), CertificatesKnown q i →
      (DraftTree E.H (BlockLink E.H) q.core ∧ q.qcHigh.WellFormed E.H ∧ rank₀ ≤ q.qcHigh.qc.rank) →
      DraftTree E.H (BlockLink E.H) (q.step E i).core ∧ (q.step E i).qcHigh.WellFormed E.H
        ∧ rank₀ ≤ (q.step E i).qcHigh.qc.rank := by
    rintro rank₀ q i hok ⟨htree, hq, hrank⟩
    have hordered : Ordered E q.marks (q.step E i).marks := q.step_ordered hok htree hq
    exact ⟨blockTree_steps hok.toNumbersGrow htree (q.step_refines E i), hordered.wellFormed,
      hrank.trans hordered.rank_le⟩
  obtain ⟨htree, hp, -⟩ := Machine.Run.invariant hrun
    ⟨DraftTree.start hchain hstart, wellFormed_startPacemaker hchain hstart, le_refl _⟩
    (hstep p₀.qcHigh.qc.rank)
  refine ⟨hp, fun p' hrun' => ?_⟩
  exact (Machine.Run.invariant hrun' ⟨htree, hp, le_refl _⟩ (hstep p.qcHigh.qc.rank)).2.2

/-! ## Runs -/

/-- A test for `CertificatesKnown`. -/
def knownTest (p : Pacemaker) : Input → Bool
  | .loop .message => match p.inQueue.head?.map IncomingMsg.msg with
    | some (.proposal msg) => msg.decodedBlock.all (fun blk => blk.number != 0)
    | some (.timeout msg) =>
      (p.core.knows msg.lastVoteBlockID msg.lastVoteRound
        || decide (¬ (number msg.lastVoteBlockID = p.qcHigh.qc.number
          ∧ p.qcHigh.qc.round < msg.lastVoteRound)))
      && msg.decodedQCHigh.all (fun qc => p.core.knows qc.blockID qc.round
        || decide (¬ (qc.number = p.qcHigh.qc.number ∧ p.qcHigh.qc.round < qc.round)
          ∧ ¬ (qc.number = number msg.lastVoteBlockID ∧ msg.lastVoteRound < qc.round)))
    | _ => true
  | .loop .beat => decide (p.qcHigh.qc.blockID ≠ 0 ∧ p.qcHigh.qc.number + 1 ≠ 0)
  | .loop .cmd => decide (p.chain.bestQC.number = p.qcHigh.qc.number →
      p.qcHigh.qc.round ≤ p.chain.bestQC.round)
  | _ => true

theorem CertificatesKnown.of_test {p : Pacemaker} {i : Input} (h : knownTest p i = true) :
    CertificatesKnown p i where
  proposal := by
    rintro msg blk ⟨rfl, mi, rest, hqueue, hmsg⟩ hdecoded
    simpa [knownTest, hqueue, hmsg, hdecoded] using h
  beat := by
    rintro rfl
    exact of_decide_eq_true h
  lastVote := by
    rintro msg ⟨rfl, mi, rest, hqueue, hmsg⟩
    unfold knownTest at h
    rw [hqueue, List.head?_cons, Option.map_some, hmsg] at h
    exact (Bool.or_eq_true_iff.mp (Bool.and_eq_true_iff.mp h).1).imp_right of_decide_eq_true
  carried := by
    rintro msg qc ⟨rfl, mi, rest, hqueue, hmsg⟩ hcarried
    unfold knownTest at h
    rw [hqueue, List.head?_cons, Option.map_some, hmsg] at h
    have hqc := (Bool.and_eq_true_iff.mp h).2
    rw [hcarried] at hqc
    exact (Bool.or_eq_true_iff.mp hqc).imp_right of_decide_eq_true
  regulate := by
    rintro rfl -
    exact of_decide_eq_true h

namespace Testnet

/-- A block, its child, and a timeout message that brings the certificate of
the child: it becomes the highest one. -/
theorem qcHigh_ordered_of_timeout :
    ∃ p₀, start 1 = .ok p₀
      ∧ let b := block genesis 1 genesisQC []
        let b' := block b 2 (certificate b 1) []
        let p := p₀.play env (deliver b 1 ++ deliver b' 2)
        let p' := p.play env (deliverTimeout 0 5 (certificate b' 2))
        p.qcHigh.qc = certificate b 1 ∧ p'.qcHigh.qc = certificate b' 2
          ∧ Run env CertificatesKnown p₀ p ∧ Run env CertificatesKnown p p'
          ∧ p.qcHigh.WellFormed hashes ∧ p.qcHigh.qc.rank ≤ p'.qcHigh.qc.rank := by
  obtain ⟨p₀, hstart, htest⟩ := exists_of_start (k := 1)
    (fun p₀ =>
      let b := block genesis 1 genesisQC []
      let b' := block b 2 (certificate b 1) []
      let inputs := deliver b 1 ++ deliver b' 2
      let inputs' := deliverTimeout 0 5 (certificate b' 2)
      let p := p₀.play env inputs
      Machine.passes (Pacemaker.step env) knownTest p₀ inputs
        && Machine.passes (Pacemaker.step env) knownTest p inputs'
        && decide (p.qcHigh.qc = certificate b 1)
        && decide ((p.play env inputs').qcHigh.qc = certificate b' 2))
    (by decide +kernel)
  simp only [Bool.and_eq_true] at htest
  obtain ⟨⟨⟨hpasses, hpasses'⟩, hqc⟩, hqc'⟩ := htest
  have hrun := Machine.Run.of_plays _
    (.of_test knownTest (fun _ _ => CertificatesKnown.of_test) _ hpasses)
  have hrun' := Machine.Run.of_plays _
    (.of_test knownTest (fun _ _ => CertificatesKnown.of_test) _ hpasses')
  have hordered := qcHigh_ordered_of_certificatesKnown (E := env) fresh_chain hstart hrun
  exact ⟨p₀, hstart, of_decide_eq_true hqc, of_decide_eq_true hqc', hrun, hrun', hordered.1,
    hordered.2 _ hrun'⟩

/-- A certificate nobody made, for no block there is. -/
def strayQC : QuorumCert := ⟨1, 7, 5, [], .new 4⟩

/-- The first block comes from a peer and calls for a `Regulate`; before the
main loop gets to it, a timeout message brings a certificate of that block in
a later round. -/
def beforeRegulate : List Input :=
  let b := block genesis 1 genesisQC []
  [.sync b (certificate b 1), .loop .newTx] ++ deliverTimeout 0 1 (certificate b 9)

/-- **The highest certificate loses its node and goes down.** One timeout
message of one member brings a certificate of no known block, which is taken
because its round is later. And `Regulate` goes back to the certificate of the
best block from one of the same number in a later round. -/
theorem qcHigh_loses_node_and_goes_down :
    ∃ p₀, start 1 = .ok p₀
      ∧ (let p := p₀.play env (deliverTimeout 0 1 strayQC)
        Run env (fun _ _ => True) p₀ p ∧ ¬ p.qcHigh.WellFormed hashes)
      ∧ let p := p₀.play env beforeRegulate
        let p' := p.play env [.loop .cmd]
        Run env (fun _ _ => True) p₀ p ∧ Run env (fun _ _ => True) p p'
          ∧ ¬ p.qcHigh.qc.rank ≤ p'.qcHigh.qc.rank := by
  obtain ⟨p₀, hstart, htest⟩ := exists_of_start (k := 1)
    (fun p₀ =>
      let p := p₀.play env beforeRegulate
      let p' := p.play env [.loop .cmd]
      (p₀.play env (deliverTimeout 0 1 strayQC)).qcHigh.qcNode.isNone
        && decide (p'.qcHigh.qc.number = p.qcHigh.qc.number
          ∧ p'.qcHigh.qc.round < p.qcHigh.qc.round))
    (by decide +kernel)
  obtain ⟨hnone, hlower⟩ := Bool.and_eq_true_iff.mp htest
  obtain ⟨hnumber, hround⟩ := of_decide_eq_true hlower
  have hrun : ∀ (p : Pacemaker) inputs, Run env (fun _ _ => True) p (p.play env inputs) :=
    fun p inputs => Machine.run_play _ _
  refine ⟨p₀, hstart, ⟨hrun _ _, ?_⟩, hrun _ _, hrun _ _, ?_⟩
  · rintro ⟨node, hnode, -⟩
    rw [Option.isNone_iff_eq_none.mp hnone] at hnode
    exact nomatch hnode
  · rw [QuorumCert.rank_le]
    rintro (hlt | ⟨-, hle⟩)
    · exact UInt32.lt_irrefl _ (hnumber ▸ hlt)
    · exact UInt32.lt_irrefl _ (UInt32.lt_of_lt_of_le hround hle)

end Testnet

end LoragonBFT
