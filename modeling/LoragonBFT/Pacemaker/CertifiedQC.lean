import LoragonBFT.Pacemaker.HighestQC
import LoragonBFT.Pacemaker.Proposers
import LoragonBFT.TimeoutFormation

/-!
# The highest certificate is certified

A node builds its next block on `QCHigh`, so a certificate that ends up there
had better be one that a quorum made. Where it comes from decides whether
anybody has looked:

- a certificate the node completes itself is made of votes it checked, and
  verifies (`EpochState.addQCVote_holds`);
- one that comes with a proposal passed `ValidateQC`, now or – the cache
  knows certificates by their digest – earlier;
- one that comes with a timeout message is taken as it is;
- `Regulate` takes that of the best block, which a child block carried, or
  which came with a block from a peer and was looked at if the block was
  recent.

And `VerifyQC` never looks at the epoch of a certificate, so what was
verified with the committee in force may name another epoch.

`CertificatesVerify` is the condition that closes these gaps: what comes with
a timeout message or a peer's block verifies, the epochs are right, and no
two certificates share a digest. Under it the invariant (`Vetted`) is that
everything a certificate can be taken from – the cache, the drafts, the votes
collected, the best block – holds certificates that verify with a committee
of their epoch.
-/

namespace LoragonBFT

/-! ## Vouching for a certificate -/

variable {qc : QuorumCert} {round : UInt32} {p : Pacemaker}

/-- What verifies on some block verifies on every block with the identifier
the certificate names: past the first two blocks the block is not
consulted. -/
theorem Block.verifyQC_of_id {H : Hashes} {B : Bls} {b b' : Block} {committee : ValidatorSet}
    (h : b.verifyQC H B qc committee = .ok (true, none)) (hid : b'.id H = qc.blockID) :
    b'.verifyQC H B qc committee = .ok (true, none) := by
  rw [verifyQC_eq_true_iff] at h ⊢
  refine h.imp_left fun ⟨hid', hnumber⟩ => ⟨hid, ?_⟩
  rwa [← number_id H b', hid, ← hid', number_id]

section

variable (E : Env) (C : UInt64 → ValidatorSet → Prop) (opening : QuorumCert)

/-- **A certificate somebody has looked at**: the one the chain was opened
with, or one that verifies with a committee of its epoch. -/
def Vouched (qc : QuorumCert) : Prop :=
  qc = opening ∨ ∃ committee, C qc.epoch committee
    ∧ ∀ b : Block, b.id E.H = qc.blockID → b.verifyQC E.H E.B qc committee = .ok (true, none)

/-- A draft stands on its parent and carries a certificate somebody has
looked at. -/
structure VettedLink (d parent : DraftInfo) : Prop extends BlockLink E.H d parent where
  vouched : Vouched E C opening d.proposedBlock.qc

/-- **Everything a certificate can be taken from has been looked at**: the
drafts, the cache, whose digests name one certificate each, and the votes
collected. -/
structure Vetted (names : Bytes32 → QuorumCert) (c : Core) : Prop where
  tree : DraftTree E.H (VettedLink E C opening) c
  cached : ∀ x ∈ c.validQCs, Vouched E C opening (names x)
  votes : ∃ es received, es.committee = c.epochState.committee
    ∧ c.epochState.qcVoteManager.Holds E.B es received

/-- So have the two certificates a node steers by. -/
structure VouchedMarks (m : Marks) : Prop where
  high : Vouched E C opening m.qcHigh.qc
  best : Vouched E C opening m.bestQC

end

/-- The certificate names the epoch the node is in, and verifies with its
committee. -/
def Pacemaker.Verifies (E : Env) (p : Pacemaker) (qc : QuorumCert) : Prop :=
  qc.epoch = p.epochState.epoch ∧ ∀ b : Block, b.id E.H = qc.blockID →
    b.verifyQC E.H E.B qc p.epochState.committee = .ok (true, none)

/-- What a step needs for the highest certificate to be certified. The
committee has BLS keys and fewer than `2 ^ 32` members. A certificate that
comes with a proposal is the only one with its digest, and names the epoch
the node is in, unless the node has it already. One that comes with a timeout
message verifies, unless it is not above the highest one. One that comes with
a block from a peer verifies. -/
structure CertificatesVerify (E : Env) (names : Bytes32 → QuorumCert) (p : Pacemaker) (i : Input) :
    Prop extends CertificatesKnown p i where
  size_lt : p.epochState.committee.size < 2 ^ 32
  bls : ∀ v ∈ p.epochState.committee.validators, v.pubKey.type = KeyType.bls12381
  received : ∀ msg blk, p.Handles i (.proposal msg) → msg.decodedBlock = some blk →
    names (qcID E.H blk.qc) = blk.qc ∧ (blk.qc.epoch = p.epochState.epoch
      ∨ blk.qc = p.qcHigh.qc ∨ blk.qc = p.chain.bestQC)
  offered : ∀ msg qc, p.Handles i (.timeout msg) → msg.decodedQCHigh = some qc →
    qc.rank ≤ p.qcHigh.qc.rank ∨ p.Verifies E qc
  synced : ∀ blk qc, i = .sync blk qc → names (qcID E.H qc) = qc ∧ p.Verifies E qc

section

variable {E : Env} {C : UInt64 → ValidatorSet → Prop} {opening : QuorumCert}
  {names : Bytes32 → QuorumCert} {s : Pacemaker} {i : Input}

theorem Vouched.of_verifies (hC : C s.epochState.epoch s.epochState.committee)
    (h : s.Verifies E qc) : Vouched E C opening qc :=
  .inr ⟨s.epochState.committee, by rw [h.1]; exact hC, h.2⟩

/-- The drafts are still a tree when their certificates are forgotten. -/
theorem DraftTree.blockLink {c : Core} (h : DraftTree E.H (VettedLink E C opening) c) :
    DraftTree E.H (BlockLink E.H) c :=
  ⟨h.stored, h.keyed, h.height_eq, fun id d hd => (h.linked id d hd).imp fun _ _ hlink => hlink.1⟩

/-! ## Votes -/

variable {es : EpochState} {index : UInt32} {blockID : Bytes32}

theorem lt_size_of_addQCVote {B : Bls} {es' : EpochState} {sig : Bytes} {qc : Option QuorumCert}
    (h : es.addQCVote B index round blockID sig = .ok (qc, es')) :
    index.toNat < es.committee.size := by
  by_contra hout
  have hnone : es.committee.validators[index.toNat]? = none :=
    List.getElem?_eq_none (Nat.not_lt.mp hout)
  unfold EpochState.addQCVote EpochState.verifyVote at h
  rw [hnone] at h
  exact nomatch h

/-- **Counting a vote**: what is held is still what was received, and a
certificate that is completed verifies. -/
theorem votes_addQCVote (hB : E.B.Aggregates) {es' : EpochState} (hn : es.committee.size < 2 ^ 32)
    (hbls : ∀ v ∈ es.committee.validators, v.pubKey.type = KeyType.bls12381)
    (h : ∃ es₀ received, es₀.committee = es.committee
      ∧ es.qcVoteManager.Holds E.B es₀ received) {sig : Bytes} {qc : Option QuorumCert}
    (hcount : es.addQCVote E.B index round blockID sig = .ok (qc, es')) :
    (∃ es₀ received, es₀.committee = es'.committee ∧ es'.qcVoteManager.Holds E.B es₀ received)
      ∧ ∀ q, qc = some q → ∀ b : Block, b.id E.H = q.blockID →
        b.verifyQC E.H E.B q es.committee = .ok (true, none) := by
  obtain ⟨es₀, received, hcommittee, hholds⟩ := h
  rw [← hcommittee] at hn hbls
  obtain ⟨qc', next, hcall, hcommittee', hholds', -, hmade⟩ :=
    EpochState.addQCVote_holds (H := E.H) hB hn hbls hcommittee.symm hholds
      (w := ⟨index, round, blockID, sig⟩) (hcommittee ▸ lt_size_of_addQCVote hcount)
  obtain ⟨rfl, rfl⟩ := Prod.mk.inj (Except.ok.inj (hcount.symm.trans hcall))
  refine ⟨⟨es₀, _, hcommittee'.symm, hholds'⟩, fun q hq b hb => ?_⟩
  rw [← hcommittee]
  have hq' := (hmade q hq).1
  exact hq'.verifies b (hb.trans hq'.blockID_eq)

/-- A completed certificate has been looked at. -/
theorem Vouched.of_formed (hB : E.B.Aggregates) (hok : CertificatesVerify E names s i)
    (hC : C s.epochState.epoch s.epochState.committee) (hs : Vetted E C opening names s.core)
    {sig : Bytes}
    (hformed : s.epochState.addQCVote E.B index round blockID sig = .ok (some qc, es)) :
    Vouched E C opening qc := by
  have hverifies := (votes_addQCVote hB hok.size_lt hok.bls hs.votes hformed).2 qc rfl
  exact .of_verifies hC ⟨(EpochState.eq_of_addQCVote hformed).2.2, hverifies⟩

/-! ## An action on the core -/

/-- What holds in the middle of a step: the node is in the epoch it was in
when the step began, unless this is a `Regulate`. -/
structure VettedIn (E : Env) (C : UInt64 → ValidatorSet → Prop) (opening : QuorumCert)
    (names : Bytes32 → QuorumCert) (s : Pacemaker) (i : Input) (c : Core) : Prop
    extends Vetted E C opening names c where
  epoch : i ≠ .loop .cmd → c.epochState.epoch = s.epochState.epoch
    ∧ c.epochState.committee = s.epochState.committee

/-- **An action keeps everything looked at**, under the condition. -/
theorem VettedIn.step {c c' : Core} (hB : E.B.Aggregates) (hok : CertificatesVerify E names s i)
    (hC : C s.epochState.epoch s.epochState.committee) (hs : Vetted E C opening names s.core)
    (hmarks : VouchedMarks E C opening s.marks) (hstep : CoreStep E s i c c')
    (h : VettedIn E C opening names s i c) : VettedIn E C opening names s i c' := by
  have htree : DraftTree E.H (VettedLink E C opening) c' := by
    refine DraftTree.step hstep ?_ ?_ hs.tree h.tree
    · intro msg blk parent bnew haccepted hvalid hparent
      refine ⟨.of_accepted hok.toNumbersGrow haccepted hparent, ?_⟩
      have hnamed := (hok.received msg blk haccepted.handles haccepted.decoded).1
      obtain ⟨ref, rfl⟩ := haccepted.bnew_eq
      exact hnamed ▸ h.cached _ hvalid
    · intro parent d p timestamp round txs msg hbeat hescort hparent hd _
      refine ⟨.of_proposed hok.toNumbersGrow hbeat hparent hd, ?_⟩
      rw [hd]
      exact hmarks.high
  cases hstep with
  | cacheQC b qc hverified hsource =>
    refine ⟨⟨htree, fun x hx => ?_, h.votes⟩, h.epoch⟩
    rcases mem_of_mem_lruAdd hx with rfl | hold
    · rcases hsource with ⟨msg, blk, hhandles, hdecoded, rfl⟩ | ⟨blk, hsync⟩
      · obtain ⟨hnamed, hepoch⟩ := hok.received msg blk hhandles hdecoded
        rw [hnamed]
        rcases hepoch with hepoch | hhigh | hbest
        · refine .of_verifies hC ⟨hepoch, fun b' hb' => ?_⟩
          have hinput : i ≠ .loop .cmd := by
            rw [hhandles.1]
            exact nofun
          rw [(h.epoch hinput).2] at hverified
          exact Block.verifyQC_of_id hverified hb'
        · rw [hhigh]
          exact hmarks.high
        · rw [hbest]
          exact hmarks.best
      · obtain ⟨hnamed, hverifies⟩ := hok.synced blk qc hsync
        rw [hnamed]
        exact .of_verifies hC hverifies
    · exact h.cached x hold
  | countQCVote m signerIndex round blockID sig qc es hhandles hcarried hcounted =>
    have hinput : i ≠ .loop .cmd := by
      rw [hhandles.1]
      exact nofun
    have hcommittee := (h.epoch hinput).2
    have hvotes := (votes_addQCVote hB (hcommittee ▸ hok.size_lt) (hcommittee ▸ hok.bls) h.votes
      hcounted).1
    obtain ⟨manager, rfl⟩ := EpochState.addQCVote_eq hcounted
    exact ⟨⟨htree, h.cached, hvotes⟩, h.epoch⟩
  | countTCVote signerIndex round sig hash tc es hcounted =>
    obtain ⟨manager, rfl⟩ := EpochState.addTCVote_eq hcounted
    exact ⟨⟨htree, h.cached, h.votes⟩, h.epoch⟩
  | regulate bestNode es hcmd hbest hround hes =>
    refine ⟨⟨htree, h.cached, ?_⟩, fun hinput => absurd hcmd hinput⟩
    rcases hes with rfl | hes
    · exact h.votes
    · exact ⟨es, [], rfl, newEpochState_fresh hes ▸ .new E.B es⟩
  | _ => exact ⟨⟨htree, h.cached, h.votes⟩, h.epoch⟩

theorem VettedIn.steps {c : Core} (hB : E.B.Aggregates) (hok : CertificatesVerify E names s i)
    (hC : C s.epochState.epoch s.epochState.committee) (hs : Vetted E C opening names s.core)
    (hmarks : VouchedMarks E C opening s.marks) (hsteps : CoreSteps E s i s.core c) :
    VettedIn E C opening names s i c := by
  induction hsteps with
  | refl => exact ⟨hs, fun _ => ⟨rfl, rfl⟩⟩
  | tail _ hlast ih => exact ih.step hB hok hC hs hmarks hlast

/-! ## An action on the two certificates -/

/-- A certificate no higher than the highest one does not replace it. -/
theorem DraftQC.Replaces.rank_lt {H : Hashes} {q q₀ : DraftQC} (h : q.Replaces q₀)
    (hq₀ : q₀.WellFormed H) : ¬ q.qc.rank ≤ q₀.qc.rank := by
  rw [QuorumCert.rank_le]
  rcases h with ⟨-, hnumber⟩ | ⟨node, hnode, hnumber, hround⟩
  · rintro (hlt | ⟨heq, -⟩)
    · exact UInt32.lt_irrefl _ (UInt32.lt_trans hnumber hlt)
    · exact UInt32.lt_irrefl _ (heq ▸ hnumber)
  · obtain ⟨node', hnode', -, hheight, hround'⟩ := hq₀
    obtain rfl := Option.some.inj (hnode.symm.trans hnode')
    rw [hround'] at hround
    rintro (hlt | ⟨-, hle⟩)
    · exact UInt32.lt_irrefl _ ((hnumber.trans hheight) ▸ hlt)
    · exact UInt32.lt_irrefl _ (UInt32.lt_of_lt_of_le hround hle)

/-- **An action keeps the two certificates looked at**, under the
condition. -/
theorem MarkStep.vouched {m m' : Marks} (hB : E.B.Aggregates)
    (hok : CertificatesVerify E names s i) (hC : C s.epochState.epoch s.epochState.committee)
    (hs : Vetted E C opening names s.core) (hmarks : VouchedMarks E C opening s.marks)
    (hordered : Ordered E s.marks m) (hstep : MarkStep E s i m m')
    (h : VouchedMarks E C opening m) :
    VouchedMarks E C opening m' := by
  cases hstep with
  | vote msg b qc es hhandles hdraft hround hformed =>
    exact ⟨.of_formed hB hok hC hs hformed, h.best⟩
  | update m c qc bPrime hsteps hsource hdraft =>
    refine ⟨?_, h.best⟩
    cases hsource with
    | proposal msg blk parent bnew haccepted hqc hvalid =>
      subst hqc
      rw [← (hok.received msg blk haccepted.handles haccepted.decoded).1]
      exact (VettedIn.steps hB hok hC hs hmarks hsteps).cached _ hvalid
    | timeout msg hhandles hformed => exact .of_formed hB hok hC hs hformed
  | lastVote msg node qc es hhandles hformed => exact ⟨.of_formed hB hok hC hs hformed, h.best⟩
  | timeout m msg node qc c hhandles hcarried hsteps hbase hfound hmissing hreplaces =>
    refine ⟨?_, h.best⟩
    rcases hok.offered msg qc hhandles hcarried with hle | hverifies
    · exact absurd (hle.trans hordered.rank_le) (hreplaces.rank_lt hordered.wellFormed)
    · exact .of_verifies hC hverifies
  | commit m c qc bPrime commitReady b bestQC hsteps hsource hdraft huncommitted hwalk hmem
    hescort =>
    -- the certificate is that of a draft which stands on the block
    refine ⟨h.high, ?_⟩
    have htree := (VettedIn.steps hB hok hC hs hmarks hsteps).tree
    have hin := htree.inTree (hdraft.in_map huncommitted).1
    rcases mem_commitReadyBlocks _ _ _ hwalk hmem with hnil | ⟨y, x, rest, rfl, hsuffix, -⟩
    · exact absurd hnil List.not_mem_nil
    obtain rfl := Option.some.inj hescort
    exact (List.isChain_cons_cons.mp (hin.linked.suffix hsuffix)).1.vouched
  | sync m blk qc hsync => exact ⟨h.high, .of_verifies hC (hok.synced blk qc hsync).2⟩
  | regulate bestNode hcmd hwants hdraft =>
    refine ⟨?_, h.best⟩
    show Vouched E C opening s.regulateQC
    unfold Pacemaker.regulateQC
    split
    · exact h.high
    · exact h.best

/-! ## A run -/

/-- What holds in every state of a run. -/
structure Steered (E : Env) (C : UInt64 → ValidatorSet → Prop) (opening : QuorumCert)
    (names : Bytes32 → QuorumCert) (p : Pacemaker) : Prop where
  vetted : Vetted E C opening names p.core
  wellFormed : p.qcHigh.WellFormed E.H
  vouched : VouchedMarks E C opening p.marks

/-- **A step keeps everything looked at.** -/
theorem Steered.step (hB : E.B.Aggregates) (hok : CertificatesVerify E names s i)
    (hC : C s.epochState.epoch s.epochState.committee) (h : Steered E C opening names s) :
    Steered E C opening names (s.step E i) := by
  have htree : DraftTree E.H (BlockLink E.H) s.core := h.vetted.tree.blockLink
  have hordered : ∀ m, MarkSteps E s i s.marks m → Ordered E s.marks m := fun m hm =>
    MarkSteps.ordered hok.toCertificatesKnown htree hm h.wellFormed
  have hvouched : ∀ m, MarkSteps E s i s.marks m → VouchedMarks E C opening m := by
    intro m hm
    induction hm with
    | refl => exact h.vouched
    | tail hsteps hlast ih =>
      exact hlast.vouched hB hok hC h.vetted h.vouched (hordered _ hsteps) ih
  have hsteps := s.step_marks E i htree
  exact ⟨(VettedIn.steps hB hok hC h.vetted h.vouched (s.step_refines E i)).toVetted,
    (hordered _ hsteps).wellFormed, hvouched _ hsteps⟩

theorem Steered.start {chain : Chain} {app : App} {myPubKey : Bytes} {now : Time}
    (hchain : chain.Fresh E.H) (h : startPacemaker E chain app myPubKey now = .ok p) :
    Steered E C chain.bestQC names p := by
  refine ⟨⟨DraftTree.start hchain h, ?_, ?_⟩, wellFormed_startPacemaker hchain h, ?_⟩
  · obtain ⟨bestNode, es, -, -, round, hcore⟩ := startPacemaker_core h
    rw [hcore]
    exact fun _ hx => absurd hx List.not_mem_nil
  · obtain ⟨bestNode, es, -, hes, round, hcore⟩ := startPacemaker_core h
    rw [hcore]
    exact ⟨es, [], rfl, newEpochState_fresh hes ▸ .new E.B es⟩
  · obtain ⟨bestNode, es, beat, -, -, hstanding⟩ := startPacemaker_standing h
    have hmarks : p.marks = ⟨⟨some bestNode, chain.bestQC⟩, chain.bestQC⟩ :=
      congrArg Standing.marks hstanding
    rw [hmarks]
    exact ⟨.inl rfl, .inl rfl⟩

end

/-- The committee of an epoch the node was in between two states. -/
def CommitteeOf (E : Env) (p₀ p : Pacemaker) (epoch : UInt64) (committee : ValidatorSet) : Prop :=
  ∃ q, Runs E p₀ q ∧ Runs E q p ∧ q.epochState.epoch = epoch ∧ q.epochState.committee = committee

/-- **The highest certificate is certified**: it is the one the chain was
opened with, that of the best block, or one that verifies on its node with a
committee of its epoch. -/
def QCHighCertified (E : Env) (opening : QuorumCert) (C : UInt64 → ValidatorSet → Prop)
    (p : Pacemaker) : Prop :=
  p.qcHigh.qc = opening ∨ p.qcHigh.qc = p.chain.bestQC
    ∨ ∃ node committee, p.qcHigh.qcNode = some node ∧ C p.qcHigh.qc.epoch committee
      ∧ node.proposedBlock.verifyQC E.H E.B p.qcHigh.qc committee = .ok (true, none)

variable {E : Env} {names : Bytes32 → QuorumCert}

/-- **The highest certificate is certified** in every state of every run whose
steps all meet the condition. -/
theorem qcHigh_certified_of_certificatesVerify {chain : Chain} {app : App} {myPubKey : Bytes}
    {now : Time} {p₀ p : Pacemaker} (hB : E.B.Aggregates) (hchain : chain.Fresh E.H)
    (hstart : startPacemaker E chain app myPubKey now = .ok p₀)
    (hrun : Run E (CertificatesVerify E names) p₀ p) :
    QCHighCertified E chain.bestQC (CommitteeOf E p₀ p) p := by
  have hruns : ∀ {q q'}, Run E (CertificatesVerify E names) q q' → Runs E q q' :=
    fun h => h.imp fun _ _ _ => trivial
  have h : Steered E (CommitteeOf E p₀ p) chain.bestQC names p := by
    refine hrun.invariant_along (Steered.start hchain hstart) fun q i hreach hok hrest hq => ?_
    refine hq.step hB hok ⟨q, hruns hreach, ?_, rfl, rfl⟩
    exact .head ⟨i, trivial, rfl⟩ (hruns hrest)
  obtain ⟨node, hnode, hid, -⟩ := h.wellFormed
  rcases h.vouched.high with hfirst | ⟨committee, hcommittee, hverifies⟩
  · exact .inl hfirst
  · exact .inr (.inr ⟨node, committee, hnode, hcommittee, hverifies _ hid⟩)

/-! ## Runs -/

/-- A test for `Verifies`: on any block at all. -/
def verifiesTest (E : Env) (p : Pacemaker) (qc : QuorumCert) : Bool :=
  qc.epoch == p.epochState.epoch
    && match p.lastCommitted.verifyQC E.H E.B qc p.epochState.committee with
      | .ok (true, none) => true
      | _ => false

theorem Pacemaker.Verifies.of_test (h : verifiesTest E p qc = true) : p.Verifies E qc := by
  obtain ⟨hepoch, hverify⟩ := Bool.and_eq_true_iff.mp h
  refine ⟨eq_of_beq hepoch, fun b hb => ?_⟩
  split at hverify
  · exact Block.verifyQC_of_id ‹_› hb
  · exact nomatch hverify

/-- A test for `CertificatesVerify` on inputs that are not blocks from
peers. -/
def verifyTest (E : Env) (names : Bytes32 → QuorumCert) (p : Pacemaker) (i : Input) : Bool :=
  knownTest p i && decide (p.epochState.committee.size < 2 ^ 32)
    && p.epochState.committee.validators.all (fun v => v.pubKey.type == KeyType.bls12381)
    && match i, p.inQueue.head?.map IncomingMsg.msg with
      | .loop .message, some (.proposal msg) => msg.decodedBlock.all (fun blk =>
          decide (names (qcID E.H blk.qc) = blk.qc ∧ (blk.qc.epoch = p.epochState.epoch
            ∨ blk.qc = p.qcHigh.qc ∨ blk.qc = p.chain.bestQC)))
      | .loop .message, some (.timeout msg) => msg.decodedQCHigh.all (verifiesTest E p)
      | .sync _ _, _ => false
      | _, _ => true

theorem CertificatesVerify.of_test {i : Input} (h : verifyTest E names p i = true) :
    CertificatesVerify E names p i := by
  simp only [verifyTest, Bool.and_eq_true] at h
  obtain ⟨⟨⟨hknown, hsize⟩, hbls⟩, hinput⟩ := h
  refine ⟨.of_test hknown, of_decide_eq_true hsize, ?_, ?_, ?_, ?_⟩
  · exact fun v hv => eq_of_beq (List.all_eq_true.mp hbls v hv)
  · rintro msg blk ⟨rfl, mi, rest, hqueue, hmsg⟩ hdecoded
    simpa [hqueue, hmsg, hdecoded] using hinput
  · rintro msg qc ⟨rfl, mi, rest, hqueue, hmsg⟩ hcarried
    refine .inr (.of_test ?_)
    simpa [hqueue, hmsg, hcarried] using hinput
  · rintro blk qc rfl
    simp at hinput

namespace Testnet

/-- The certificate the first three validators make of a block, when
aggregates do not depend on the order. -/
def additiveCertificate (b : Block) (round : UInt32) : QuorumCert where
  epoch := 1
  round := round
  blockID := b.id hashes
  aggSig := additive.aggregateSignatures ([[0], [1], [2]].map (additive.sign · (b.id hashes)))
  bitArray := ⟨4, [7]⟩

/-- The certificates of the run below, by their digests. -/
def namesOf (certificates : List QuorumCert) (x : Bytes32) : QuorumCert :=
  (certificates.find? (fun qc => qcID hashes qc == x)).getD genesisQC

/-- A block, its child, and a timeout message that brings the certificate of
the child: it verifies, and becomes the highest one. -/
theorem qcHigh_certified_of_timeout :
    ∃ p₀, startPacemaker additiveEnv chain app [1] 1000000000 = .ok p₀
      ∧ let b := block genesis 1 genesisQC []
        let b' := block b 2 (certificate b 1) []
        let p := p₀.play additiveEnv
          (deliver b 1 ++ deliver b' 2 ++ deliverTimeout 0 5 (additiveCertificate b' 2))
        p.qcHigh.qc = additiveCertificate b' 2
          ∧ Run additiveEnv (CertificatesVerify additiveEnv (namesOf [certificate b 1])) p₀ p
          ∧ QCHighCertified additiveEnv chain.bestQC (CommitteeOf additiveEnv p₀ p) p := by
  obtain ⟨p₀, hstart, htest⟩ := exists_of_ok
    (x := startPacemaker additiveEnv chain app [1] 1000000000)
    (fun p₀ =>
      let b := block genesis 1 genesisQC []
      let b' := block b 2 (certificate b 1) []
      let inputs := deliver b 1 ++ deliver b' 2 ++ deliverTimeout 0 5 (additiveCertificate b' 2)
      Machine.passes (Pacemaker.step additiveEnv)
          (verifyTest additiveEnv (namesOf [certificate b 1])) p₀ inputs
        && decide ((p₀.play additiveEnv inputs).qcHigh.qc = additiveCertificate b' 2))
    (by decide +kernel)
  obtain ⟨hpasses, hqc⟩ := Bool.and_eq_true_iff.mp htest
  have hrun := Machine.Run.of_plays _
    (.of_test _ (fun _ _ => CertificatesVerify.of_test) _ hpasses)
  exact ⟨p₀, hstart, of_decide_eq_true hqc, hrun,
    qcHigh_certified_of_certificatesVerify additive_aggregates fresh_chain hstart hrun⟩

/-- A certificate of a block that nobody signed. -/
def unsignedQC (b : Block) (round : UInt32) : QuorumCert := ⟨1, round, b.id hashes, [], .new 4⟩

/-- It verifies on no block numbered two, whatever the committee. -/
theorem not_verifyQC_unsignedQC {E : Env} {b b' : Block} {committee : ValidatorSet}
    (hnumber : number (b.id hashes) = 2) :
    b'.verifyQC E.H E.B (unsignedQC b round) committee ≠ .ok (true, none) := by
  intro h
  rcases Block.verifyQC_eq_true_iff.mp h with ⟨hid, hfirst⟩ | ⟨c, keys, hcount, hmajority, -⟩
  · rw [← Block.number_id E.H, hid] at hfirst
    rw [show number (unsignedQC b round).blockID = 2 from hnumber] at hfirst
    exact absurd hfirst (by decide)
  · have hzero : (unsignedQC b round).bitArray.count = .ok 0 := by rfl
    obtain rfl := Except.ok.inj (hzero.symm.trans hcount)
    rw [majorityTwoThird_iff] at hmajority
    have hpos := hmajority.1
    have hmany : 2 * (UInt32.ofNat committee.size).toNat ≤ 0 := hmajority.2
    omega

/-- **The highest certificate is one nobody signed.** A timeout message of one
member brings it along, for a block that is known. -/
theorem qcHigh_unsigned :
    ∃ p₀, start 1 = .ok p₀
      ∧ let b := block genesis 1 genesisQC []
        let b' := block b 2 (certificate b 1) []
        let p := p₀.play env (deliver b 1 ++ deliver b' 2 ++ deliverTimeout 0 5 (unsignedQC b' 2))
        Runs env p₀ p ∧ ¬ QCHighCertified env chain.bestQC (CommitteeOf env p₀ p) p := by
  obtain ⟨p₀, hstart, htest⟩ := exists_of_start (k := 1)
    (fun p₀ =>
      let b := block genesis 1 genesisQC []
      let b' := block b 2 (certificate b 1) []
      let p := p₀.play env (deliver b 1 ++ deliver b' 2 ++ deliverTimeout 0 5 (unsignedQC b' 2))
      decide (number (b'.id hashes) = 2) && decide (p.qcHigh.qc = unsignedQC b' 2)
        && decide (unsignedQC b' 2 ≠ chain.bestQC) && decide (unsignedQC b' 2 ≠ p.chain.bestQC))
    (by decide +kernel)
  simp only [Bool.and_eq_true, decide_eq_true_eq] at htest
  obtain ⟨⟨⟨hnumber, hqc⟩, hopening⟩, hbest⟩ := htest
  refine ⟨p₀, hstart, Machine.run_play _ _, ?_⟩
  rintro (h | h | ⟨node, committee, -, -, hverify⟩)
  · exact hopening (hqc.symm.trans h)
  · exact hbest (hqc.symm.trans h)
  · rw [hqc] at hverify
    exact not_verifyQC_unsignedQC hnumber hverify

end Testnet

end LoragonBFT
