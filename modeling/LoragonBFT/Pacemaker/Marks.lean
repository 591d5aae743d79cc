import LoragonBFT.Pacemaker.Standing
import LoragonBFT.Pacemaker.CommitLists

/-!
# The certificates a node steers by

A node keeps two certificates: `QCHigh`, on which it builds its next block,
and the one of its best block. The core of the pacemaker does not mention
them, because nothing a node signs away depends on them, but whether the
protocol goes on does.

`MarkStep` lists what a step does to the two, one constructor an action, with
what the code knows at that moment – the counterpart for them of `CoreStep`.
A certificate is taken for the highest one when a vote completes it, when
`Update` is called with it, when the last vote of a timeout message completes
it, when a timeout message brings it along, and by `Regulate`. In the third
and the fourth case the block it certifies is looked up and may be missing.
The certificate of the best block is replaced when a block is committed.
-/

namespace LoragonBFT

open EStateM

variable {E : Env} {s : Pacemaker} {i : Input}

/-- The highest certificate and that of the best block. -/
structure Marks where
  qcHigh : DraftQC
  bestQC : QuorumCert

def Pacemaker.marks (p : Pacemaker) : Marks := ⟨p.qcHigh, p.chain.bestQC⟩

/-- They are part of what stands. -/
def Standing.marks (st : Standing) : Marks := ⟨st.qcHigh, st.bestQC⟩

theorem keeps_marks {α : Type} {x : PM α} (h : Keeps Pacemaker.settled x) :
    Keeps Pacemaker.marks x := h.comp (fun st => st.toStanding.marks)

/-! ## Replacing the highest certificate -/

/-- A certificate of a known block is not above the highest one after it was
offered. -/
theorem number_le_of_not_replaces {q q₀ : DraftQC} (h : ¬ q.Replaces q₀)
    (hnode : q.qcNode.isSome) : q.qc.number ≤ q₀.qc.number := by
  rw [← UInt32.not_lt]
  exact fun hlt => h (.inl ⟨hnode, hlt⟩)

variable {qc : QuorumCert} {t' : Pacemaker} {index round : UInt32} {blockID : Bytes32} {sig : Bytes}

/-- What is not found cannot be looked up. -/
theorem not_isEscortDraft_of_lookup {t : Pacemaker} (h : t.chain.getDraftByEscortQC qc = none)
    (d : DraftBlock) : ¬ t.core.IsEscortDraft qc d := by
  unfold Chain.getDraftByEscortQC at h
  split at h
  · exact nomatch h
  rename_i hnone
  rintro (⟨hd, hround⟩ | ⟨-, blk, ref, hblk, -⟩)
  · have hd' : t.chain.proposals qc.blockID = some d := hd
    rw [hd'] at hnone
    simp [Option.filter, hround] at hnone
  · have hblk' : t.chain.getBlock qc.blockID = some blk := hblk
    rw [hblk'] at h
    exact nomatch h

/-! ## The actions -/

/-- **What a node does to the two certificates**, in a step from `s` on the
input `i`. -/
inductive MarkStep (E : Env) (s : Pacemaker) (i : Input) : Marks → Marks → Prop
  /-- A vote completes a certificate. -/
  | vote (msg : PMVoteMessage) (b : DraftBlock) (qc : QuorumCert) (es : EpochState)
      (handles : s.Handles i (.vote msg)) (isDraft : s.core.IsDraft msg.voteBlockID b)
      (round_eq : b.round = msg.voteRound)
      (formed : s.epochState.addQCVote E.B msg.signerIndex msg.voteRound msg.voteBlockID
        msg.voteSignature = .ok (some qc, es))
      (replaces : (⟨some b, qc⟩ : DraftQC).Replaces s.qcHigh) :
      MarkStep E s i s.marks { s.marks with qcHigh := ⟨some b, qc⟩ }
  /-- `Update` is called with a certificate of an uncommitted block. -/
  | update (m : Marks) (c : Core) (qc : QuorumCert) (bPrime : DraftBlock)
      (steps : CoreSteps E s i s.core c) (source : UpdateSource E s i c qc)
      (isDraft : c.IsEscortDraft qc bPrime)
      (replaces : (⟨some bPrime, qc⟩ : DraftQC).Replaces m.qcHigh) :
      MarkStep E s i m { m with qcHigh := ⟨some bPrime, qc⟩ }
  /-- The last vote of a timeout message completes a certificate. -/
  | lastVote (msg : PMTimeoutMessage) (node : Option DraftBlock) (qc : QuorumCert)
      (es : EpochState) (handles : s.Handles i (.timeout msg))
      (formed : s.epochState.addQCVote E.B msg.signerIndex msg.lastVoteRound
        msg.lastVoteBlockID msg.lastVoteSignature = .ok (some qc, es))
      (found : ∀ d, node = some d → s.core.IsEscortDraft qc d)
      (missing : node = none → ∀ d, ¬ s.core.IsEscortDraft qc d)
      (replaces : (⟨node, qc⟩ : DraftQC).Replaces s.qcHigh) :
      MarkStep E s i s.marks { s.marks with qcHigh := ⟨node, qc⟩ }
  /-- A timeout message brings a certificate along. By then blocks may have
  been committed, and what they outdate may be gone. -/
  | timeout (m : Marks) (msg : PMTimeoutMessage) (node : Option DraftBlock) (qc : QuorumCert)
      (c : Core) (handles : s.Handles i (.timeout msg))
      (carried : msg.decodedQCHigh = some qc) (steps : CoreSteps E s i s.core c)
      (base : m.qcHigh.qc = s.qcHigh.qc
        ∨ m.qcHigh.qc.blockID = msg.lastVoteBlockID ∧ m.qcHigh.qc.round = msg.lastVoteRound)
      (found : ∀ d, node = some d → c.IsEscortDraft qc d)
      (missing : node = none → ∀ d, s.core.IsEscortDraft qc d →
        qc.number < m.qcHigh.qc.number)
      (replaces : (⟨node, qc⟩ : DraftQC).Replaces m.qcHigh) :
      MarkStep E s i m { m with qcHigh := ⟨node, qc⟩ }
  /-- `Update` commits a block, with the certificate its child carries. -/
  | commit (m : Marks) (c : Core) (qc : QuorumCert) (bPrime : DraftBlock)
      (commitReady : List CommitReadyBlock) (b : CommitReadyBlock) (bestQC : QuorumCert)
      (steps : CoreSteps E s i s.core c) (source : UpdateSource E s i c qc)
      (isDraft : c.IsEscortDraft qc bPrime) (uncommitted : bPrime.committed = false)
      (walk : commitReadyBlocks c.lastCommitted.number bPrime.toDraftInfo bPrime.ancestors []
        = .ok commitReady)
      (mem : b ∈ commitReady) (escort : b.escortQC = some bestQC) :
      MarkStep E s i m { m with bestQC := bestQC }
  /-- A block of a peer is committed. -/
  | sync (m : Marks) (blk : Block) (qc : QuorumCert) (input : i = .sync blk qc) :
      MarkStep E s i m { m with bestQC := qc }
  /-- The pacemaker starts again from the best block. -/
  | regulate (bestNode : DraftBlock) (cmd : i = .loop .cmd) (wants : s.wantsRegulate = true)
      (isDraft : s.core.IsEscortDraft s.regulateQC bestNode) :
      MarkStep E s i s.marks { s.marks with qcHigh := ⟨some bestNode, s.regulateQC⟩ }

/-- A sequence of actions on the two certificates. -/
abbrev MarkSteps (E : Env) (s : Pacemaker) (i : Input) : Marks → Marks → Prop :=
  Relation.ReflTransGen (MarkStep E s i)

/-- A computation that moves the two certificates by actions, whether it
returns or faults. -/
def Marked (E : Env) (s : Pacemaker) (i : Input) {α : Type} (x : PM α) (t : Pacemaker) : Prop :=
  Ensures x t (fun _ t' => MarkSteps E s i t.marks t'.marks)
    (fun t' => MarkSteps E s i t.marks t'.marks)

namespace Marked

variable {α β : Type} {x : PM α} {t : Pacemaker}

theorem of_keeps (h : Keeps Pacemaker.marks x) (t : Pacemaker) : Marked E s i x t :=
  (h t).imp (fun _ _ h => by rw [h]) (fun _ h => by rw [h])

/-- What leaves the two certificates alone may come before. -/
theorem bind_left {f : α → PM β} {Q : α → Pacemaker → Prop}
    (hx : Ensures x t (fun a t' => t'.marks = t.marks ∧ Q a t') (fun t' => t'.marks = t.marks))
    (hf : ∀ a t', Q a t' → Marked E s i (f a) t') : Marked E s i (x >>= f) t := by
  unfold Marked
  rw [ensures_bind]
  refine hx.imp (fun a t' h => ?_) (fun t' h => by rw [h])
  obtain ⟨hsame, hQ⟩ := h
  exact (hf a t' hQ).imp (fun _ _ h' => hsame ▸ h') (fun _ h' => hsame ▸ h')

end Marked

/-! ## Committing -/

/-- The certificate of the best block after `AddBlock`. -/
theorem Chain.addBlock_bestQC {H : Hashes} {c c' : Chain} {blk : Block}
    {escortQC : Option QuorumCert} {result : Except Err Fork}
    (h : c.addBlock H blk escortQC = .ok (result, c')) :
    c'.bestQC = c.bestQC ∨ escortQC = some c'.bestQC := by
  have hwrite : ∀ (w : Chain) (kv : KV) (fork : Fork), w.writeBatch kv fork = (result, c') →
      c'.bestQC = w.bestQC := by
    intro w kv fork hw
    unfold Chain.writeBatch at hw
    split at hw <;> (obtain ⟨-, rfl⟩ := Prod.mk.inj hw; rfl)
  unfold addBlock at h
  split at h
  · exact .inl (congrArg bestQC (Prod.mk.inj (Except.ok.inj h)).2.symm)
  split at h
  · exact .inl (congrArg bestQC (Prod.mk.inj (Except.ok.inj h)).2.symm)
  split at h
  · split at h
    · exact nomatch h
    · exact .inl (congrArg bestQC (Prod.mk.inj (Except.ok.inj h)).2.symm)
    · split at h
      · obtain ⟨-, rfl⟩ := Prod.mk.inj (Except.ok.inj h)
        exact .inl rfl
      · exact .inr (congrArg some (hwrite _ _ _ (Except.ok.inj h)).symm)
  · exact .inl (hwrite _ _ _ (Except.ok.inj h))

/-- **What `CommitBlock` does to the best certificate and the drafts.** -/
theorem commitBlock_marks (blk : Block) (escortQC : Option QuorumCert) (t : Pacemaker) :
    Ensures (commitBlock E blk escortQC) t
      (fun _ t' => t'.chain.proposals = t.chain.proposals
        ∧ (t'.chain.bestQC = t.chain.bestQC ∨ escortQC = some t'.chain.bestQC))
      (fun t' => t'.chain.proposals = t.chain.proposals
        ∧ (t'.chain.bestQC = t.chain.bestQC ∨ escortQC = some t'.chain.bestQC)) := by
  rw [commitBlock_eq, ensures_bind, ensures_get]
  split
  · exact ⟨rfl, .inl rfl⟩
  rename_i hknown
  rw [ensures_bind]
  refine (executeBlock_outcome blk t (Bool.eq_false_iff.mpr hknown)).imp (fun r t₁ h => ?_)
    (fun t₁ h => ?_)
  · have hchain : t₁.chain = t.chain := h.1.2
    rw [← hchain]
    cases r with
    | error e => exact ⟨rfl, .inl rfl⟩
    | ok blk' =>
      refine (addCommitted_adds blk' escortQC t₁).imp (fun _ t' h => ?_)
        (fun _ h => h.1 ▸ ⟨rfl, .inl rfl⟩)
      obtain ⟨result, hadd, -⟩ := h
      exact ⟨(Chain.addBlock_spec hadd).proposals_eq, Chain.addBlock_bestQC hadd⟩
  · have hchain : t₁.chain = t.chain := h.1.2
    rw [hchain]
    exact ⟨rfl, .inl rfl⟩

/-- What committing a list does: the best certificate comes from the list,
and the drafts that are gone are not above all of its blocks. -/
structure ListCommitted (l : List CommitReadyBlock) (t t' : Pacemaker) : Prop where
  bestQC : t'.chain.bestQC = t.chain.bestQC ∨ ∃ b ∈ l, b.escortQC = some t'.chain.bestQC
  drafts : ∀ id d, t.chain.proposals id = some d → t'.chain.proposals id = some d
    ∨ ∃ b ∈ l, ∃ x, b.block = some x ∧ d.proposedBlock.number ≤ x.height

theorem ListCommitted.refl (l : List CommitReadyBlock) (t : Pacemaker) : ListCommitted l t t :=
  ⟨.inl rfl, fun _ _ h => .inl h⟩

theorem ListCommitted.trans {l : List CommitReadyBlock} {t t'' : Pacemaker}
    (h : ListCommitted l t t') (h' : ListCommitted l t' t'') : ListCommitted l t t'' where
  bestQC := by
    rcases h'.bestQC with heq | hmem
    · rw [heq]
      exact h.bestQC
    · exact .inr hmem
  drafts id d hd := by
    rcases h.drafts id d hd with hkept | hgone
    · exact h'.drafts id d hkept
    · exact .inr hgone

theorem onCommitLoop_marks (l : List CommitReadyBlock) (lastCommitted : Block) (t : Pacemaker) :
    Ensures (onCommitLoop E l lastCommitted) t (fun _ => ListCommitted l t)
      (ListCommitted l t) := by
  refine onCommitLoop_moves (.refl l) .trans l (fun b hb blk hblk t => ?_) lastCommitted t
  have hcommitted : ∀ t' : Pacemaker, t'.chain.proposals = t.chain.proposals
      ∧ (t'.chain.bestQC = t.chain.bestQC ∨ b.escortQC = some t'.chain.bestQC) →
      ListCommitted l t t' := by
    rintro t' ⟨hproposals, hbest⟩
    exact ⟨hbest.imp_right fun h => ⟨b, hb, h⟩, fun id d hd => .inl (hproposals ▸ hd)⟩
  refine (commitBlock_marks _ _ t).imp (fun err t₁ h => ?_) hcommitted
  -- what is pruned is not above the block
  refine (hcommitted t₁ h).trans ⟨.inl rfl, fun id d hd => ?_⟩
  by_cases hsurvives : Chain.survivesPrune E.H blk d = true
  · left
    show (t₁.chain.proposals id).filter _ = some d
    rw [hd, Option.filter, if_pos hsurvives]
  · refine .inr ⟨b, hb, blk, hblk, ?_⟩
    simp only [Chain.survivesPrune, Bool.not_eq_true', Bool.not_eq_false, Bool.or_eq_true,
      decide_eq_true_eq, Bool.and_eq_true, beq_iff_eq] at hsurvives
    rcases hsurvives with hlt | ⟨heq, -⟩
    · exact UInt32.le_of_lt hlt
    · exact heq ▸ UInt32.le_refl _

theorem onCommit_marks (l : List CommitReadyBlock) (t : Pacemaker) :
    Ensures (onCommit E l) t (fun _ => ListCommitted l t) (ListCommitted l t) := by
  unfold onCommit
  rw [ensures_bind, ensures_get, ensures_bind, ensures_record]
  have hrecorded : ListCommitted l t { t with trace := t.trace ++ [.onCommit t.lastCommitted l] } :=
    ⟨.inl rfl, fun _ _ h => .inl h⟩
  split
  · exact hrecorded
  rw [ensures_bind, ensures_ofExcept]
  refine ⟨fun blk _ => ?_, fun _ _ => hrecorded⟩
  rw [ensures_bind]
  exact (onCommitLoop_marks _ _ _).imp (fun _ _ h => hrecorded.trans h)
    (fun _ h => hrecorded.trans h)

/-! ## Update -/

/-- What `Update` leaves behind when called with a certificate: the highest
certificate is the old one or this one, and a draft that is gone is not above
a block on the list, while the highest certificate is not below this one. -/
structure Updated (E : Env) (s : Pacemaker) (i : Input) (qc : QuorumCert) (t t' : Pacemaker) :
    Prop where
  steps : MarkSteps E s i t.marks t'.marks
  high : t'.qcHigh.qc = t.qcHigh.qc ∨ t'.qcHigh.qc = qc
  drafts : ∀ id d, t.chain.proposals id = some d → t'.chain.proposals id = some d
    ∨ qc.number ≤ t'.qcHigh.qc.number ∧ ∃ bPrime l b x, t.core.IsEscortDraft qc bPrime
      ∧ bPrime.committed = false
      ∧ commitReadyBlocks t.lastCommitted.number bPrime.toDraftInfo bPrime.ancestors [] = .ok l
      ∧ b ∈ l ∧ b.block = some x ∧ d.proposedBlock.number ≤ x.height

theorem update_marks (qc : QuorumCert) (t : Pacemaker) (hsteps : CoreSteps E s i s.core t.core)
    (hsource : UpdateSource E s i t.core qc) :
    Ensures (update E qc) t (fun _ => Updated E s i qc t) (Updated E s i qc t) := by
  have hbump : Updated E s i qc t t.bump := ⟨.refl, .inl rfl, fun _ _ h => .inl h⟩
  refine ensures_update qc t ⟨hbump, hbump⟩ fun bPrime t₁ hlookup huncommitted h => ?_
  have hdraft : t.core.IsEscortDraft qc bPrime := isEscortDraft_of_lookup hlookup
  -- the certificate is taken or not, and is not above the highest one then
  have hoffered : Updated E s i qc t t₁ ∧ qc.number ≤ t₁.qcHigh.qc.number
      ∧ t₁.chain.proposals = t.chain.proposals := by
    rcases h with ⟨hreplaces, rfl⟩ | ⟨hkept, rfl⟩
    · exact ⟨⟨.single (.update t.marks t.core qc bPrime hsteps hsource hdraft hreplaces), .inr rfl,
        fun _ _ h => .inl h⟩, UInt32.le_refl _, rfl⟩
    · exact ⟨hbump, number_le_of_not_replaces hkept rfl, rfl⟩
  obtain ⟨hupdated, hnumber, hproposals⟩ := hoffered
  refine ⟨hupdated, hupdated, fun l hwalk => ?_⟩
  have hcommit : ∀ t₂ : Pacemaker, ListCommitted l t₁ t₂ ∧ t₂.lead = t₁.lead →
      Updated E s i qc t t₂ := by
    rintro t₂ ⟨hlist, hlead⟩
    have hhigh : t₂.qcHigh = t₁.qcHigh := congrArg Lead.qcHigh hlead
    refine ⟨hupdated.steps.trans ?_, hhigh ▸ hupdated.high, fun id d hd => ?_⟩
    · have hmarks : t₂.marks = { t₁.marks with bestQC := t₂.chain.bestQC } := by
        rw [Pacemaker.marks, hhigh]
        rfl
      rw [hmarks]
      rcases hlist.bestQC with hsame | ⟨b, hb, hescort⟩
      · rw [hsame]
        exact .refl
      · exact .single (.commit t₁.marks t.core qc bPrime l b _ hsteps hsource hdraft huncommitted
          hwalk hb hescort)
    · rw [← hproposals] at hd
      refine (hlist.drafts id d hd).imp_right ?_
      rintro ⟨b, hb, x, hx, hle⟩
      exact ⟨hhigh ▸ hnumber, bPrime, l, b, x, hdraft, huncommitted, hwalk, hb, hx, hle⟩
  exact ((onCommit_marks l t₁).and (keeps_lead_onCommit l t₁)).imp (fun _ t₂ h => hcommit t₂ h)
    hcommit

/-! ## Proposals -/

theorem onReceiveProposal_marks (mi : IncomingMsg) (msg : PMProposalMessage) (t : Pacemaker)
    (hsteps : CoreSteps E s i s.core t.core) (hmi : mi.msg = .proposal msg)
    (hhandles : s.Handles i (.proposal msg)) (hunchanged : Unchanged s t) :
    Marked E s i (onReceiveProposal E mi msg) t := by
  refine onReceiveProposal_settles (P := fun st => MarkSteps E s i t.marks st.toStanding.marks) hmi
    hhandles hsteps hunchanged .refl fun qc t' hsteps' hsource hsettled _ => ?_
  have hmarks : t'.marks = t.marks :=
    congrArg (fun st : Settled => st.toStanding.marks) hsettled
  rw [← hmarks]
  exact (update_marks qc t' hsteps' hsource).imp (fun _ _ h => h.steps) (fun _ h => h.steps)

/-! ## Votes and timeouts -/

/-- A completed certificate was offered to `UpdateQCHigh`, with the draft of
its block if there is one in its round, and was taken or turned down. -/
def Offered (E : Env) (s : Pacemaker) (i : Input) (qc : QuorumCert) (m' : Marks) : Prop :=
  ∃ node m, MarkSteps E s i s.marks m ∧ MarkSteps E s i m m'
    ∧ (∀ d, s.chain.proposals qc.blockID = some d → d.round = qc.round → node = some d)
    ∧ (m.qcHigh = ⟨node, qc⟩ ∨ ¬ (⟨node, qc⟩ : DraftQC).Replaces m.qcHigh)

/-- **What a vote in a message does to the votes collected**: nothing, or it
is counted, and a certificate it completes is offered, unless the highest one
has no node to compare with. -/
inductive Counted (E : Env) (s : Pacemaker) (i : Input) (index round : UInt32) (blockID : Bytes32)
    (sig : Bytes) (t' : Pacemaker) : Prop
  | skipped (tc : TCVoteManager) (epochState : t'.epochState = { s.epochState with
      tcVoteManager := tc })
  | counted (qc : Option QuorumCert) (es : EpochState) (tc : TCVoteManager)
      (call : s.epochState.addQCVote E.B index round blockID sig = .ok (qc, es))
      (epochState : t'.epochState = { es with tcVoteManager := tc })
      (offered : ∀ q, qc = some q → s.qcHigh.qcNode.isSome → Offered E s i q t'.marks)

/-- What comes after may move the two certificates and count a timeout
vote. -/
theorem Counted.move {t : Pacemaker} (h : Counted E s i index round blockID sig t)
    (hmarks : MarkSteps E s i t.marks t'.marks) (tc : TCVoteManager)
    (hes : t'.epochState = { t.epochState with tcVoteManager := tc }) :
    Counted E s i index round blockID sig t' := by
  cases h with
  | skipped tc' hskipped => exact .skipped tc (by rw [hes, hskipped])
  | counted qc es tc' hcall hcounted hoffered =>
    refine .counted qc es tc hcall (by rw [hes, hcounted]) fun q hq hnode => ?_
    obtain ⟨node, m, hto, hfrom, hfound, houtcome⟩ := hoffered q hq hnode
    exact ⟨node, m, hto, hfrom.trans hmarks, hfound, houtcome⟩

/-- What the handling of a message with a vote leaves behind. -/
structure Handled (E : Env) (s : Pacemaker) (i : Input) (index round : UInt32) (blockID : Bytes32)
    (sig : Bytes) (t' : Pacemaker) : Prop where
  steps : MarkSteps E s i s.marks t'.marks
  counted : Counted E s i index round blockID sig t'

theorem Handled.of_same (hmarks : t'.marks = s.marks) (hes : t'.epochState = s.epochState) :
    Handled E s i index round blockID sig t' :=
  ⟨by rw [hmarks], .skipped s.epochState.tcVoteManager hes⟩

theorem Handled.then_keeps {α : Type} {x : PM α} {t : Pacemaker}
    (h : Handled E s i index round blockID sig t)
    (hx : Keeps (fun p : Pacemaker => (p.marks, p.epochState)) x) :
    Ensures x t (fun _ => Handled E s i index round blockID sig)
      (Handled E s i index round blockID sig) := by
  have hgeneral : ∀ t' : Pacemaker, (t'.marks, t'.epochState) = (t.marks, t.epochState) →
      Handled E s i index round blockID sig t' := by
    intro t' ht'
    obtain ⟨hmarks, hes⟩ := Prod.mk.inj ht'
    have hsteps : MarkSteps E s i t.marks t'.marks := by rw [hmarks]
    exact ⟨h.steps.trans hsteps, h.counted.move hsteps t.epochState.tcVoteManager hes⟩
  exact (hx t).imp (fun _ t' h' => hgeneral t' h') hgeneral

/-- The same for the vote of a vote message. -/
abbrev VoteHandled (E : Env) (s : Pacemaker) (i : Input) (msg : PMVoteMessage) :
    Pacemaker → Prop :=
  Handled E s i msg.signerIndex msg.voteRound msg.voteBlockID msg.voteSignature

/-- The same for the last vote of a timeout message. -/
abbrev LastVoteHandled (E : Env) (s : Pacemaker) (i : Input) (msg : PMTimeoutMessage) :
    Pacemaker → Prop :=
  Handled E s i msg.signerIndex msg.lastVoteRound msg.lastVoteBlockID msg.lastVoteSignature

theorem onReceiveVote_handled {mi : IncomingMsg} {rest : List IncomingMsg} {msg : PMVoteMessage}
    (cmdCh : Bool) (hhandles : s.Handles i (.vote msg)) :
    Ensures (onReceiveVote E mi msg) (s.taking cmdCh rest) (fun _ => VoteHandled E s i msg)
      (VoteHandled E s i msg) := by
  unfold onReceiveVote
  simp only [ensures_bind, ensures_get]
  split
  · exact .of_same rfl rfl
  split
  · exact .of_same rfl rfl
  simp only [ensures_bind, ensures_getDraft]
  split
  · exact .of_same rfl rfl
  rename_i b hb
  unfold countVote
  split
  · exact .of_same rfl rfl
  rename_i hround
  rw [ensures_bind]
  refine (addQCVote_spec _ _ _ _ _).imp (fun qc t₁ h => ?_) (fun _ h => h ▸ .of_same rfl rfl)
  obtain ⟨es, hcount, rfl⟩ := h
  split
  · exact ⟨.refl, .counted none es es.tcVoteManager hcount rfl fun _ hq => by cases hq⟩
  rename_i qc
  obtain ⟨hid, -⟩ := EpochState.eq_of_addQCVote hcount
  have hfound : ∀ d, s.chain.proposals qc.blockID = some d → d.round = qc.round →
      some b = some d := by
    intro d hd _
    have hd' : s.chain.getDraft msg.voteBlockID = some d := by
      rw [← hid]
      unfold Chain.getDraft
      rw [hd]
    exact hb.symm.trans hd'
  rw [ensures_bind]
  refine (updateQCHigh_cases _ _).imp (fun changed t₂ h => ?_) (fun _ h => ?_)
  · have hhandled : VoteHandled E s i msg t₂ := by
      rcases h with ⟨-, hreplaces, rfl⟩ | ⟨-, hkept, rfl⟩
      · have hmove : MarkSteps E s i s.marks { s.marks with qcHigh := ⟨some b, qc⟩ } :=
          .single (.vote msg b qc es hhandles (isDraft_of_lookup hb) (not_not.mp hround) hcount
            hreplaces)
        refine ⟨hmove, .counted (some qc) es es.tcVoteManager hcount rfl fun q hq _ => ?_⟩
        obtain rfl := Option.some.inj hq
        exact ⟨some b, _, hmove, .refl, hfound, .inl rfl⟩
      · refine ⟨.refl, .counted (some qc) es es.tcVoteManager hcount rfl fun q hq _ => ?_⟩
        obtain rfl := Option.some.inj hq
        exact ⟨some b, s.marks, .refl, .refl, hfound, .inr hkept⟩
    split
    · have hschedule : ∀ epoch round, Keeps (fun p : Pacemaker => (p.marks, p.epochState))
        (scheduleOnBeat epoch round) := fun _ _ _ => rfl
      exact hhandled.then_keeps (Keeps.get.bind fun _ => (hschedule _ _).bind fun _ =>
        ((keeps_enterRound _ _).comp (fun st => (st.marks, st.epochState))).bind fun _ =>
          Keeps.pure _)
    · exact hhandled
  · -- the certificate is complete, but there is nothing to compare it with
    obtain ⟨rfl, hnone⟩ := h
    refine ⟨.refl, .counted (some qc) es es.tcVoteManager hcount rfl fun q hq hnode => ?_⟩
    have hnone' : s.qcHigh.qcNode = none := hnone
    rw [hnone'] at hnode
    cases hnode

/-- No action takes a block out of the store. -/
theorem CoreSteps.isSome_stored {c c' : Core} (h : CoreSteps E s i c c') {id : Bytes32}
    (hid : (c.kv.blocks id).isSome) : (c'.kv.blocks id).isSome := by
  induction h with
  | refl => exact hid
  | tail _ hlast ih =>
    cases hlast with
    | addBlock blk appHash kv best _ _ hkv =>
      rcases hkv with rfl | ⟨-, -, hblocks⟩
      · exact ih
      · show (kv.blocks id).isSome
        rw [hblocks, Function.update_apply]
        split
        · rfl
        · exact ih
    | _ => exact ih

/-- **In a tree whose numbers go up, the blocks on a commit list are below
the block that is walked up from.** -/
theorem height_lt_of_commitReady {H : Hashes} {c : Core} (htree : DraftTree H (BlockLink H) c)
    {bPrime : DraftBlock} (hdraft : c.IsEscortDraft qc bPrime)
    (huncommitted : bPrime.committed = false) {lastNum : UInt32} {l : List CommitReadyBlock}
    (hwalk : commitReadyBlocks lastNum bPrime.toDraftInfo bPrime.ancestors [] = .ok l)
    {b : CommitReadyBlock} (hb : b ∈ l) {x : DraftBlock} (hx : b.block = some x) :
    x.height < qc.number := by
  have hin := htree.inTree (hdraft.in_map huncommitted).1
  rcases mem_commitReadyBlocks _ _ _ hwalk hb with h | ⟨y, x', rest, rfl, -, hmem, -⟩
  · exact absurd h List.not_mem_nil
  obtain rfl := Option.some.inj hx
  have hlt := height_lt_of_mem _ _ hin.linked hin.height_eq x' hmem
  have hnumber : bPrime.height = qc.number := by
    rw [hin.height_eq _ List.mem_cons_self, QuorumCert.number, ← hin.keyed, Block.number_id]
  rw [hnumber] at hlt
  exact UInt32.lt_iff_toNat_lt.mpr hlt

/-- What is found by its certificate, if there is a draft in its round. -/
theorem Chain.getDraftByEscortQC_of_draft {c : Chain} {d : DraftBlock}
    (hd : c.proposals qc.blockID = some d) (hround : d.round = qc.round) :
    c.getDraftByEscortQC qc = some d := by
  unfold getDraftByEscortQC
  rw [hd, Option.filter, if_pos (beq_iff_eq.mpr hround)]

/-- What the last vote of a timeout message leaves behind: the highest
certificate is the old one or one of that vote, and a draft that is gone is
below the highest certificate. -/
structure LastVoteCollected (E : Env) (s : Pacemaker) (i : Input) (msg : PMTimeoutMessage)
    (t' : Pacemaker) : Prop extends LastVoteHandled E s i msg t' where
  high : t'.qcHigh.qc = s.qcHigh.qc
    ∨ t'.qcHigh.qc.blockID = msg.lastVoteBlockID ∧ t'.qcHigh.qc.round = msg.lastVoteRound
  drafts : ∀ id d, s.chain.proposals id = some d → t'.chain.proposals id = some d
    ∨ d.proposedBlock.number < t'.qcHigh.qc.number

theorem collectLastVote_marks {mi : IncomingMsg} {rest : List IncomingMsg}
    {msg : PMTimeoutMessage} (cmdCh : Bool) (htree : DraftTree E.H (BlockLink E.H) s.core)
    (htakes : s.Takes i mi rest) (hmsg : mi.msg = .timeout msg) :
    Ensures (collectLastVote E msg) (s.taking cmdCh rest) (fun _ => LastVoteCollected E s i msg)
      (LastVoteCollected E s i msg) := by
  have hhandles := htakes.handles hmsg
  have hsteps : CoreSteps E s i s.core (s.taking cmdCh rest).core :=
    .single (.dequeue s.core mi rest htakes.queue)
  have hsame : ∀ t' : Pacemaker, t'.marks = s.marks → t'.chain.proposals = s.chain.proposals →
      Counted E s i msg.signerIndex msg.lastVoteRound msg.lastVoteBlockID msg.lastVoteSignature t' →
      LastVoteCollected E s i msg t' := fun t' hmarks hproposals hcounted =>
    ⟨⟨hmarks ▸ .refl, hcounted⟩, .inl (congrArg (fun m => m.qcHigh.qc) hmarks),
      fun id d hd => .inl (hproposals ▸ hd)⟩
  unfold collectLastVote
  rw [ensures_bind]
  refine (addQCVote_spec _ _ _ _ _).imp (fun qc t₁ h => ?_)
    (fun _ h => h ▸ hsame _ rfl rfl (.skipped s.epochState.tcVoteManager rfl))
  obtain ⟨es, hcount, rfl⟩ := h
  have hcounted := hsteps.tail (.countQCVote _ (.timeout msg) _ _ _ _ qc es hhandles
    (by simp [ConsensusMessage.signatures]) hcount)
  split
  · exact hsame _ rfl rfl
      (.counted none es es.tcVoteManager hcount rfl fun _ hq => by cases hq)
  rename_i newQC
  obtain ⟨hid, hround, -⟩ := EpochState.eq_of_addQCVote hcount
  rw [ensures_bind, ensures_getDraftByEscortQC, ensures_bind]
  -- the certificate is offered with the node that was looked up, and then handed to `Update`
  refine (updateQCHigh_cases _ _).imp (fun _ t₂ h => ?_) (fun t₂ h => ?_)
  swap
  · obtain ⟨rfl, hnone⟩ := h
    refine hsame _ rfl rfl
      (.counted (some newQC) es es.tcVoteManager hcount rfl fun q hq hnode => ?_)
    have hnone' : s.qcHigh.qcNode = none := hnone
    rw [hnone'] at hnode
    cases hnode
  have hoffered : MarkSteps E s i s.marks t₂.marks
      ∧ t₂.core = { s.taking cmdCh rest with epochState := es }.core
      ∧ t₂.epochState = es ∧ (t₂.qcHigh.qc = s.qcHigh.qc ∨ t₂.qcHigh.qc = newQC)
      ∧ (t₂.qcHigh = ⟨s.chain.getDraftByEscortQC newQC, newQC⟩
        ∨ ¬ (⟨s.chain.getDraftByEscortQC newQC, newQC⟩ : DraftQC).Replaces t₂.qcHigh) := by
    rcases h with ⟨-, hreplaces, rfl⟩ | ⟨-, hkept, rfl⟩
    · refine ⟨.single ?_, rfl, rfl, .inr rfl, .inl rfl⟩
      exact .lastVote msg _ newQC es hhandles hcount (fun d hd => isEscortDraft_of_lookup hd)
        (fun hnone => not_isEscortDraft_of_lookup hnone) hreplaces
    · exact ⟨.refl, rfl, rfl, .inl rfl, .inr hkept⟩
  obtain ⟨hmarked, hcore, hes₂, hqc, houtcome⟩ := hoffered
  have hcore' : t₂.core.proposals = s.core.proposals := by
    rw [hcore]
    rfl
  have hkv' : t₂.core.kv = s.core.kv := by
    rw [hcore]
    rfl
  have hsource : UpdateSource E s i t₂.core newQC := by
    rw [hcore]
    exact .timeout msg hhandles hcount rfl rfl
  have hupdated : ∀ t' : Pacemaker, Updated E s i newQC t₂ t' ∧ t'.tally = t₂.tally →
      LastVoteCollected E s i msg t' := by
    rintro t' ⟨hup, htally⟩
    have hes' : t'.epochState = es := (congrArg Tally.epochState htally).trans hes₂
    refine ⟨⟨hmarked.trans hup.steps, .counted (some newQC) es es.tcVoteManager hcount hes'
      fun q hq _ => ?_⟩, ?_, fun id d hd => ?_⟩
    · obtain rfl := Option.some.inj hq
      exact ⟨_, t₂.marks, hmarked, hup.steps,
        fun d hd hdround => Chain.getDraftByEscortQC_of_draft hd hdround, houtcome⟩
    · rcases hup.high with hkept | htaken
      · rw [hkept]
        exact hqc.imp_right fun h => by rw [h]; exact ⟨hid, hround⟩
      · rw [htaken]
        exact .inr ⟨hid, hround⟩
    · refine (hup.drafts id d ((congrFun hcore' id).trans hd)).imp_right ?_
      rintro ⟨hnumber, bPrime, l, b, x, hdraft, huncommitted, hwalk, hb, hx, hle⟩
      have hdraft' : s.core.IsEscortDraft newQC bPrime := by
        unfold Core.IsEscortDraft at hdraft ⊢
        rwa [hcore', hkv'] at hdraft
      have hlt := height_lt_of_commitReady htree hdraft' huncommitted hwalk hb hx
      exact UInt32.lt_of_le_of_lt hle (UInt32.lt_of_lt_of_le hlt hnumber)
  rw [ensures_bind]
  exact ((update_marks newQC t₂ (hcore ▸ hcounted) hsource).and (keeps_tally_update newQC t₂)).imp
    (fun _ t' h => hupdated t' h) hupdated

/-- Looking up the block of a certificate after the last vote was collected:
what was there before is found, or is below the highest certificate. -/
theorem LastVoteCollected.lookup {msg : PMTimeoutMessage} (h : LastVoteCollected E s i msg t')
    (htree : DraftTree E.H (BlockLink E.H) s.core) (hsteps : CoreSteps E s i s.core t'.core)
    (hnone : t'.chain.getDraftByEscortQC qc = none) {d : DraftBlock}
    (hd : s.core.IsEscortDraft qc d) : qc.number < t'.qcHigh.qc.number := by
  have hmissing := not_isEscortDraft_of_lookup hnone
  rcases hd with ⟨hd, hround⟩ | ⟨-, blk, ref, hblk, -⟩
  · rcases h.drafts _ d hd with hkept | hlt
    · exact absurd (.inl ⟨hkept, hround⟩) (hmissing d)
    · rwa [QuorumCert.number, ← htree.keyed _ d hd, Block.number_id]
  · have hstored : (s.core.kv.blocks qc.blockID).isSome := by
      rw [hblk]
      rfl
    obtain ⟨blk', hblk'⟩ := Option.isSome_iff_exists.mp (hsteps.isSome_stored hstored)
    have hlookup : (t'.chain.getDraftByEscortQC qc).isSome := by
      unfold Chain.getDraftByEscortQC
      have hblk'' : t'.chain.getBlock qc.blockID = some blk' := hblk'
      rw [hblk'']
      split <;> rfl
    rw [hnone] at hlookup
    exact nomatch hlookup

/-- What counting a timeout vote leaves behind. -/
theorem Handled.then_addTCVote {t : Pacemaker} (h : Handled E s i index round blockID sig t)
    (signerIndex wishRound : UInt32) (wishSig : Bytes) (hash : Bytes32) :
    Ensures (addTCVote E signerIndex wishRound wishSig hash) t
      (fun _ => Handled E s i index round blockID sig)
      (Handled E s i index round blockID sig) := by
  refine (addTCVote_spec _ _ _ _ t).imp (fun _ _ h' => ?_) (fun _ h' => h' ▸ h)
  obtain ⟨es, hcount, rfl⟩ := h'
  obtain ⟨tc, rfl⟩ := EpochState.addTCVote_eq hcount
  exact ⟨h.steps, h.counted.move .refl tc rfl⟩

theorem onReceiveTimeout_handled {mi : IncomingMsg} {rest : List IncomingMsg}
    {msg : PMTimeoutMessage} (cmdCh : Bool) (htree : DraftTree E.H (BlockLink E.H) s.core)
    (htakes : s.Takes i mi rest) (hmsg : mi.msg = .timeout msg) :
    Ensures (onReceiveTimeout E msg) (s.taking cmdCh rest) (fun _ => LastVoteHandled E s i msg)
      (LastVoteHandled E s i msg) := by
  have hhandles := htakes.handles hmsg
  unfold onReceiveTimeout
  rw [ensures_bind, ensures_get]
  split
  · exact .of_same rfl rfl
  rw [ensures_bind]
  refine ((collectLastVote_marks cmdCh htree htakes hmsg).and
    (collectLastVote_spec (E := E) msg _ hhandles rfl rfl rfl)).imp
    (fun _ t₁ h => ?_) (fun _ h => h.1.toHandled)
  obtain ⟨hcollected, hsteps₁⟩ := h
  have hsteps₁ := Relation.ReflTransGen.head (.dequeue s.core mi rest htakes.queue) hsteps₁
  -- the certificate the message carries
  have hadopt : Ensures (adoptQCHigh msg) t₁ (fun _ => LastVoteHandled E s i msg)
      (LastVoteHandled E s i msg) := by
    have hhandled := hcollected.toHandled
    have hkept : LastVoteHandled E s i msg t₁.bump :=
      ⟨hhandled.steps, hhandled.counted.move .refl t₁.epochState.tcVoteManager rfl⟩
    unfold adoptQCHigh
    simp only [ensures_bind, ensures_ofExcept, ensures_getDraftByEscortQC]
    refine ⟨fun qc hqc => ?_, fun _ _ => hhandled⟩
    refine (updateQCHigh_cases _ t₁.bump).imp (fun _ t₂ h => ?_) (fun _ h => h.1 ▸ hkept)
    rcases h with ⟨-, hreplaces, rfl⟩ | ⟨-, -, rfl⟩
    · have hstep : MarkStep E s i t₁.marks
          { t₁.marks with qcHigh := ⟨t₁.chain.getDraftByEscortQC qc, qc⟩ } :=
        .timeout t₁.marks msg _ qc t₁.core hhandles (eq_some_of_deref hqc) hsteps₁ hcollected.high
          (fun d hd => isEscortDraft_of_lookup hd)
          (fun hnone d hd => hcollected.lookup htree hsteps₁ hnone hd) hreplaces
      exact ⟨hhandled.steps.tail hstep,
        hhandled.counted.move (.single hstep) t₁.epochState.tcVoteManager rfl⟩
    · exact hkept
  rw [ensures_bind]
  refine hadopt.imp (fun _ t₂ h => ?_) (fun _ h => h)
  rw [ensures_bind]
  refine (h.then_addTCVote _ _ _ _).imp (fun tc t₃ h => ?_) (fun _ h => h)
  split
  · exact h
  · exact h.then_keeps fun _ => rfl

/-! ## Regulating -/

theorem regulate_marks (t : Pacemaker) (hcmd : i = .loop .cmd) (hwants : s.wantsRegulate = true)
    (hchain : t.chain = s.chain) (hhigh : t.qcHigh = s.qcHigh) : Marked E s i (regulate E) t := by
  have hmarks : t.marks = s.marks := by rw [Pacemaker.marks, hhigh, hchain]; rfl
  have hqc : t.regulateQC = s.regulateQC := by
    unfold Pacemaker.regulateQC
    rw [hhigh, hchain]
  refine (regulate_settled t).imp (fun _ t' h => ?_) (fun t' h => ?_)
  · obtain ⟨bestNode, es, hlookup, -, hsettled⟩ := h
    have hmarks' : t'.marks = { t.marks with qcHigh := ⟨some bestNode, t.regulateQC⟩ } :=
      congrArg (fun st : Settled => st.toStanding.marks) hsettled
    rw [hqc, hchain] at hlookup
    rw [hmarks', hmarks, hqc]
    exact .single (.regulate bestNode hcmd hwants (isEscortDraft_of_lookup hlookup))
  · rw [show t'.marks = t.marks from congrArg (fun st : Settled => st.toStanding.marks) h]

/-! ## Blocks from peers -/

theorem commitSynced_marks (blk : Block) (qc : QuorumCert) (t : Pacemaker)
    (hsync : i = .sync blk qc) : Marked E s i (commitSynced E blk qc) t := by
  unfold Marked commitSynced
  rw [ensures_bind, ensures_get]
  have hcommitted : ∀ t' : Pacemaker, t'.lead = t.lead →
      t'.chain.bestQC = t.chain.bestQC ∨ some qc = some t'.chain.bestQC →
      MarkSteps E s i t.marks t'.marks := by
    intro t' hlead hbest
    have hhigh : t'.qcHigh = t.qcHigh := congrArg Lead.qcHigh hlead
    rcases hbest with hbest | hbest
    · have hmarks : t'.marks = t.marks := by rw [Pacemaker.marks, hhigh, hbest]; rfl
      rw [hmarks]
    · have hmarks : t'.marks = { t.marks with bestQC := qc } := by
        rw [Pacemaker.marks, hhigh, ← Option.some.inj hbest]
        rfl
      rw [hmarks]
      exact .single (.sync t.marks blk qc hsync)
  split
  · exact .refl
  · exact .refl
  · exact .refl
  · exact .refl
  · exact ((keeps_lead_commitBlock blk (some qc) t).and (commitBlock_marks blk (some qc) t)).imp
      (fun _ t' h => hcommitted t' h.1 h.2.2) (fun t' h => hcommitted t' h.1 h.2.2)

theorem processBlock_marks (blk : Block) (qc : QuorumCert) (t : Pacemaker)
    (hsync : i = .sync blk qc) : Marked E s i (processBlock E blk qc) t := by
  unfold Marked processBlock
  rw [ensures_bind, ensures_get]
  split
  · exact .refl
  split
  · refine Marked.bind_left (Q := fun _ _ => True) ?_ fun valid t' _ => ?_
    · exact (keeps_marks (keeps_validateQC _ _) t).imp (fun _ _ h => ⟨h, trivial⟩) (fun _ h => h)
    · split
      · exact commitSynced_marks blk qc t' hsync
      · exact Marked.of_keeps (Keeps.pure _) _
  · exact commitSynced_marks blk qc t hsync

/-! ## A step -/

/-- **A step of a node is a sequence of actions on the two certificates**,
whether it returns or faults, as long as its drafts are a tree. -/
theorem Pacemaker.step_marks (E : Env) (s : Pacemaker) (i : Input)
    (htree : DraftTree E.H (BlockLink E.H) s.core) :
    MarkSteps E s i s.marks (s.step E i).marks := by
  refine Outcomes.step (f := Settled.toStanding) (Q := fun t => MarkSteps E s i s.marks t.marks)
    ⟨?_, ?_, ?_, ?_, ?_, ?_, ?_, ?_⟩
  · intro t ht
    rw [show t.marks = s.marks from congrArg Standing.marks ht]
  · exact fun t fault h => h
  · intro mi rest cmdCh msg htakes hmsg
    exact (onReceiveProposal_marks mi msg (s.taking cmdCh rest)
      (.single (.dequeue s.core mi rest htakes.queue)) hmsg (htakes.handles hmsg)
      ⟨⟨_, rfl⟩, rfl, rfl⟩).exec
  · intro mi rest cmdCh msg htakes hmsg
    exact (Ensures.exec (onReceiveVote_handled cmdCh (htakes.handles hmsg))).steps
  · intro mi rest cmdCh msg htakes hmsg
    exact (Ensures.exec (onReceiveTimeout_handled cmdCh htree htakes hmsg)).steps
  · intro b cmdCh _ _
    have hbeat := (keeps_onBeat (E := E) b.epoch b.round).comp
      (fun st => (⟨st.1, st.2.2.1⟩ : Marks))
    exact (Marked.of_keeps hbeat (s.beating cmdCh)).exec
  · exact fun hcmd hwants => (regulate_marks s.regulating hcmd hwants rfl rfl).exec
  · exact fun blk qc hsync => (processBlock_marks blk qc s hsync).exec

end LoragonBFT
