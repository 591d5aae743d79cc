import LoragonBFT.Pacemaker.CommitOutcome
import LoragonBFT.Pacemaker.Refinement

/-!
# What few handlers touch

The core of the pacemaker is what its safety rests on. Beside it stands what
drives the protocol forward: the highest certificate, the round of the last
beat, the votes collected, the blocks made and the blocks executed. Each of
these is written at one or two places of the code, and `Standing` gathers
them, so that one lemma says of all the other functions that they leave every
one of them alone.

Four things remain, and a part of what stands is kept by each: committing a
block executes it, counting a vote changes the epoch state, a certificate may
be taken for the highest one, and a beat or a `Regulate` starts a round.
-/

namespace LoragonBFT

open EStateM

variable {E : Env}

/-- The blocks the node made, oldest first. -/
def proposedDrafts (trace : List Event) : List DraftBlock :=
  trace.filterMap (fun e => match e with | .proposed d => some d | _ => none)

@[simp] theorem proposedDrafts_append (t₁ t₂ : List Event) :
    proposedDrafts (t₁ ++ t₂) = proposedDrafts t₁ ++ proposedDrafts t₂ :=
  List.filterMap_append

/-- What a commit leaves alone. -/
structure Lead where
  qcHigh : DraftQC
  epochState : EpochState
  lastOnBeatRound : Int32
  proposed : List DraftBlock

/-- What the handling of a proposal leaves alone, the certificate it brings
being the highest one perhaps. -/
structure Tally where
  epochState : EpochState
  lastOnBeatRound : Int32
  proposed : List DraftBlock

def Lead.tally (l : Lead) : Tally := ⟨l.epochState, l.lastOnBeatRound, l.proposed⟩

/-- What few handlers touch. -/
structure Standing extends Lead where
  bestQC : QuorumCert
  requests : List FinalizeBlockRequest

namespace Pacemaker

/-- The blocks the application was asked to execute. -/
def requests (p : Pacemaker) : List FinalizeBlockRequest := finalizeRequests p.trace

/-- The blocks the node made. -/
def proposed (p : Pacemaker) : List DraftBlock := proposedDrafts p.trace

def lead (p : Pacemaker) : Lead := ⟨p.qcHigh, p.epochState, p.lastOnBeatRound, p.proposed⟩

def tally (p : Pacemaker) : Tally := ⟨p.epochState, p.lastOnBeatRound, p.proposed⟩

def standing (p : Pacemaker) : Standing := ⟨p.lead, p.chain.bestQC, p.requests⟩

end Pacemaker

/-- What few handlers touch, and with it what only a commit does: the store
and the best block. -/
structure Settled extends Standing where
  kv : KV
  bestBlock : Block

def Pacemaker.settled (p : Pacemaker) : Settled := ⟨p.standing, p.chain.kv, p.chain.bestBlock⟩

/-- Two states are settled the same if they agree in what is gathered. -/
theorem settled_eq {t s : Pacemaker} (hqc : t.qcHigh = s.qcHigh)
    (hbest : t.chain.bestQC = s.chain.bestQC) (hes : t.epochState = s.epochState)
    (hbeat : t.lastOnBeatRound = s.lastOnBeatRound) (htrace : t.trace = s.trace)
    (hkv : t.chain.kv = s.chain.kv) (hblock : t.chain.bestBlock = s.chain.bestBlock) :
    t.settled = s.settled := by
  unfold Pacemaker.settled Pacemaker.standing Pacemaker.lead Pacemaker.requests Pacemaker.proposed
  rw [hqc, hbest, hes, hbeat, htrace, hkv, hblock]

/-! ## The functions that leave it alone -/

/-- Neither an execution nor a block of the node's own. -/
def Event.isRoutine : Event → Bool
  | .abci (.finalizeBlock _) => false
  | .proposed _ => false
  | _ => true

theorem keeps_ofExcept {α γ : Type} {f : Pacemaker → γ} (x : Except Panic α) :
    Keeps f (PM.ofExcept x) := by
  intro s
  rw [ensures_ofExcept]
  exact ⟨fun _ _ => rfl, fun _ _ => rfl⟩

theorem keeps_record {e : Event} (h : e.isRoutine = true) :
    Keeps Pacemaker.settled (record e) := by
  intro s
  rw [ensures_record]
  have hrequests : finalizeRequests [e] = [] := by
    unfold finalizeRequests
    unfold Event.isRoutine at h
    split at h <;> simp_all
  have hproposed : proposedDrafts [e] = [] := by
    unfold proposedDrafts
    unfold Event.isRoutine at h
    split at h <;> simp_all
  simp [Pacemaker.settled, Pacemaker.standing, Pacemaker.lead, Pacemaker.requests,
    Pacemaker.proposed, hrequests, hproposed]

theorem keeps_signed (hash : Bytes32) : Keeps Pacemaker.settled (record (.signed hash)) :=
  keeps_record rfl

theorem keeps_broadcast (msg : ConsensusMessage) :
    Keeps Pacemaker.settled (broadcast msg) :=
  Keeps.get.bind fun _ => (keeps_ofExcept _).bind fun _ => (keeps_ofExcept _).bind fun _ =>
    keeps_record rfl

theorem keeps_enterRound (round : UInt32) (rtype : RoundType) :
    Keeps Pacemaker.settled (enterRound round rtype) := by
  refine Keeps.get.bind fun p => ?_
  split
  · exact Keeps.pure _
  split
  · exact Keeps.pure _
  · exact fun _ => rfl

theorem keeps_validateQC (b : Block) (qc : QuorumCert) :
    Keeps Pacemaker.settled (validateQC E b qc) := by
  intro s
  refine (validateQC_spec b qc s).imp (fun r t h => ?_) (fun t h => by rw [h])
  rcases h.1 with rfl | ⟨-, rfl⟩ <;> rfl

theorem keeps_processProposal (blk : Block) :
    Keeps Pacemaker.settled (processProposal E blk) := by
  refine Keeps.get.bind fun p => (keeps_ofExcept _).bind fun req =>
    (keeps_record rfl).bind fun _ => ?_
  split
  · exact Keeps.pure _
  · exact fun _ => rfl
  · exact Keeps.pure _
  · exact Keeps.pure _

theorem keeps_validateProposal (b parent : DraftBlock) :
    Keeps Pacemaker.settled (validateProposal E b parent) := by
  refine Keeps.get.bind fun p => (keeps_ofExcept _).bind fun known => ?_
  split
  · exact Keeps.pure _
  refine (keeps_processProposal _).bind fun r => ?_
  split <;> exact Keeps.pure _

theorem keeps_parentMissing (mi : IncomingMsg) (blk : Block) :
    Keeps Pacemaker.settled (parentMissing E mi blk) := by
  have hback : Keeps Pacemaker.settled (modify (fun p : Pacemaker => { p with
      delayed := p.delayed ++ [{ mi with processCount := mi.processCount + 1 }] }) : PM Unit) :=
    fun _ => rfl
  refine Keeps.get.bind fun p => ?_
  split
  · split
    · exact ((keeps_signed _).bind fun _ => keeps_broadcast _).bind fun _ => hback
    · exact hback
  · exact Keeps.pure _

/-- The checks of a proposal keep what their parts keep. -/
theorem keeps_passProposal {γ : Type} {f : Pacemaker → γ} (hbump : ∀ t : Pacemaker, f t.bump = f t)
    (hmissing : ∀ mi blk, Keeps f (parentMissing E mi blk))
    (hqc : ∀ b qc, Keeps f (validateQC E b qc))
    (hvalidate : ∀ b parent, Keeps f (validateProposal E b parent)) (mi : IncomingMsg)
    (msg : PMProposalMessage) : Keeps f (passProposal E mi msg) := by
  have hchecks : ∀ blk parent, Keeps f (passChecks E msg blk parent) := by
    intro blk parent
    refine (hqc _ _).bind fun valid => ?_
    split
    · exact Keeps.pure _
    intro t
    rw [ensures_bind, ensures_get, ensures_bind, ensures_ofExcept]
    refine ⟨fun allowed _ => ?_, fun _ _ => rfl⟩
    split
    · exact rfl
    rw [ensures_bind, ensures_set, ← hbump t]
    refine ((hvalidate _ _).bind fun r => ?_) t.bump
    split <;> exact Keeps.pure _
  refine (keeps_ofExcept _).bind fun blk => Keeps.get.bind fun p => ?_
  split
  · exact Keeps.pure _
  have hlookup : Keeps f (getDraft blk.parentID) := fun t => hbump t
  refine hlookup.bind fun parent => ?_
  split
  · exact (hmissing mi blk).bind fun _ => Keeps.pure _
  · exact hchecks blk _

theorem keeps_settled_passProposal (mi : IncomingMsg) (msg : PMProposalMessage) :
    Keeps Pacemaker.settled (passProposal E mi msg) :=
  keeps_passProposal (fun _ => rfl) keeps_parentMissing keeps_validateQC keeps_validateProposal
    mi msg

theorem keeps_onReceiveQuery (msg : PMQueryMessage) :
    Keeps Pacemaker.settled (onReceiveQuery E msg) :=
  Keeps.get.bind fun _ => Keeps.forM (fun _ => (keeps_ofExcept _).bind fun m =>
    keeps_broadcast (.proposal m)) _

theorem keeps_prepareProposal (parent : DraftBlock) :
    Keeps Pacemaker.settled (prepareProposal E parent) := by
  intro s
  unfold prepareProposal
  rw [ensures_bind, ensures_get, ensures_bind, ensures_set]
  -- the cache is written first, and the rest is as before
  refine ((keeps_ofExcept _).bind fun vset => (keeps_ofExcept _).bind fun addr =>
    (keeps_record rfl).bind fun _ => ?_) { s with txCache := _ }
  split <;> exact Keeps.pure _

theorem keeps_createLeaf (parent : DraftBlock) (justify : DraftQC) (round : UInt32) :
    Keeps Pacemaker.settled (createLeaf E parent justify round) := by
  refine (keeps_prepareProposal parent).bind fun r => ?_
  split
  · exact Keeps.pure _
  intro s
  rw [ensures_bind, ensures_get]
  split
  · rfl
  split
  · rfl
  · rfl

theorem keeps_onPropose (qc : DraftQC) (round : UInt32) :
    Keeps Pacemaker.settled (onPropose E qc round) := by
  have hlookup : Keeps Pacemaker.settled (getDraftByEscortQC qc.qc) := fun _ => rfl
  refine hlookup.bind fun _ => (keeps_ofExcept _).bind fun parent =>
    (keeps_createLeaf parent qc round).bind fun r => ?_
  split
  · exact Keeps.pure _
  split
  · exact Keeps.pure _
  · intro s
    have hsigned : ∀ hash, ({ s with trace := s.trace ++ [.signed hash] } : Pacemaker).settled
        = s.settled := fun hash => keeps_signed hash s
    simp only [ensures_bind, ensures_get, ensures_record, ensures_ofExcept, ensures_modify,
      ensures_pure]
    generalize ConsensusMessage.getMsgHash E.H _ = hash
    exact ⟨fun _ _ => (settled_eq rfl rfl rfl rfl rfl rfl rfl).trans (hsigned hash),
      fun _ _ => hsigned hash⟩

theorem keeps_onBroadcastProposal : Keeps Pacemaker.settled onBroadcastProposal := by
  refine Keeps.get.bind fun p => ?_
  split
  · exact Keeps.pure _
  split
  · exact Keeps.pure _
  · exact keeps_broadcast _

theorem keeps_onRoundTimeout (ti : PMRoundTimeoutInfo) :
    Keeps Pacemaker.settled (onRoundTimeout E ti) :=
  (keeps_enterRound _ _).bind fun _ => Keeps.get.bind fun _ => (keeps_signed _).bind fun _ =>
    (keeps_signed _).bind fun _ => keeps_broadcast _

theorem keeps_enqueue (mi : IncomingMsg) : Keeps Pacemaker.settled (enqueue mi) := by
  intro s
  unfold enqueue
  rw [ensures_bind, ensures_get]
  split
  · rfl
  · rw [ensures_bind, ensures_set, ensures_bind, ensures_ofExcept]
    exact ⟨fun _ _ => settled_eq rfl rfl rfl rfl rfl rfl rfl,
      fun _ _ => settled_eq rfl rfl rfl rfl rfl rfl rfl⟩

theorem keeps_admitIncoming (mi : IncomingMsg) : Keeps Pacemaker.settled (admitIncoming mi) := by
  intro s
  unfold admitIncoming
  rw [ensures_bind, ensures_get]
  split
  · exact keeps_enqueue mi s
  · rfl

theorem keeps_checkDecodes (mi : IncomingMsg) : Keeps Pacemaker.settled (checkDecodes mi) := by
  unfold checkDecodes
  split
  · exact Keeps.pure _
  · exact fun _ => rfl

theorem keeps_addIncoming (mi : IncomingMsg) : Keeps Pacemaker.settled (addIncoming E mi) := by
  intro s
  unfold addIncoming
  rw [ensures_bind, ensures_get]
  split
  · exact keeps_ofExcept _ s
  split
  · refine (Keeps.get.bind fun p => (keeps_ofExcept _).bind fun signerIndex => ?_) s
    split
    · exact Keeps.pure _
    refine (keeps_ofExcept _).bind fun signer => ?_
    split
    · exact keeps_ofExcept _
    · exact keeps_checkDecodes mi
  · exact keeps_checkDecodes mi s

/-! ## What a commit leaves alone -/

theorem keeps_lead_record {e : Event} (h : proposedDrafts [e] = []) :
    Keeps Pacemaker.lead (record e) := by
  intro s
  rw [ensures_record]
  simp [Pacemaker.lead, Pacemaker.proposed, h]

theorem keeps_lead_afterFinalize (blk : Block) (response : FinalizeBlockResponse) :
    Keeps Pacemaker.lead (afterFinalize E blk response) := by
  unfold afterFinalize
  split
  · exact Keeps.pure _
  have hforget : Keeps Pacemaker.lead (forgetTxs E blk) := fun _ => rfl
  exact hforget.bind fun _ => Keeps.get.bind fun _ => (keeps_ofExcept _).bind fun _ => Keeps.pure _

theorem keeps_lead_applyBlock (blk : Block) (syncingToHeight : ℤ) :
    Keeps Pacemaker.lead (applyBlock E blk syncingToHeight) := by
  refine Keeps.get.bind fun p => ?_
  split
  · exact Keeps.pure _
  refine (keeps_ofExcept _).bind fun req => (keeps_lead_record rfl).bind fun _ => ?_
  split
  · exact Keeps.pure _
  · exact keeps_lead_afterFinalize blk _

theorem keeps_lead_addCommitted (blk : Block) (escortQC : Option QuorumCert) :
    Keeps Pacemaker.lead (addCommitted E blk escortQC) := by
  refine fun s => (addCommitted_adds blk escortQC s).imp (fun _ s' h => ?_) (fun _ h => h.1 ▸ rfl)
  obtain ⟨result, -, -, lastCommitted, cmdCh, hs'⟩ := h
  rw [hs']
  rfl

theorem keeps_lead_registerNext (blk : Block) (nxtVSet : Option ValidatorSet) :
    Keeps Pacemaker.lead (registerNext E blk nxtVSet) := by
  have hregister : ∀ curNum vset nxtVSet,
      Keeps Pacemaker.lead (registerNewValidatorSet E curNum vset nxtVSet) := by
    intro curNum vset nxtVSet s
    unfold registerNewValidatorSet
    rw [ensures_modify]
    dsimp only
    generalize (if curNum = 0 then 0 else curNum + 4 - 1) = enableNum
    split <;> rfl
  unfold registerNext
  split
  · exact Keeps.pure _
  intro s
  rw [ensures_bind, ensures_get, ensures_bind, ensures_set]
  split
  · rfl
  · rw [ensures_bind, ensures_modify]
    exact ((hregister _ _ _).bind fun _ => Keeps.pure _) _

theorem keeps_lead_commitBlock (blk : Block) (escortQC : Option QuorumCert) :
    Keeps Pacemaker.lead (commitBlock E blk escortQC) := by
  refine Keeps.get.bind fun p => ?_
  split
  · exact Keeps.pure _
  refine (keeps_lead_applyBlock _ _).bind fun r => ?_
  unfold commitExecuted
  split
  · exact Keeps.pure _
  refine (keeps_lead_registerNext _ _).bind fun r => ?_
  split
  · exact Keeps.pure _
  · exact keeps_lead_addCommitted _ _

theorem keeps_lead_onCommitLoop (l : List CommitReadyBlock) (lastCommitted : Block) :
    Keeps Pacemaker.lead (onCommitLoop E l lastCommitted) :=
  fun t => onCommitLoop_moves (R := fun t t' => t'.lead = t.lead) (fun _ => rfl)
    (fun h h' => h'.trans h) l (fun _ _ _ _ t => keeps_lead_commitBlock _ _ t) lastCommitted t

theorem keeps_lead_onCommit (commitReady : List CommitReadyBlock) :
    Keeps Pacemaker.lead (onCommit E commitReady) := by
  refine Keeps.get.bind fun p => (keeps_lead_record rfl).bind fun _ => ?_
  split
  · exact Keeps.pure _
  · exact (keeps_ofExcept _).bind fun blk => (keeps_lead_onCommitLoop _ _).bind fun _ =>
      Keeps.pure _

/-! ## What a proposal does

An accepted proposal moves what is settled in one place, the call of `Update`:
a property that this call ensures is ensured by the handler. -/

variable {mi : IncomingMsg}

section Accepting

variable {s : Pacemaker} {i : Input} {P : Settled → Prop} {msg : PMProposalMessage} {blk : Block}
  {parent bnew : DraftBlock} {t : Pacemaker}

theorem voteFor_settles (h : Votable E s i msg blk parent bnew t)
    (hsteps : CoreSteps E s i s.core t.core)
    (hupdate : ∀ t' : Pacemaker, CoreSteps E s i s.core t'.core →
      UpdateSource E s i t'.core blk.qc → t'.settled = t.settled →
      t'.lastCommitted = t.lastCommitted →
      Ensures (update E blk.qc) t' (fun _ t'' => P t''.settled) (fun t'' => P t''.settled)) :
    Ensures (voteFor E msg bnew) t (fun _ t' => P t'.settled) (fun t' => P t'.settled) := by
  refine h.ensures_voteFor fun v hash _ hvoted hsource => ?_
  have hsettled := (keeps_signed hash { t with trace := t.trace ++ [.voted bnew v] }).trans
    (keeps_record (e := .voted bnew v) rfl t)
  have hset : ∀ height, Keeps Pacemaker.settled (modify (fun p : Pacemaker => { p with
    lastVoteMsg := some v, lastVotingHeight := height }) : PM Unit) := fun _ _ => rfl
  generalize number v.voteBlockID = height
  rw [ensures_bind]
  refine (hupdate _ (hsteps.trans hvoted) hsource hsettled rfl).imp (fun last t₂ h => ?_)
    (fun _ h => h)
  refine Preserves.of_keeps ((hset height).bind fun _ => ?_) P t₂ h
  split
  · exact Keeps.pure _
  · exact (keeps_broadcast _).bind fun _ => (keeps_enterRound _ _).bind fun _ => Keeps.pure _

/-- **What `Update` ensures is ensured by the handler of a proposal.** -/
theorem onReceiveProposal_settles (hmi : mi.msg = .proposal msg)
    (hhandles : s.Handles i (.proposal msg)) (hsteps : CoreSteps E s i s.core t.core)
    (hunchanged : Unchanged s t) (hbefore : P t.settled)
    (hupdate : ∀ qc (t' : Pacemaker), CoreSteps E s i s.core t'.core →
      UpdateSource E s i t'.core qc → t'.settled = t.settled → t'.lastCommitted = t.lastCommitted →
      Ensures (update E qc) t' (fun _ t'' => P t''.settled) (fun t'' => P t''.settled)) :
    Ensures (onReceiveProposal E mi msg) t (fun _ t' => P t'.settled) (fun t' => P t'.settled) := by
  rw [onReceiveProposal, ensures_bind]
  refine ((keeps_settled_passProposal mi msg t).and
    (passProposal_spec mi msg t hmi (hmi ▸ hhandles) hunchanged)).imp (fun r t' h => ?_)
    (fun t' h => h.1 ▸ hbefore)
  obtain ⟨hsettled, hchecked⟩ := h
  rw [← hsettled] at hbefore hupdate
  cases r with
  | none => exact hbefore
  | some bnew =>
    obtain ⟨hunchanged', hlast, blk, parent, haccepted, hvalid⟩ := hchecked.passed bnew rfl
    have hsteps' := hsteps.trans hchecked.steps
    refine ensures_acceptProposal haccepted hvalid hunchanged' (fun t'' h => ?_)
      fun t'' h hvotable => voteFor_settles hvotable (hsteps'.trans h.steps)
        fun t₃ hsteps₃ hsource hsame hlast' => hupdate _ t₃ hsteps₃ hsource (hsame.trans ?_)
          (hlast'.trans ?_)
    all_goals obtain ⟨proposals, rfl⟩ := h.state_eq
    · exact hbefore
    · rfl
    · exact hlast

end Accepting

/-! ## What a proposal and a block of a peer leave alone -/

theorem keeps_tally {α : Type} {x : PM α} (h : Keeps Pacemaker.settled x) :
    Keeps Pacemaker.tally x := h.comp (fun st => st.toLead.tally)

theorem keeps_tally_updateQCHigh (q : DraftQC) : Keeps Pacemaker.tally (updateQCHigh q) :=
  fun t => (updateQCHigh_spec q t).imp (fun _ _ ⟨_, h⟩ => by rw [h]; rfl) (fun _ h => by rw [h])

theorem keeps_tally_update (qc : QuorumCert) : Keeps Pacemaker.tally (update E qc) := by
  refine fun t => ensures_update qc t ⟨rfl, rfl⟩ fun bPrime t₁ _ _ h => ?_
  have ht₁ : t₁.tally = t.tally := by
    rcases h with ⟨-, rfl⟩ | ⟨-, rfl⟩ <;> rfl
  rw [← ht₁]
  exact ⟨rfl, rfl, fun l _ => (keeps_lead_onCommit l).comp Lead.tally t₁⟩

theorem keeps_tally_voteFor (msg : PMProposalMessage) (bnew : DraftBlock) :
    Keeps Pacemaker.tally (voteFor E msg bnew) := by
  refine Keeps.get.bind fun p => ?_
  have hset : ∀ v height, Keeps Pacemaker.tally (modify (fun p : Pacemaker => { p with
    lastVoteMsg := v, lastVotingHeight := height }) : PM Unit) := fun _ _ _ => rfl
  refine (keeps_tally (keeps_record rfl)).bind fun _ => (keeps_tally (keeps_signed _)).bind fun _ =>
    (keeps_tally_update _).bind fun _ => (hset _ _).bind fun _ => ?_
  split
  · exact Keeps.pure _
  · exact (keeps_tally (keeps_broadcast _)).bind fun _ =>
      (keeps_tally (keeps_enterRound _ _)).bind fun _ => Keeps.pure _

theorem keeps_tally_onReceiveProposal (mi : IncomingMsg) (msg : PMProposalMessage) :
    Keeps Pacemaker.tally (onReceiveProposal E mi msg) := by
  rw [onReceiveProposal]
  refine (keeps_tally (keeps_settled_passProposal mi msg)).bind fun r => ?_
  cases r with
  | none => exact Keeps.pure _
  | some bnew =>
    have hadd : Keeps Pacemaker.tally (addDraft E.H bnew) := fun _ => rfl
    have hvote : Keeps Pacemaker.tally (do
        let p ← get
        if bnew.height ≥ p.lastVotingHeight && p.extendedFromLastCommitted E bnew then
          voteFor E msg bnew : PM Unit) := by
      refine Keeps.get.bind fun p => ?_
      split
      · exact keeps_tally_voteFor msg bnew
      · exact Keeps.pure _
    refine Keeps.get.bind fun p => ?_
    split
    · exact hadd.bind fun _ => hvote
    · exact hvote

theorem keeps_tally_processBlock (blk : Block) (qc : QuorumCert) :
    Keeps Pacemaker.tally (processBlock E blk qc) := by
  have hcommit : Keeps Pacemaker.tally (commitSynced E blk qc) := by
    refine Keeps.get.bind fun p => ?_
    split
    · exact Keeps.pure _
    · exact Keeps.pure _
    · exact Keeps.pure _
    · exact Keeps.pure _
    · exact (keeps_lead_commitBlock blk (some qc)).comp Lead.tally
  refine Keeps.get.bind fun p => ?_
  split
  · exact Keeps.pure _
  split
  · refine (keeps_tally (keeps_validateQC _ _)).bind fun valid => ?_
    split
    · exact hcommit
    · exact Keeps.pure _
  · exact hcommit

/-- The handler of a vote keeps what counting it and offering a certificate
keep. -/
theorem keeps_onReceiveVote {γ : Type} {f : Pacemaker → γ}
    (hquiet : ∀ {α : Type} {x : PM α}, Keeps Pacemaker.settled x → Keeps f x)
    (hcount : ∀ index round id sig, Keeps f (addQCVote E index round id sig))
    (hhigh : ∀ q, Keeps f (updateQCHigh q)) (mi : IncomingMsg) (msg : PMVoteMessage) :
    Keeps f (onReceiveVote E mi msg) := by
  have hlookup : ∀ id, Keeps f (getDraft id) := fun _ => hquiet fun _ => rfl
  have hbeat : ∀ epoch round, Keeps f (scheduleOnBeat epoch round) :=
    fun _ _ => hquiet fun _ => rfl
  refine Keeps.get.bind fun p => ?_
  split
  · exact Keeps.pure _
  split
  · exact Keeps.pure _
  refine (hlookup _).bind fun d => ?_
  split
  · exact hquiet fun _ => rfl
  unfold countVote
  split
  · exact Keeps.pure _
  refine (hcount _ _ _ _).bind fun qc => ?_
  split
  · exact Keeps.pure _
  refine (hhigh _).bind fun changed => ?_
  split
  · exact Keeps.get.bind fun _ => (hbeat _ _).bind fun _ =>
      (hquiet (keeps_enterRound _ _)).bind fun _ => Keeps.pure _
  · exact Keeps.pure _

/-! ## A beat -/

/-- What a beat leaves alone. -/
theorem keeps_onBeat (epoch : UInt64) (round : UInt32) :
    Keeps (fun p : Pacemaker => (p.qcHigh, p.epochState, p.chain.bestQC, p.requests, p.chain.kv,
      p.chain.bestBlock)) (onBeat E epoch round) := by
  intro s
  unfold onBeat
  rw [ensures_bind, ensures_get]
  split
  · rfl
  split
  · rfl
  split
  · rfl
  rw [ensures_bind, ensures_set, ensures_bind, ensures_getDraftByEscortQC]
  split
  · rfl
  have hpropose := (keeps_onPropose (E := E) s.qcHigh round).comp
    (fun st => (st.qcHigh, st.epochState, st.bestQC, st.requests, st.kv, st.bestBlock))
  refine (hpropose.bind fun r => ?_)
    (Pacemaker.bump { s with lastOnBeatRound := Int32.ofNat round.toNat })
  split
  · exact Keeps.pure _
  refine (keeps_ofExcept _).bind fun m t => ?_
  unfold adoptProposal scheduleBroadcast
  simp only [ensures_bind, ensures_addDraft, ensures_record, ensures_modify, ensures_get]
  split <;> simp [Pacemaker.settled, Pacemaker.standing, Pacemaker.lead, Pacemaker.requests,
    finalizeRequests, Chain.addDraft]

/-! ## Regulating -/

/-- **What `Regulate` makes of the standing.** -/
theorem regulate_settled (t : Pacemaker) :
    Ensures (regulate E) t
      (fun _ t' => ∃ bestNode es, t.chain.getDraftByEscortQC t.regulateQC = some bestNode
        ∧ (es = t.epochState ∧ newEpochState E t.chain bestNode.proposedBlock t.myPubKey = .ok none
          ∨ newEpochState E t.chain bestNode.proposedBlock t.myPubKey = .ok (some es))
        ∧ t'.settled = { t.settled with
            qcHigh := ⟨some bestNode, t.regulateQC⟩
            epochState := es
            lastOnBeatRound := Int32.ofNat t.regulateRound.toNat - 1 })
      (fun t' => t'.settled = t.settled) := by
  unfold regulate
  simp only [ensures_bind, ensures_get, ensures_getDraftByEscortQC, ensures_ofExcept]
  refine ⟨fun bestNode hbest => ?_, fun _ _ => rfl⟩
  refine (updateEpochState_spec _ t.bump).imp (fun _ t₁ h => ?_) (fun _ h => h ▸ rfl)
  obtain ⟨es, rfl, hes⟩ := h
  unfold resetPacemaker
  simp only [ensures_modify]
  refine ((keeps_enterRound _ _ _).and (enterRound_spec _ _ _)).imp (fun _ t₂ h => ?_)
    (fun _ h => h.2.elim)
  exact ⟨bestNode, es, eq_some_of_deref hbest, hes, h.1⟩

/-- What a node stands with when it has started. -/
theorem startPacemaker_standing {chain : Chain} {app : App} {myPubKey : Bytes} {now : Time}
    {p : Pacemaker} (h : startPacemaker E chain app myPubKey now = .ok p) :
    ∃ bestNode es lastOnBeatRound, chain.getDraftByEscortQC chain.bestQC = some bestNode
      ∧ newEpochState E chain bestNode.proposedBlock myPubKey = .ok (some es)
      ∧ p.standing
        = ⟨⟨⟨some bestNode, chain.bestQC⟩, es, lastOnBeatRound, []⟩, chain.bestQC, []⟩ := by
  obtain ⟨registry, bestNode, es, -, hbest, hes, hreg⟩ := startPacemaker_eq h
  have hspec := regulate_settled (E := E) (newPacemaker chain app myPubKey es registry now)
  unfold Ensures at hspec
  rw [hreg, regulateQC_newPacemaker] at hspec
  obtain ⟨bestNode', es', hlookup, hes', hsettled⟩ := hspec
  obtain rfl : bestNode' = bestNode := Option.some.inj (hlookup.symm.trans hbest)
  obtain rfl : es' = es := by
    rcases hes' with ⟨rfl, -⟩ | hnew
    · rfl
    · exact Option.some.inj (Except.ok.inj (hnew.symm.trans hes))
  exact ⟨_, _, _, hbest, hes, congrArg Settled.toStanding hsettled⟩

/-! ## The handlers that touch it -/

/-- The main loop takes the message for the node's own epoch from the head
of the queue. -/
structure Pacemaker.Takes (s : Pacemaker) (i : Input) (mi : IncomingMsg)
    (rest : List IncomingMsg) : Prop where
  input : i = .loop .message
  queue : s.inQueue = mi :: rest
  listens : s.listens = true
  epoch : mi.msg.getEpoch = s.epochState.epoch

theorem Pacemaker.Takes.handles {s : Pacemaker} {i : Input} {rest : List IncomingMsg}
    {m : ConsensusMessage} (h : s.Takes i mi rest) (hm : mi.msg = m) :
    s.Handles i m := ⟨h.input, mi, rest, h.queue, hm⟩

/-- The state a message is handled in. The head of the main loop may have
asked for a `Regulate` before. -/
def Pacemaker.taking (s : Pacemaker) (cmdCh : Bool) (rest : List IncomingMsg) : Pacemaker :=
  { s with cmdCh, inQueue := rest }

/-- The state a beat is handled in. -/
def Pacemaker.beating (s : Pacemaker) (cmdCh : Bool) : Pacemaker :=
  { s with cmdCh, beatCh := none }

/-- A `Regulate` was asked for, if only by the head of the main loop. -/
def Pacemaker.wantsRegulate (s : Pacemaker) : Bool :=
  s.cmdCh || (s.chain.bestBlock.number > s.qcHigh.qc.number && s.epochState.inCommittee)

/-- The state a `Regulate` starts in. -/
def Pacemaker.regulating (s : Pacemaker) : Pacemaker := { s with cmdCh := false }

/-- **A turn of the main loop for a message** ensures what the handler of the
message ensures, unless none is taken. -/
theorem ensures_message {s : Pacemaker} {Q : Unit → Pacemaker → Prop} {Q' : Pacemaker → Prop}
    (hidle : (∀ mi rest, ¬ s.Takes (.loop .message) mi rest) →
      ∀ cmdCh rest, Q () (s.taking cmdCh rest))
    (htaken : ∀ mi rest cmdCh, s.Takes (.loop .message) mi rest →
      Ensures (handleMessage E mi) (s.taking cmdCh rest) Q Q') :
    Ensures (Pacemaker.handle E (.loop .message)) s Q Q' := by
  have hbranch : ∀ cmdCh, Ensures (selectBranch E .message) { s with cmdCh } Q Q' := by
    intro cmdCh
    unfold selectBranch
    rw [ensures_bind, ensures_get]
    split
    · rename_i hnone
      have hnone : s.inQueue = [] := hnone
      exact hidle (fun mi rest h => by cases h.queue.symm.trans hnone) cmdCh s.inQueue
    rename_i mi rest hqueue
    have hqueue : s.inQueue = mi :: rest := hqueue
    rw [ensures_bind, ensures_set]
    split
    · rename_i hdeaf
      have hdeaf : (!s.listens) = true := hdeaf
      refine hidle (fun _ _ h => ?_) cmdCh rest
      rw [h.listens] at hdeaf
      cases hdeaf
    rename_i hlistens
    split
    · rename_i hepoch
      refine hidle (fun mi' rest' h => ?_) cmdCh rest
      obtain ⟨rfl, rfl⟩ := List.cons.inj (h.queue.symm.trans hqueue)
      exact hepoch h.epoch
    · rename_i hepoch
      have hlistens : ¬ (!s.listens) = true := hlistens
      exact htaken mi rest cmdCh ⟨rfl, hqueue, by simpa using hlistens, not_not.mp hepoch⟩
  unfold Pacemaker.handle mainLoop loopHead
  simp only [ensures_bind, ensures_get]
  split
  · exact hbranch true
  · exact hbranch s.cmdCh

/-- **A step that takes a message ensures what its handler ensures.** -/
theorem Pacemaker.Takes.step {s : Pacemaker} {i : Input} {rest : List IncomingMsg}
    {Q : Pacemaker → Prop} (h : s.Takes i mi rest) (hrunning : s.halted = none)
    (hhalts : ∀ (t : Pacemaker) fault, Q t → Q { t with halted := some fault })
    (hhandler : ∀ cmdCh, Ensures (handleMessage E mi) (s.taking cmdCh rest) (fun _ => Q) Q) :
    Q (s.step E i) := by
  obtain rfl := h.input
  have hhandle : Ensures (Pacemaker.handle E (.loop .message)) s (fun _ => Q) Q := by
    refine ensures_message (fun hnone => absurd h (hnone mi rest)) fun mi' rest' cmdCh h' => ?_
    obtain ⟨rfl, rfl⟩ := List.cons.inj (h.queue.symm.trans h'.queue)
    exact hhandler cmdCh
  unfold Pacemaker.step
  rw [hrunning]
  unfold Ensures at hhandle
  split <;> rename_i heq
  · exact absurd heq (fun h => by cases h)
  · split <;> rename_i heq' <;> rw [heq'] at hhandle
    · exact hhandle
    · exact hhalts _ _ hhandle

/-- **What the handlers that touch the standing or the store have to
ensure**, so that a step from `s` on the input `i` ensures it. What is ensured
may rest on a part `f` of what is settled, such as the standing alone. -/
structure Outcomes (E : Env) (s : Pacemaker) (i : Input) {γ : Type} (f : Settled → γ)
    (Q : Pacemaker → Prop) : Prop where
  quiet : ∀ t : Pacemaker, f t.settled = f s.settled → Q t
  halts : ∀ (t : Pacemaker) fault, Q t → Q { t with halted := some fault }
  proposal : ∀ mi rest cmdCh msg, s.Takes i mi rest → mi.msg = .proposal msg →
    Q ((onReceiveProposal E mi msg).exec (s.taking cmdCh rest))
  vote : ∀ mi rest cmdCh msg, s.Takes i mi rest → mi.msg = .vote msg →
    Q ((onReceiveVote E mi msg).exec (s.taking cmdCh rest))
  timeout : ∀ mi rest cmdCh msg, s.Takes i mi rest → mi.msg = .timeout msg →
    Q ((onReceiveTimeout E msg).exec (s.taking cmdCh rest))
  beat : ∀ b cmdCh, i = .loop .beat → s.beatCh = some b →
    Q ((onBeat E b.epoch b.round).exec (s.beating cmdCh))
  cmd : i = .loop .cmd → s.wantsRegulate = true → Q ((regulate E).exec s.regulating)
  sync : ∀ blk qc, i = .sync blk qc → Q ((processBlock E blk qc).exec s)

namespace Outcomes

variable {s : Pacemaker} {i : Input} {γ : Type} {f : Settled → γ} {Q : Pacemaker → Prop}

/-- What keeps the standing and the store may run from any state settled like
`s`. -/
theorem of_keeps {α : Type} {x : PM α} (h : Outcomes E s i f Q) (hx : Keeps Pacemaker.settled x)
    (t : Pacemaker) (ht : t.settled = s.settled) : Ensures x t (fun _ => Q) Q :=
  (hx t).imp (fun _ t' h' => h.quiet t' (congrArg f (h'.trans ht)))
    (fun t' h' => h.quiet t' (congrArg f (h'.trans ht)))

theorem selectBranch (h : Outcomes E s i f Q) (sel : Select) (cmdCh : Bool)
    (hinput : i = .loop sel) (hwants : cmdCh = true → s.wantsRegulate = true) :
    Ensures (LoragonBFT.selectBranch E sel) { s with cmdCh } (fun _ => Q) Q := by
  have hsame : Q { s with cmdCh } := h.quiet _ rfl
  cases sel with
  | cmd =>
    simp only [LoragonBFT.selectBranch, ensures_bind, ensures_get]
    split
    · rename_i hcmd
      simp only [ensures_bind, ensures_modify]
      exact ensures_exec.mpr (h.cmd hinput (hwants hcmd))
    · exact hsame
  | roundTimeout =>
    simp only [LoragonBFT.selectBranch, ensures_bind, ensures_get]
    split
    · exact hsame
    simp only [ensures_bind, ensures_set]
    split
    · exact h.quiet _ rfl
    · exact h.of_keeps (keeps_onRoundTimeout _) _ rfl
  | newTx => exact hsame
  | broadcast =>
    simp only [LoragonBFT.selectBranch, ensures_bind, ensures_get]
    split
    · simp only [ensures_bind, ensures_set]
      exact h.of_keeps keeps_onBroadcastProposal _ rfl
    · exact hsame
  | beat =>
    simp only [LoragonBFT.selectBranch, ensures_bind, ensures_get]
    split
    · exact hsame
    · rename_i b hb
      simp only [ensures_bind, ensures_set]
      exact ensures_exec.mpr (h.beat b cmdCh hinput hb)
  | message =>
    simp only [LoragonBFT.selectBranch, ensures_bind, ensures_get]
    split
    · exact hsame
    rename_i mi rest hhead
    simp only [ensures_bind, ensures_set]
    split
    · exact h.quiet _ rfl
    split
    · exact h.quiet _ rfl
    rename_i hlistens hepoch
    have hlistens' : s.listens = true := by
      cases hs : s.listens with
      | true => rfl
      | false => exact absurd (congrArg (!·) hs) hlistens
    have htakes : s.Takes i mi rest := ⟨hinput, hhead, hlistens', not_not.mp hepoch⟩
    unfold handleMessage
    split
    · exact ensures_exec.mpr (h.proposal mi rest cmdCh _ htakes ‹_›)
    · exact ensures_exec.mpr (h.vote mi rest cmdCh _ htakes ‹_›)
    · exact ensures_exec.mpr (h.timeout mi rest cmdCh _ htakes ‹_›)
    · exact h.of_keeps (keeps_onReceiveQuery _) _ rfl

theorem handle (h : Outcomes E s i f Q) : Ensures (Pacemaker.handle E i) s (fun _ => Q) Q := by
  have hsame : Q s := h.quiet _ rfl
  cases i with
  | receive msg senderAddr => exact h.of_keeps (keeps_addIncoming _) s rfl
  | enter k =>
    simp only [Pacemaker.handle, ensures_bind, ensures_get]
    split
    · exact hsame
    · simp only [ensures_bind, ensures_set]
      exact h.of_keeps (keeps_admitIncoming _) _ rfl
  | retryFuture k =>
    simp only [Pacemaker.handle, ensures_bind, ensures_get]
    split
    · exact hsame
    · simp only [ensures_bind, ensures_set]
      exact h.of_keeps (keeps_addIncoming _) _ rfl
  | delayedAdd k =>
    simp only [Pacemaker.handle, ensures_bind, ensures_get]
    split
    · exact hsame
    · exact h.quiet _ (congrArg f (settled_eq rfl rfl rfl rfl rfl rfl rfl))
  | roundTimer =>
    simp only [Pacemaker.handle, ensures_modify]
    exact h.quiet _ (by split <;> rfl)
  | broadcastTimer =>
    simp only [Pacemaker.handle, ensures_modify]
    exact h.quiet _ (by split <;> rfl)
  | tick now => exact h.quiet _ rfl
  | pool txs => exact h.quiet _ rfl
  | loop sel =>
    unfold Pacemaker.handle mainLoop loopHead
    simp only [ensures_bind, ensures_get]
    split
    · rename_i hbehind
      exact h.selectBranch sel true rfl fun _ => Bool.or_eq_true_iff.mpr (.inr hbehind)
    · exact h.selectBranch sel s.cmdCh rfl fun hcmd => Bool.or_eq_true_iff.mpr (.inl hcmd)
  | sync blk qc =>
    simp only [Pacemaker.handle, ensures_bind]
    exact ensures_exec.mpr (h.sync blk qc rfl)

/-- **A step ensures what the handlers ensure.** -/
theorem step (h : Outcomes E s i f Q) : Q (s.step E i) := by
  unfold Pacemaker.step
  split
  · exact h.quiet _ rfl
  have hhandle := h.handle
  unfold Ensures at hhandle
  split <;> rename_i heq <;> rw [heq] at hhandle
  · exact hhandle
  · exact h.halts _ _ hhandle

end Outcomes

end LoragonBFT
