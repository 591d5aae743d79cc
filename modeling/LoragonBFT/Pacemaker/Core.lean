import LoragonBFT.Node

/-!
# The core of the pacemaker

Most of what a handler writes is bookkeeping: timers, channels, the
transaction pool, pointers handed out. `Core` is the rest – the store, the
drafts, the epoch state, the certificates known to be valid, the round, the
queued messages and the trace – and `CoreStep` lists everything a node does
to it, one constructor an action, each with what the code has checked by the
time it acts.

The actions are those of one step of a node, so they may refer to the state
the step started in and to its input. A step of a node is a sequence of them
(`Pacemaker.step_refines`, in the next module): an invariant of the core is
then proved action by action, without looking at a handler again.
-/

namespace LoragonBFT

/-- The part of the state the invariants are about. -/
structure Core where
  kv : KV
  bestBlock : Block
  proposals : Bytes32 → Option DraftBlock
  committedRefs : List Ref
  epochState : EpochState
  validQCs : List Bytes32
  lastCommitted : Block
  currentRound : UInt32
  inQueue : List IncomingMsg
  delayed : List IncomingMsg
  admitting : List IncomingMsg
  future : List IncomingMsg
  trace : List Event

/-- Forget the bookkeeping. -/
def Pacemaker.core (p : Pacemaker) : Core where
  kv := p.chain.kv
  bestBlock := p.chain.bestBlock
  proposals := p.chain.proposals
  committedRefs := p.chain.committedRefs
  epochState := p.epochState
  validQCs := p.validQCs
  lastCommitted := p.lastCommitted
  currentRound := p.currentRound
  inQueue := p.inQueue
  delayed := p.delayed
  admitting := p.admitting
  future := p.future
  trace := p.trace

/-- The events no result singles out: application calls, signatures other
than votes, and messages other than votes. -/
def Event.isQuiet : Event → Bool
  | .abci _ => true
  | .signed _ => true
  | .broadcast (.vote _) => false
  | .broadcast _ => true
  | .voted _ _ => false
  | .proposed _ => false
  | .onCommit _ _ => false

/-! ## What the code has checked -/

/-- The input makes the main loop take this message from the queue. -/
def Pacemaker.Handles (s : Pacemaker) (i : Input) (m : ConsensusMessage) : Prop :=
  i = .loop .message ∧ ∃ mi rest, s.inQueue = mi :: rest ∧ mi.msg = m

/-- Only one message is handled in a step. -/
theorem Pacemaker.Handles.unique {s : Pacemaker} {i : Input} {m m' : ConsensusMessage}
    (h : s.Handles i m) (h' : s.Handles i m') : m = m' := by
  obtain ⟨-, mi, rest, hqueue, rfl⟩ := h
  obtain ⟨-, mi', rest', hqueue', rfl⟩ := h'
  rw [hqueue] at hqueue'
  rw [(List.cons.inj hqueue').1]

/-- The message came in with the input, or was waiting for its epoch. -/
def Pacemaker.Receives (s : Pacemaker) (i : Input) (mi : IncomingMsg) : Prop :=
  (∃ senderAddr, i = .receive mi.msg senderAddr) ∨ mi ∈ s.future

/-- The validator the message names as its signer is in the committee and
signed it. -/
def SignedByMember (E : Env) (es : EpochState) (m : ConsensusMessage) : Prop :=
  ∃ signerIndex signer, m.getSignerIndex = .ok signerIndex ∧ signerIndex < es.committeeSize
    ∧ es.getValidatorByIndex (Int32.ofNat signerIndex.toNat).toInt = some signer
    ∧ m.verifyMsgSignature E.H E.B signer.pubKey = true

/-- What `AddIncoming` has seen of a message when it reads the epoch for the
last time: the message is not outdated, and its signature was verified if it
was of the epoch the node was in. -/
structure Checked (E : Env) (es : EpochState) (m : ConsensusMessage) : Prop where
  current : es.epoch ≤ m.getEpoch
  signed : m.getEpoch = es.epoch → SignedByMember E es m

namespace Core

/-- The draft is a possible result of `GetDraft`: the one in the map, or one
made up from the stored block. -/
def IsDraft (c : Core) (id : Bytes32) (d : DraftBlock) : Prop :=
  c.proposals id = some d
    ∨ c.proposals id = none ∧ ∃ blk ref, c.kv.blocks id = some blk
      ∧ d = .stored ref blk blk.number (blk.qc.round + 1)

/-- The draft is a possible result of `GetDraftByEscortQC`. -/
def IsEscortDraft (c : Core) (qc : QuorumCert) (d : DraftBlock) : Prop :=
  c.proposals qc.blockID = some d ∧ d.round = qc.round
    ∨ (∀ d', c.proposals qc.blockID = some d' → d'.round ≠ qc.round)
      ∧ ∃ blk ref, c.kv.blocks qc.blockID = some blk ∧ d = .stored ref blk qc.number qc.round

/-- `ExtendedFromLastCommitted`. -/
def Extends (E : Env) (c : Core) (b : DraftBlock) : Prop :=
  ∃ tmp ∈ b.chain.take 10, tmp.proposedBlock.id E.H = c.lastCommitted.id E.H

/-- `ProposalMap.Add`. -/
def addDraft (H : Hashes) (c : Core) (d : DraftBlock) : Core :=
  { c with proposals := Function.update c.proposals (d.proposedBlock.id H) (some d) }

end Core

/-- A proposal that passed the checks of `OnReceiveProposal`, with the draft
made of it. -/
structure Accepted (E : Env) (s : Pacemaker) (i : Input) (msg : PMProposalMessage) (blk : Block)
    (parent bnew : DraftBlock) : Prop where
  handles : s.Handles i (.proposal msg)
  decoded : msg.decodedBlock = some blk
  parent_isDraft : s.core.IsDraft blk.parentID parent
  /-- The application was asked, and so the bits of the certificate were
  counted against a validator set. -/
  commitInfo : ∃ parentBlock info, s.chain.parentBlock blk = some parentBlock
    ∧ s.chain.buildLastCommitInfo parentBlock blk = .ok info
  bnew_eq : ∃ ref, bnew = { newDraft msg blk parent ref with successProcessed := true }

/-- Where the certificate given to `Update` comes from, and what the drafts
are at that moment: they have not changed since the step began, but for the
new one. -/
inductive UpdateSource (E : Env) (s : Pacemaker) (i : Input) (c : Core) (qc : QuorumCert) : Prop
  | proposal (msg : PMProposalMessage) (blk : Block) (parent bnew : DraftBlock)
      (accepted : Accepted E s i msg blk parent bnew) (qc_eq : blk.qc = qc)
      (valid : qcID E.H qc ∈ c.validQCs) (extended : c.Extends E bnew)
      (kv_eq : c.kv = s.chain.kv)
      (drafts : c.proposals = s.chain.proposals
        ∨ s.chain.proposals (blk.id E.H) = none
          ∧ c.proposals = Function.update s.chain.proposals (blk.id E.H) (some bnew))
  | timeout (msg : PMTimeoutMessage) (handles : s.Handles i (.timeout msg))
      (formed : s.epochState.addQCVote E.B msg.signerIndex msg.lastVoteRound msg.lastVoteBlockID
        msg.lastVoteSignature = .ok (some qc, c.epochState))
      (drafts : c.proposals = s.chain.proposals) (last_eq : c.lastCommitted = s.lastCommitted)

/-- Where a block given to `CommitBlock` comes from. -/
def CommitSource (i : Input) (c : Core) (blk : Block) : Prop :=
  (∃ last commitReady b d, Event.onCommit last commitReady ∈ c.trace ∧ b ∈ commitReady
      ∧ b.block = some d ∧ d.proposedBlock = blk)
    ∨ ∃ qc, i = .sync blk qc

/-- Where a round entered without voting comes from: a completed certificate
or a timeout. -/
def RoundSource (s : Pacemaker) (i : Input) (round : UInt32) : Prop :=
  (∃ msg, s.Handles i (.vote msg) ∧ round = msg.voteRound + 1)
    ∨ ∃ ti rest, i = .loop .roundTimeout ∧ s.roundTimeoutCh = ti :: rest ∧ round = ti.round + 1

/-! ## The actions -/

/-- **What a node does to its core**, in a step from `s` on the input `i`. -/
inductive CoreStep (E : Env) (s : Pacemaker) (i : Input) : Core → Core → Prop
  /-- Something quiet is added to the trace. -/
  | record (c : Core) (e : Event) (quiet : e.isQuiet = true) :
      CoreStep E s i c { c with trace := c.trace ++ [e] }
  /-- The main loop takes a message. -/
  | dequeue (c : Core) (mi : IncomingMsg) (rest : List IncomingMsg)
      (head : c.inQueue = mi :: rest) : CoreStep E s i c { c with inQueue := rest }
  /-- A message whose block is missing is put back. -/
  | putBack (c : Core) (mi : IncomingMsg) (handles : s.Handles i mi.msg) :
      CoreStep E s i c { c with delayed := c.delayed ++ [mi] }
  /-- A message that was put back returns to the queue. -/
  | redeliver (c : Core) (k : ℕ) (mi : IncomingMsg) (due : c.delayed[k]? = some mi) :
      CoreStep E s i c
        { c with delayed := c.delayed.eraseIdx k, inQueue := pushQueue c.inQueue mi }
  /-- A message passes the checks of `AddIncoming`. -/
  | check (c : Core) (mi : IncomingMsg) (receives : s.Receives i mi)
      (checked : Checked E s.epochState mi.msg) :
      CoreStep E s i c { c with admitting := c.admitting ++ [mi] }
  /-- `AddIncoming` goes on with a message it has checked. -/
  | enter (c : Core) (k : ℕ) : CoreStep E s i c { c with admitting := c.admitting.eraseIdx k }
  /-- A message of the current epoch enters the queue. -/
  | enqueue (c : Core) (mi : IncomingMsg) (checked : mi ∈ s.admitting)
      (current : mi.msg.getEpoch = s.epochState.epoch) :
      CoreStep E s i c { c with inQueue := pushQueue c.inQueue mi }
  /-- A message of another epoch is kept for later. -/
  | postpone (c : Core) (mi : IncomingMsg) (checked : mi ∈ s.admitting) :
      CoreStep E s i c { c with future := c.future ++ [mi] }
  /-- A message that was kept for later is looked at again. -/
  | retry (c : Core) (k : ℕ) : CoreStep E s i c { c with future := c.future.eraseIdx k }
  /-- A certificate is found to be valid. -/
  | cacheQC (c : Core) (b : Block) (qc : QuorumCert)
      (verified : b.verifyQC E.H E.B qc c.epochState.committee = .ok (true, none))
      (source : (∃ msg blk, s.Handles i (.proposal msg) ∧ msg.decodedBlock = some blk
          ∧ blk.qc = qc) ∨ ∃ blk, i = .sync blk qc) :
      CoreStep E s i c { c with validQCs := lruAdd 256 c.validQCs (qcID E.H qc) }
  /-- A proposal becomes a draft. -/
  | accept (c : Core) (msg : PMProposalMessage) (blk : Block) (parent bnew : DraftBlock)
      (accepted : Accepted E s i msg blk parent bnew) (fresh : c.proposals (blk.id E.H) = none)
      (valid : qcID E.H blk.qc ∈ c.validQCs) :
      CoreStep E s i c (c.addDraft E.H bnew)
  /-- The node votes. -/
  | vote (c : Core) (msg : PMProposalMessage) (blk : Block) (parent bnew : DraftBlock)
      (v : PMVoteMessage) (accepted : Accepted E s i msg blk parent bnew)
      (valid : qcID E.H blk.qc ∈ c.validQCs) (extended : c.Extends E bnew)
      (blockID_eq : v.voteBlockID = blk.id E.H) (votable : s.lastVotingHeight ≤ blk.number) :
      CoreStep E s i c { c with trace := c.trace ++ [.voted bnew v] }
  /-- A vote is sent and the next round entered. -/
  | sendVote (c : Core) (msg : PMProposalMessage) (v : PMVoteMessage)
      (handles : s.Handles i (.proposal msg)) (round_eq : v.voteRound = msg.round)
      (member : c.epochState.inCommittee = true) (round_same : c.currentRound = s.currentRound) :
      CoreStep E s i c
        { c with
          trace := c.trace ++ [.broadcast (.vote v)]
          currentRound := if msg.round + 1 > 0 && msg.round + 1 < c.currentRound
            then c.currentRound else msg.round + 1 }
  /-- `OnCommit` is called. -/
  | commitList (c : Core) (qc : QuorumCert) (bPrime : DraftBlock)
      (commitReady : List CommitReadyBlock) (source : UpdateSource E s i c qc)
      (bPrime_isDraft : c.IsEscortDraft qc bPrime)
      (uncommitted : bPrime.committed = false)
      (walk : commitReadyBlocks c.lastCommitted.number bPrime.toDraftInfo bPrime.ancestors []
        = .ok commitReady) :
      CoreStep E s i c { c with trace := c.trace ++ [.onCommit c.lastCommitted commitReady] }
  /-- `AddBlock` is called: the block may be stored, and may become the best
  one. -/
  | addBlock (c : Core) (blk : Block) (appHash : Bytes) (kv : KV) (bestBlock : Block)
      (source : CommitSource i c blk) (higher : c.bestBlock.number < blk.number)
      (kv_cases : kv = c.kv
        ∨ (c.kv.blocks blk.parentID).isSome ∧ kv.validators = c.kv.validators
          ∧ kv.blocks
            = Function.update c.kv.blocks (blk.id E.H) (some (blk.withAppHash appHash)))
      (best_cases : bestBlock = c.bestBlock ∨ bestBlock = blk.withAppHash appHash) :
      CoreStep E s i c { c with kv, bestBlock }
  /-- A stored block becomes the last committed one. -/
  | commit (c : Core) (b : Block) (stored : c.kv.blocks (b.id E.H) = some b) :
      CoreStep E s i c { c with lastCommitted := b }
  /-- Drafts are pruned. -/
  | prune (c : Core) (d : DraftBlock) (refs : List Ref) :
      CoreStep E s i c
        { c with
          proposals := fun id => (c.proposals id).filter (Chain.survivesPrune E.H d)
          committedRefs := refs ++ c.committedRefs }
  /-- A vote is counted. -/
  | countQCVote (c : Core) (m : ConsensusMessage) (signerIndex round : UInt32)
      (blockID : Bytes32) (sig : Bytes) (qc : Option QuorumCert) (es : EpochState)
      (handles : s.Handles i m) (carried : sig ∈ m.signatures)
      (counted : c.epochState.addQCVote E.B signerIndex round blockID sig = .ok (qc, es)) :
      CoreStep E s i c { c with epochState := es }
  /-- A timeout vote is counted. -/
  | countTCVote (c : Core) (signerIndex round : UInt32) (sig : Bytes) (hash : Bytes32)
      (tc : Option TimeoutCert) (es : EpochState)
      (counted : c.epochState.addTCVote E.B signerIndex round sig hash = .ok (tc, es)) :
      CoreStep E s i c { c with epochState := es }
  /-- The node makes a block of its own. -/
  | propose (c : Core) (parent d : DraftBlock) (beat : i = .loop .beat)
      (parent_isDraft : s.core.IsEscortDraft s.qcHigh.qc parent)
      (d_eq : ∃ p timestamp round txs msg,
        d = { buildBlock E p timestamp parent s.qcHigh round txs with msg := msg }) :
      CoreStep E s i c { c.addDraft E.H d with trace := c.trace ++ [.proposed d] }
  /-- A round is entered without a vote. -/
  | enterRound (c : Core) (round : UInt32) (source : RoundSource s i round)
      (later : round > 0 → c.currentRound ≤ round) (member : c.epochState.inCommittee = true) :
      CoreStep E s i c { c with currentRound := round }
  /-- The pacemaker starts again from the best block. -/
  | regulate (c : Core) (bestNode : DraftBlock) (es : EpochState) (cmd : i = .loop .cmd)
      (bestNode_isDraft : s.core.IsEscortDraft s.regulateQC bestNode)
      (round_same : c.currentRound = s.currentRound)
      (es_cases : es = c.epochState
        ∨ newEpochState E s.chain bestNode.proposedBlock s.myPubKey = .ok (some es)) :
      CoreStep E s i c
        { c.addDraft E.H bestNode with
          epochState := es
          lastCommitted := c.bestBlock
          currentRound := if es.inCommittee then s.regulateRound else 0 }

theorem mem_of_mem_pushQueue {queue : List IncomingMsg} {mi mi' : IncomingMsg}
    (h : mi' ∈ pushQueue queue mi) : mi' ∈ queue ∨ mi' = mi := by
  rcases List.mem_append.mp h with hold | hnew
  · exact .inl (List.mem_of_mem_drop hold)
  · exact .inr (List.mem_singleton.mp hnew)

/-- The messages a node holds. -/
def Core.messages (c : Core) : List IncomingMsg :=
  c.inQueue ++ c.delayed ++ c.admitting ++ c.future

/-- **Messages come from outside**: what a node holds after an action it held
before, or at the beginning of the step, or it has just been handled or
received. -/
theorem CoreStep.mem_messages {E : Env} {s : Pacemaker} {i : Input} {c c' : Core}
    (hstep : CoreStep E s i c c') {mi : IncomingMsg} (h : mi ∈ c'.messages) :
    mi ∈ c.messages ∨ mi ∈ s.core.messages ∨ (∃ senderAddr, i = .receive mi.msg senderAddr)
      ∨ s.Handles i mi.msg := by
  unfold Core.messages at h ⊢
  simp only [List.mem_append] at h ⊢
  cases hstep with
  | dequeue mi' rest hhead => grind
  | putBack mi' hhandles => grind
  | redeliver k mi' hdue =>
    grind [mem_of_mem_pushQueue, List.mem_of_getElem?, List.mem_of_mem_eraseIdx]
  | check mi' hreceives => grind [Pacemaker.Receives, Pacemaker.core]
  | enter k => grind [List.mem_of_mem_eraseIdx]
  | enqueue mi' hmi => grind [mem_of_mem_pushQueue, Pacemaker.core]
  | postpone mi' hmi => grind [Pacemaker.core]
  | retry k => grind [List.mem_of_mem_eraseIdx]
  | _ => exact .inl h

/-- A sequence of actions. -/
abbrev CoreSteps (E : Env) (s : Pacemaker) (i : Input) : Core → Core → Prop :=
  Relation.ReflTransGen (CoreStep E s i)

end LoragonBFT
