import LoragonBFT.Pacemaker.Commit

/-!
# The handlers of the pacemaker

A proposal is accepted when its parent is known, its certificate is valid,
its round fits the parent's, and the application accepts it; it is then kept
as a draft, and voted for when it is as high as the last vote and extends
the last committed block. A certificate that comes in with a proposal, or
that is completed by the vote a timeout message carries, is handed to
`Update`: the block it certifies is `b'`, and the parent of `b'` and
everything between it and the last committed block is handed to `OnCommit`.

Three things are read off the source and easily overlooked. The certificate
of a proposal is validated against the parent block, but past the first two
blocks `VerifyQC` does not look at that block, so the certificate may be
about another one. The round of a proposal is compared with its parent's and
not with the round the node is in. And the proposer a block names is the
signer of its message, but is not compared with the proposer of the round.
-/

namespace LoragonBFT

/-! ## Certificates -/

/-- The key of the `validQCs` cache. Base64 is injective, so the digest
itself stands for it. -/
def qcID (H : Hashes) (qc : QuorumCert) : Bytes32 := H.sha256Rlp qc.item

/-- `ValidateQC`. -/
def validateQC (E : Env) (b : Block) (escortQC : QuorumCert) : PM Bool := do
  let p ← get
  if p.validQCs.contains (qcID E.H escortQC) then return true
  else if p.epochState.committeeSize ≤ 0 then return false
  else
    let (valid, err) ← PM.ofExcept (b.verifyQC E.H E.B escortQC p.epochState.committee)
    if valid && err.isNone then
      set { p with validQCs := lruAdd 256 p.validQCs (qcID E.H escortQC) }
      return true
    else return false

/-- The keys `verifyTC` collects: those that parse and whose bit is set. -/
def timeoutKeys (B : Bls) (bA : BitArray) : ℕ → List Validator → Except Panic (List Bytes)
  | _, [] => .ok []
  | index, v :: vs => do
    if B.validPublicKey v.pubKey.bytes then
      if ← bA.getIndex index then return v.pubKey.bytes :: (← timeoutKeys B bA (index + 1) vs)
      else timeoutKeys B bA (index + 1) vs
    else timeoutKeys B bA (index + 1) vs

/-- `verifyTC`. -/
def Pacemaker.verifyTC (E : Env) (p : Pacemaker) (tc : Option TimeoutCert) (round : UInt32) :
    Except Panic Bool :=
  match tc with
  | none => .ok false
  | some tc =>
    if tc.epoch ≠ p.epochState.epoch ∨ tc.round ≠ round then .ok false
    else if tc.msgHash ≠ buildTimeoutVotingHash E.H tc.epoch tc.round then .ok false
    else do
      let bitArray ← deref tc.bitArray
      let voteCount ← bitArray.count
      if !majorityTwoThird (UInt32.ofNat voteCount) p.epochState.committeeSize then return false
      else
        let pubkeys ← timeoutKeys E.B bitArray 0 p.epochState.committee.validators
        return E.B.validSignature tc.aggSig
          && E.B.fastAggregateVerify pubkeys tc.msgHash tc.aggSig

/-- `UpdateQCHigh`. The node of the current certificate is read in the
second half of the condition, whatever the new certificate is. -/
def updateQCHigh (qc : DraftQC) : PM Bool := do
  let p ← get
  if qc.qcNode.isSome && qc.qc.number > p.qcHigh.qc.number then
    set { p with qcHigh := qc }
    return true
  else
    let node ← PM.ofExcept (deref p.qcHigh.qcNode)
    if qc.qc.number == node.height && qc.qc.round > node.round then
      set { p with qcHigh := qc }
      return true
    else return false

/-! ## Update -/

/-- The loop of `Update`: from `tmp` back, the parents above the last
committed number, each with the certificate its child carries. -/
def commitReadyBlocks (lastNum : UInt32) :
    DraftInfo → List DraftInfo → List CommitReadyBlock → Except Panic (List CommitReadyBlock)
  | _, [], _ => .error .nilDereference
  | tmp, parent :: rest, commitReady =>
    if parent.height > lastNum then
      commitReadyBlocks lastNum parent rest
        (⟨some ⟨parent, rest⟩, some tmp.proposedBlock.qc⟩ :: commitReady)
    else .ok commitReady

/-- The end of `Update`, for an uncommitted `b'`. -/
def updateFrom (E : Env) (qc : QuorumCert) (bPrime : DraftBlock) : PM (Option Block) := do
  let justify ← PM.ofExcept (deref bPrime.justify)
  -- `b.Committed` is read before `b` is compared with nil
  let b ← PM.ofExcept (deref justify.qcNode)
  let _ ← updateQCHigh ⟨some bPrime, qc⟩
  let parent ← PM.ofExcept (deref bPrime.parent)
  if parent.ref ≠ b then return none
  else
    let commitReady ← PM.ofExcept (commitReadyBlocks (← get).lastCommitted.number
      bPrime.toDraftInfo bPrime.ancestors [])
    onCommit E commitReady

/-- `Update`. -/
def update (E : Env) (qc : QuorumCert) : PM (Option Block) := do
  match ← getDraftByEscortQC qc with
  | none => return none
  | some bPrime =>
    if (← get).chain.isCommitted bPrime.toDraftInfo then return none
    else updateFrom E qc bPrime

/-! ## Receiving a proposal -/

/-- `ExtendedFromLastCommitted`: the last committed block is among the draft
and its nine nearest ancestors. -/
def Pacemaker.extendedFromLastCommitted (E : Env) (p : Pacemaker) (b : DraftBlock) : Bool :=
  (b.chain.take 10).any (fun tmp => tmp.proposedBlock.id E.H == p.lastCommitted.id E.H)

/-- The walk of `ValidateProposal` that collects the transactions of the
uncommitted ancestors, by identifier and not by parent pointer. -/
def txsInCache (E : Env) (c : Chain) :
    ℕ → Option DraftBlock → List Bytes32 → Except Panic (List Bytes32)
  | _, none, known => .ok known
  | 0, some _, _ => .error .diverges
  | fuel + 1, some tmp, known =>
    if c.isCommitted tmp.toDraftInfo then .ok known
    else txsInCache E c fuel (c.getDraft tmp.proposedBlock.parentID)
      (known ++ tmp.proposedBlock.txs.map E.H.sha256)

/-- The request `ProcessProposal` makes. -/
def processProposalRequest (E : Env) (c : Chain) (blk : Block) :
    Except Panic ProcessProposalRequest := do
  let parent ← deref (c.parentBlock blk)
  let proposerAddr ← proposerAddress (c.blockValidators parent blk)
    (Int32.ofNat blk.header.proposerIndex.toNat).toInt
  let proposedLastCommit ← c.buildLastCommitInfo parent blk
  return { hash := blk.id E.H, height := blk.number.toNat, time := blk.header.timestamp,
           txs := blk.txs, proposedLastCommit, proposerAddress := proposerAddr,
           nextValidatorsHash := blk.header.nextValidatorsHash }

/-- `Executor.ProcessProposal`. -/
def processProposal (E : Env) (blk : Block) : PM (Except Err Bool) := do
  let p ← get
  let req ← PM.ofExcept (processProposalRequest E p.chain blk)
  record (.abci (.processProposal req))
  match p.app.processProposal (abciCalls p.trace) req with
  | none => return .error .application
  | some .unknown => throw (.explicit "ProcessProposal responded with status unknown")
  | some .accept => return .ok true
  | some .reject => return .ok false

/-- The hashes a proposal's transactions are compared with. Heights are 32
bits wide, which bounds the walk. -/
def knownTxs (E : Env) (c : Chain) (blk : Block) (parent : DraftBlock) :
    Except Panic (List Bytes32) :=
  if blk.txs.length > 0 then txsInCache E c (2 ^ 32 + 1) (some parent) [] else .ok []

/-- `ValidateProposal` of a new draft with a parent: the draft, marked as
processed, or the error. -/
def validateProposal (E : Env) (b parent : DraftBlock) : PM (Except Err DraftBlock) := do
  let blk := b.proposedBlock
  let known ← PM.ofExcept (knownTxs E (← get).chain blk parent)
  if blk.txs.any (fun tx => known.contains (E.H.sha256 tx)) then return .error .txExisted
  else
    match ← processProposal E blk with
    | .error e => return .error e
    | .ok false => return .error .proposalRejected
    | .ok true => return .ok { b with successProcessed := true, processError := none }

/-- The round checks of `OnReceiveProposal`. -/
def Pacemaker.roundAllowed (E : Env) (p : Pacemaker) (msg : PMProposalMessage)
    (parent : DraftBlock) (grandparent : Option DraftBlock) : Except Panic Bool :=
  if msg.round = 0 then
    .ok (grandparent.all (fun g => g.proposedBlock.isKBlock))
  else if parent.round + 1 = msg.round then .ok true
  else do
    if ← p.verifyTC E msg.timeoutCert msg.round then
      return parent.proposedBlock.isKBlock || parent.round < msg.round
    else return false

/-- The draft `OnReceiveProposal` makes of a proposal. -/
def newDraft (msg : PMProposalMessage) (blk : Block) (parent : DraftBlock) (ref : Ref) :
    DraftBlock where
  ref := ref
  msg := some msg
  height := blk.number
  round := msg.round
  justify := some ⟨some parent.ref, blk.qc⟩
  committed := false
  proposedBlock := blk
  successProcessed := false
  processError := none
  ancestors := parent.chain

/-- `BuildVoteMessage`. The vote signature is over the block's identifier
alone. -/
def buildVoteMessage (E : Env) (p : Pacemaker) (msg : PMProposalMessage) (blk : Block) :
    PMVoteMessage :=
  let vote : PMVoteMessage :=
    { timestamp := p.clock, epoch := p.epochState.epoch,
      signerIndex := UInt32.ofNat (p.epochState.index % 2 ^ 32).toNat,
      voteRound := msg.round, voteBlockID := blk.id E.H,
      voteSignature := p.sign E (blk.id E.H), msgSignature := [] }
  { vote with msgSignature := p.sign E ((ConsensusMessage.vote vote).getMsgHash E.H) }

@[simp] theorem voteBlockID_buildVoteMessage (E : Env) (p : Pacemaker) (msg : PMProposalMessage)
    (blk : Block) : (buildVoteMessage E p msg blk).voteBlockID = blk.id E.H := rfl

@[simp] theorem voteRound_buildVoteMessage (E : Env) (p : Pacemaker) (msg : PMProposalMessage)
    (blk : Block) : (buildVoteMessage E p msg blk).voteRound = msg.round := rfl

/-- The vote of `OnReceiveProposal`. The vote is built before `Update` runs
and sent after, unless `Update` committed the last block of an epoch. -/
def voteFor (E : Env) (msg : PMProposalMessage) (bnew : DraftBlock) : PM Unit := do
  let voteMsg := buildVoteMessage E (← get) msg bnew.proposedBlock
  record (.voted bnew voteMsg)
  record (.signed ((ConsensusMessage.vote voteMsg).getMsgHash E.H))
  let lastCommitted ← update E bnew.proposedBlock.qc
  modify (fun p => { p with
    lastVoteMsg := some voteMsg
    lastVotingHeight := number voteMsg.voteBlockID })
  if lastCommitted.any Block.isKBlock then return ()
  else
    broadcast (.vote voteMsg)
    let _ ← enterRound (voteMsg.voteRound + 1) .regular

/-- The end of `OnReceiveProposal`, for a proposal that passed every
check. -/
def acceptProposal (E : Env) (msg : PMProposalMessage) (bnew : DraftBlock) : PM Unit := do
  if !(← get).chain.hasDraft (bnew.proposedBlock.id E.H) then addDraft E.H bnew
  let p ← get
  if bnew.height ≥ p.lastVotingHeight && p.extendedFromLastCommitted E bnew then
    voteFor E msg bnew

/-- The middle of `OnReceiveProposal`, once the parent was found: the draft of
a proposal that passes the checks. -/
def passChecks (E : Env) (msg : PMProposalMessage) (blk : Block) (parent : DraftBlock) :
    PM (Option DraftBlock) := do
  if !(← validateQC E parent.proposedBlock blk.qc) then return none
  else
    let p ← get
    let grandparent := p.chain.getDraft parent.proposedBlock.parentID
    if !(← PM.ofExcept (p.roundAllowed E msg parent grandparent)) then return none
    else
      set { p with chain := { p.chain with nextRef := p.chain.nextRef + 1 } }
      match ← validateProposal E (newDraft msg blk parent p.chain.nextRef) parent with
      | .error _ => return none
      | .ok bnew => return some bnew

/-- `BuildQueryMessage`. -/
def buildQueryMessage (E : Env) (p : Pacemaker) : PMQueryMessage :=
  let query : PMQueryMessage :=
    { timestamp := p.clock, epoch := p.epochState.epoch,
      signerIndex := UInt32.ofNat (p.epochState.index % 2 ^ 32).toNat,
      lastCommitted := p.lastCommitted.id E.H, msgSignature := [] }
  { query with msgSignature := p.sign E ((ConsensusMessage.query query).getMsgHash E.H) }

/-- What `OnReceiveProposal` does when the parent is not known: a proposal
above the highest certificate is put back, and every other time the
proposals in between are asked for. -/
def parentMissing (E : Env) (mi : IncomingMsg) (blk : Block) : PM Unit := do
  let p ← get
  if blk.number > p.qcHigh.qc.number then
    if mi.processCount % 2 = 0 then
      let query := buildQueryMessage E p
      record (.signed ((ConsensusMessage.query query).getMsgHash E.H))
      broadcast (.query query)
    modify (fun p => { p with
      delayed := p.delayed ++ [{ mi with processCount := mi.processCount + 1 }] })

/-- **The checks of `OnReceiveProposal`**, up to the first that fails. -/
def passProposal (E : Env) (mi : IncomingMsg) (msg : PMProposalMessage) :
    PM (Option DraftBlock) := do
  let blk ← PM.ofExcept (deref msg.decodedBlock)
  if blk.number < (← get).lastCommitted.number then return none
  else
    match ← getDraft blk.parentID with
    | none => do
      parentMissing E mi blk
      return none
    | some parent => passChecks E msg blk parent

/-- `OnReceiveProposal`. -/
def onReceiveProposal (E : Env) (mi : IncomingMsg) (msg : PMProposalMessage) : PM Unit := do
  match ← passProposal E mi msg with
  | none => return ()
  | some bnew => acceptProposal E msg bnew

/-! ## Receiving a vote, a timeout, a query -/

/-- The last test of `OnReceiveVote`'s first check, in `uint32`: at round
zero the current round minus one wraps. -/
def Pacemaker.voteOutdated (p : Pacemaker) (round : UInt32) : Bool :=
  !(round == p.currentRound && round == 0) && decide (round < p.currentRound - 1)

/-- `AddQCVote` on the node's epoch state. -/
def addQCVote (E : Env) (signerIndex round : UInt32) (blockID : Bytes32) (sig : Bytes) :
    PM (Option QuorumCert) := do
  let p ← get
  let (qc, epochState) ← PM.ofExcept (p.epochState.addQCVote E.B signerIndex round blockID sig)
  set { p with epochState }
  return qc

/-- `AddTCVote` on the node's epoch state. -/
def addTCVote (E : Env) (signerIndex round : UInt32) (sig : Bytes) (hash : Bytes32) :
    PM (Option TimeoutCert) := do
  let p ← get
  let (tc, epochState) ← PM.ofExcept (p.epochState.addTCVote E.B signerIndex round sig hash)
  set { p with epochState }
  return tc

/-- The end of `OnReceiveVote`, once the draft voted for was found. -/
def countVote (E : Env) (msg : PMVoteMessage) (b : DraftBlock) : PM Unit := do
  if b.round ≠ msg.voteRound then return ()
  else
    match ← addQCVote E msg.signerIndex msg.voteRound msg.voteBlockID msg.voteSignature with
    | none => return ()
    | some qc =>
      if ← updateQCHigh ⟨some b, qc⟩ then
        scheduleOnBeat (← get).epochState.epoch (msg.voteRound + 1)
        let _ ← enterRound (msg.voteRound + 1) .regular

/-- `OnReceiveVote`. -/
def onReceiveVote (E : Env) (mi : IncomingMsg) (msg : PMVoteMessage) : PM Unit := do
  let p ← get
  if p.voteOutdated msg.voteRound then return ()
  else if !p.amIRoundProproser (msg.voteRound + 1) then return ()
  else
    match ← getDraft msg.voteBlockID with
    | none =>
      modify (fun p => { p with
        delayed := p.delayed ++ [{ mi with processCount := mi.processCount + 1 }] })
    | some b => countVote E msg b

/-- The part of `OnReceiveTimeout` about the sender's last vote: it may
complete a certificate, and then the blocks below are committed. -/
def collectLastVote (E : Env) (msg : PMTimeoutMessage) : PM Unit := do
  match ← addQCVote E msg.signerIndex msg.lastVoteRound msg.lastVoteBlockID
      msg.lastVoteSignature with
  | none => return ()
  | some newQC =>
    let escortQCNode ← getDraftByEscortQC newQC
    let _ ← updateQCHigh ⟨escortQCNode, newQC⟩
    let _ ← update E newQC

/-- The part of `OnReceiveTimeout` about the sender's highest certificate,
which is not validated. -/
def adoptQCHigh (msg : PMTimeoutMessage) : PM Unit := do
  let qc ← PM.ofExcept (deref msg.decodedQCHigh)
  let qcNode ← getDraftByEscortQC qc
  let _ ← updateQCHigh ⟨qcNode, qc⟩

/-- `OnReceiveTimeout`. -/
def onReceiveTimeout (E : Env) (msg : PMTimeoutMessage) : PM Unit := do
  if !(← get).amIRoundProproser msg.wishRound then return ()
  else
    collectLastVote E msg
    adoptQCHigh msg
    match ← addTCVote E msg.signerIndex msg.wishRound msg.wishVoteSig msg.wishVoteHash with
    | none => return ()
    | some tc =>
      modify (fun p => { p with tcHigh := some tc })
      scheduleOnBeat (← get).epochState.epoch tc.round

/-- `OnReceiveQuery`. -/
def onReceiveQuery (E : Env) (msg : PMQueryMessage) : PM Unit := do
  let p ← get
  (p.chain.getDraftsUpTo E.H msg.lastCommitted p.qcHigh.qc).forM (fun proposal => do
    let m ← PM.ofExcept (deref proposal.msg)
    broadcast (.proposal m))

/-! ## Proposing -/

/-- The transactions `PrepareProposal` offers: those not offered before. -/
def Pacemaker.filteredTxs (E : Env) (p : Pacemaker) : List Bytes :=
  p.txPool.filter (fun tx => (p.txCache (E.H.sha256 tx)).isNone)

/-- `Executor.PrepareProposal`. The offered transactions are put into the
cache before the application is asked. -/
def prepareProposal (E : Env) (parent : DraftBlock) : PM (Except Err (List Bytes)) := do
  let p ← get
  let txs := p.filteredTxs E
  let txCache : Bytes32 → Option UInt32 := fun h =>
    if (txs.map E.H.sha256).contains h then some (parent.height + 1) else p.txCache h
  set { p with txCache }
  let vset := p.chain.getValidatorsByHash parent.proposedBlock.header.nextValidatorsHash
  let valsCount := (← PM.ofExcept (deref vset)).size
  let proposerAddr ← PM.ofExcept (proposerAddress vset p.epochState.index)
  let req : PrepareProposalRequest :=
    { maxTxBytes := E.maxDataBytes valsCount, height := parent.height.toNat + 1, time := p.clock,
      nextValidatorsHash := parent.proposedBlock.header.nextValidatorsHash,
      proposerAddress := proposerAddr, txs }
  record (.abci (.prepareProposal req))
  match p.app.prepareProposal (abciCalls p.trace) req with
  | none => return .error .application
  | some res => return .ok res

/-- `buildBlock`. -/
def buildBlock (E : Env) (p : Pacemaker) (timestamp : UInt64) (parent : DraftBlock)
    (justify : DraftQC) (round : UInt32) (txs : List Bytes) : DraftBlock :=
  let parentBlock := parent.proposedBlock
  let num := parentBlock.number + 1
  let newBlock := Builder.build E.H
    { parentID := parentBlock.id E.H
      timestamp
      nonce := 0
      validatorsHash := parentBlock.header.nextValidatorsHash
      nextValidatorsHash := match p.validatorSetRegistry.nextVSet num with
        | some newVSet => E.validatorSetHash newVSet
        | none => parentBlock.header.nextValidatorsHash
      proposerIndex := UInt32.ofNat (p.epochState.index % 2 ^ 32).toNat
      lastKBlock := if parentBlock.isKBlock then parentBlock.number
        else parentBlock.header.lastKBlock
      qc := justify.qc
      txs }
  { ref := p.chain.nextRef
    msg := none
    height := newBlock.number
    round
    justify := some justify.toJustify
    committed := false
    proposedBlock := newBlock
    successProcessed := true
    processError := none
    ancestors := parent.chain }

/-- `time.Unix(int64(sec), 0)`. The seconds are counted from the year 1, in
an `int64`. -/
def Time.ofUnix (sec : UInt64) : Time :=
  ((sec + 62135596800).toInt64.toInt - 62135596800) * 10 ^ 9

/-- The target time of `CreateLeaf`: now, and at least a second after the
parent. -/
def Pacemaker.targetTime (p : Pacemaker) (parentBlock : Block) : Time :=
  max p.clock (Time.ofUnix (parentBlock.header.timestamp + 1))

/-- `CreateLeaf`. -/
def createLeaf (E : Env) (parent : DraftBlock) (justify : DraftQC) (round : UInt32) :
    PM (Except Err DraftBlock) := do
  match ← prepareProposal E parent with
  | .error e => return .error e
  | .ok txs =>
    let p ← get
    if p.epochState.epoch != 0 && round != 0 && round ≤ justify.qc.round then
      return .error .invalidRound
    else if p.epochState.epoch != 0 && round != 0 && round ≤ parent.round then
      return .error .invalidRound
    else
      let targetTime := p.targetTime parent.proposedBlock
      set { p with clock := targetTime, chain := { p.chain with nextRef := p.chain.nextRef + 1 } }
      return .ok (buildBlock E p (Time.unix targetTime) parent justify round txs)

/-- The message of a new block: what `rlp.EncodeToBytes` makes of it. -/
def proposalMessage (timestamp : Time) (epoch : UInt64) (round : UInt32) (blk : Block)
    (tc : Option TimeoutCert) : PMProposalMessage where
  timestamp := timestamp
  epoch := epoch
  round := round
  rawBlock := blk.item.encode
  timeoutCert := tc
  msgSignature := []
  decodedBlock := blockDecodeFromBytes blk.item.encode
  decoded := rfl

/-- `BuildProposalMessage`. -/
def buildProposalMessage (E : Env) (p : Pacemaker) (bnew : DraftBlock) : PMProposalMessage :=
  let msg := proposalMessage p.clock p.epochState.epoch bnew.round bnew.proposedBlock p.tcHigh
  { msg with msgSignature := p.sign E ((ConsensusMessage.proposal msg).getMsgHash E.H) }

/-- `OnPropose`. -/
def onPropose (E : Env) (qc : DraftQC) (round : UInt32) : PM (Option DraftBlock) := do
  let parent ← PM.ofExcept (deref (← getDraftByEscortQC qc.qc))
  match ← createLeaf E parent qc round with
  | .error _ => return none
  | .ok bnew =>
    if bnew.height ≤ qc.qc.number then return none
    else
      let msg := buildProposalMessage E (← get) bnew
      record (.signed ((ConsensusMessage.proposal msg).getMsgHash E.H))
      PM.ofExcept (ConsensusMessage.proposal msg).string
      let bnew : DraftBlock := { bnew with msg := some msg }
      modify (fun p => { p with curProposal := some bnew })
      return some bnew

/-- `scheduleBroadcast`. -/
def scheduleBroadcast (msg : PMProposalMessage) (d : Time) : PM Unit :=
  if d ≤ 0 ∨ d ≥ 1400000000 then
    modify (fun p => { p with broadcastTimer := none, broadcastCh := some msg })
  else modify (fun p => { p with broadcastTimer := some msg, broadcastCh := none })

/-- The end of `OnBeat`: the node's own block becomes a draft. -/
def adoptProposal (E : Env) (bnew : DraftBlock) (msg : PMProposalMessage) : PM Unit := do
  addDraft E.H bnew
  record (.proposed bnew)
  modify (fun p => { p with tcHigh := none })
  let p ← get
  scheduleBroadcast msg (1400000000 - (p.clock - p.roundStartedAt))

/-- `OnBeat`. -/
def onBeat (E : Env) (epoch : UInt64) (round : UInt32) : PM Unit := do
  let p ← get
  if epoch < p.epochState.epoch then return ()
  else if epoch == p.epochState.epoch && Int32.ofNat round.toNat ≤ p.lastOnBeatRound then
    return ()
  else if !p.amIRoundProproser round then return ()
  else
    set { p with lastOnBeatRound := Int32.ofNat round.toNat }
    match ← getDraftByEscortQC p.qcHigh.qc with
    | none => return ()
    | some _ =>
      match ← onPropose E p.qcHigh round with
      | none => return ()
      | some bnew => adoptProposal E bnew (← PM.ofExcept (deref bnew.msg))

/-- `OnBroadcastProposal`. -/
def onBroadcastProposal : PM Unit := do
  let p ← get
  match p.curProposal.bind (fun d => d.msg) with
  | none => return ()
  | some msg =>
    if msg.epoch < p.epochState.epoch then return ()
    else broadcast (.proposal msg)

/-! ## Timeouts and regulation -/

/-- `BuildTimeoutMessage`. -/
def buildTimeoutMessage (E : Env) (p : Pacemaker) (ti : PMRoundTimeoutInfo) : PMTimeoutMessage :=
  let wishVoteHash := buildTimeoutVotingHash E.H ti.epoch ti.round
  let rawQC := p.qcHigh.qc.item.encode
  let msg : PMTimeoutMessage :=
    { timestamp := p.clock, epoch := ti.epoch,
      signerIndex := UInt32.ofNat (p.epochState.index % 2 ^ 32).toNat, wishRound := ti.round,
      qcHigh := rawQC, wishVoteHash, wishVoteSig := p.sign E wishVoteHash,
      lastVoteRound := p.lastVoteMsg.elim 0 PMVoteMessage.voteRound,
      lastVoteBlockID := p.lastVoteMsg.elim 0 PMVoteMessage.voteBlockID,
      lastVoteSignature := p.lastVoteMsg.elim [] PMVoteMessage.voteSignature,
      msgSignature := [], decodedQCHigh := qcDecodeFromBytes rawQC, decoded := rfl }
  { msg with msgSignature := p.sign E ((ConsensusMessage.timeout msg).getMsgHash E.H) }

/-- `OnRoundTimeout`. -/
def onRoundTimeout (E : Env) (ti : PMRoundTimeoutInfo) : PM Unit := do
  let _ ← enterRound (ti.round + 1) .timeout
  let msg := buildTimeoutMessage E (← get) ti
  record (.signed (buildTimeoutVotingHash E.H ti.epoch ti.round))
  record (.signed ((ConsensusMessage.timeout msg).getMsgHash E.H))
  broadcast (.timeout msg)

/-- The certificate `Regulate` starts again from. -/
def Pacemaker.regulateQC (p : Pacemaker) : QuorumCert :=
  if p.qcHigh.qc.number > p.chain.bestQC.number then p.qcHigh.qc else p.chain.bestQC

/-- The round `Regulate` enters. -/
def Pacemaker.regulateRound (p : Pacemaker) : UInt32 :=
  if p.chain.bestBlock.isKBlock then 0 else p.regulateQC.round + 1

/-- `updateEpochState`: an epoch state that cannot be made leaves the old
one. -/
def updateEpochState (E : Env) (leaf : Block) : PM Unit := do
  let p ← get
  match ← PM.ofExcept (newEpochState E p.chain leaf p.myPubKey) with
  | none => return ()
  | some epochState => set { p with epochState }

/-- The assignments of `Regulate`. -/
def resetPacemaker (H : Hashes) (bestQC : QuorumCert) (best : Block) (bestNode : DraftBlock)
    (actualRound : UInt32) : PM Unit :=
  modify (fun p => { p with
    lastOnBeatRound := Int32.ofNat actualRound.toNat - 1
    lastCommitted := best
    lastVotingHeight := 0
    lastVoteMsg := none
    qcHigh := ⟨some bestNode, bestQC⟩
    chain := p.chain.addDraft H bestNode
    addedValidators := []
    currentRound := 0 })

/-- `Regulate`. -/
def regulate (E : Env) : PM Unit := do
  let p ← get
  let bestNode ← PM.ofExcept (deref (← getDraftByEscortQC p.regulateQC))
  updateEpochState E bestNode.proposedBlock
  resetPacemaker E.H p.regulateQC p.chain.bestBlock bestNode p.regulateRound
  let _ ← enterRound p.regulateRound .regular
  scheduleOnBeat (← get).epochState.epoch p.regulateRound

end LoragonBFT
