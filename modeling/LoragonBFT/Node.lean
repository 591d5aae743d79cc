import LoragonBFT.Util.Machine
import LoragonBFT.Pacemaker.Handlers

/-!
# A running node

A node is driven from outside: messages arrive, timers fire, the main loop
picks one of its channels, another goroutine hands in a block obtained from
a peer. `Input` lists these, and `Pacemaker.step` is what the node makes of
one. A fault ends the process, and a halted node takes no further step.

`Node.processBlock` is the way a block enters without the pacemaker having
voted: it is committed if it extends the best block and its header passes
`validateBlock`. Its certificate is validated only when the block is recent.

An input is handled in one step, although messages and blocks come in on other
goroutines than the main loop's and no lock is held while they do. Two calls
read a field twice that the main loop may change in between. `AddIncoming`
reads the epoch state before and after it checks a signature; it is two steps
here, with a message in `admitting` between the two. `CommitBlock` reads the
best block and adds to the chain at the end; a `sync` input takes that for one
step, and what the two threads can do to each other is the subject of
`CommitThreads`.
-/

namespace LoragonBFT

/-! ## Incoming messages -/

/-- The sanity check of `AddIncoming`: a proposal must decode. -/
def ConsensusMessage.decodes : ConsensusMessage → Bool
  | .proposal m => m.decodedBlock.isSome
  | _ => true

/-- Make room in the queue by dropping the oldest messages, and append. -/
def pushQueue (queue : List IncomingMsg) (mi : IncomingMsg) : List IncomingMsg :=
  queue.drop (queue.length + 1 - 1024) ++ [mi]

/-- `IncomingQueue.Add`. -/
def enqueue (mi : IncomingMsg) : PM Unit := do
  let p ← get
  if p.knownMsgs.contains mi.hash then return ()
  else
    set { p with knownMsgs := lruAdd 1024 p.knownMsgs mi.hash }
    PM.ofExcept mi.msg.string
    modify (fun p => { p with inQueue := pushQueue p.inQueue mi })

/-- The sanity check, after which `AddIncoming` looks at the epoch again. -/
def checkDecodes (mi : IncomingMsg) : PM Unit :=
  if !mi.msg.decodes then return ()
  else modify (fun p => { p with admitting := p.admitting ++ [mi] })

/-- `AddIncoming` for a message of the current epoch: the validator the
message names as its signer must have signed it. -/
def checkSigner (E : Env) (mi : IncomingMsg) : PM Unit := do
  let p ← get
  let signerIndex ← PM.ofExcept mi.msg.getSignerIndex
  if signerIndex ≥ p.epochState.committeeSize then return ()
  else
    let signer ← PM.ofExcept (deref (p.epochState.getValidatorByIndex
      (Int32.ofNat signerIndex.toNat).toInt))
    if !mi.msg.verifyMsgSignature E.H E.B signer.pubKey then PM.ofExcept mi.msg.string
    else checkDecodes mi

/-- `AddIncoming` up to the sanity check. A message of a later epoch is not
looked at for its signature. -/
def addIncoming (E : Env) (mi : IncomingMsg) : PM Unit := do
  let p ← get
  if mi.msg.getEpoch < p.epochState.epoch then PM.ofExcept mi.msg.string
  else if mi.msg.getEpoch = p.epochState.epoch then checkSigner E mi
  else checkDecodes mi

/-- The end of `AddIncoming`, which reads the epoch again. The main loop may
have installed another epoch state since the signature was looked at. -/
def admitIncoming (mi : IncomingMsg) : PM Unit := do
  let p ← get
  if mi.msg.getEpoch = p.epochState.epoch then enqueue mi
  else set { p with future := p.future ++ [mi] }

/-! ## Blocks from peers -/

/-- `types.BlockInterval`. -/
def blockInterval : UInt64 := 10

/-- `Reactor.validateBlock`. `none` is no error. The node's own epoch is
looked at if validation is forced. -/
def Pacemaker.validateBlock (E : Env) (p : Pacemaker) (blk parent : Block) (now : UInt64)
    (forceValidate : Bool) : Option Err :=
  if parent.id E.H ≠ blk.qc.blockID then
    some (.consensus "parent.ID and QC.BlockID mismatch")
  else if blk.header.timestamp ≤ parent.header.timestamp then
    some (.consensus "block timestamp behind parents")
  else if blk.header.timestamp > now + blockInterval then some .futureBlock
  else if blk.header.lastKBlock < parent.header.lastKBlock then
    some (.consensus "block LastKBlock invalid")
  else if blk.header.txsRoot ≠ Block.rootHash E.H blk.txs then
    some (.consensus "block txs root mismatch")
  else if forceValidate ∧ blk.header.lastKBlock ≠ number p.epochState.startKBlockID then
    some (.consensus "header LastKBlock invalid")
  else none

/-- `Reactor.ValidateSyncedBlock`. -/
def Pacemaker.validateSyncedBlock (E : Env) (p : Pacemaker) (blk : Block) (now : UInt64) :
    Option Err :=
  if (p.chain.getBlockHeader (blk.id E.H)).isSome ∧ p.isKnown blk then some .knownBlock
  else match p.chain.getBlock blk.parentID with
    | none => some .parentMissing
    | some parent => p.validateBlock E blk parent now true

/-- Whether `processBlock` looks at the certificate at all: only for a block
whose timestamp is less than `BlockInterval` old. -/
def Pacemaker.isRecent (p : Pacemaker) (blk : Block) : Bool :=
  decide (blk.header.timestamp + blockInterval > Time.unix p.clock)

/-- The end of `processBlock`, once the certificate was looked at. -/
def commitSynced (E : Env) (blk : Block) (escortQC : QuorumCert) : PM (Except Err Unit) := do
  let p ← get
  match p.validateSyncedBlock E blk (Time.unix p.clock) with
  | some .knownBlock => return .ok ()
  | some .futureBlock => return .ok ()
  | some .parentMissing => return .ok ()
  | some e => return .error e
  | none => commitBlock E blk (some escortQC)

/-- `Node.processBlock`. -/
def processBlock (E : Env) (blk : Block) (escortQC : QuorumCert) : PM (Except Err Unit) := do
  let p ← get
  if p.chain.bestBlock.id E.H ≠ blk.parentID then return .error .cantExtendBestBlock
  else if p.isRecent blk then
    if ← validateQC E blk escortQC then commitSynced E blk escortQC
    else return .error .invalidQC
  else commitSynced E blk escortQC

/-! ## The main loop -/

/-- The channels the main loop selects from. -/
inductive Select where
  | cmd
  | roundTimeout
  | newTx
  | broadcast
  | beat
  | message
deriving DecidableEq, Repr

/-- What can happen to a node. -/
inductive Input where
  /-- A message arrives on the consensus topic. -/
  | receive (msg : ConsensusMessage) (senderAddr : Bytes)
  /-- `AddIncoming` goes on with a message it has checked. -/
  | enter (i : ℕ)
  /-- A message of a later epoch is added again. -/
  | retryFuture (i : ℕ)
  /-- A message that was put back comes due. -/
  | delayedAdd (i : ℕ)
  /-- The round timer fires. -/
  | roundTimer
  /-- The broadcast timer fires. -/
  | broadcastTimer
  /-- Time passes. -/
  | tick (now : Time)
  /-- The transaction pool changes. -/
  | pool (txs : List Bytes)
  /-- The main loop makes a turn. -/
  | loop (sel : Select)
  /-- A peer's block is handed to `processBlock`. -/
  | sync (blk : Block) (escortQC : QuorumCert)

/-- The message handlers of the main loop. -/
def handleMessage (E : Env) (mi : IncomingMsg) : PM Unit :=
  match mi.msg with
  | .proposal msg => onReceiveProposal E mi msg
  | .vote msg => onReceiveVote E mi msg
  | .timeout msg => onReceiveTimeout E msg
  | .query msg => onReceiveQuery E msg

/-- Whether the main loop handles messages at all. -/
def Pacemaker.listens (p : Pacemaker) : Bool :=
  p.epochState.inCommittee || p.nextEpochState.any EpochState.inCommittee

/-- The head of the main loop: a best block above the highest certificate
calls for a `Regulate`. -/
def loopHead : PM Unit := do
  let p ← get
  if p.chain.bestBlock.number > p.qcHigh.qc.number && p.epochState.inCommittee then
    scheduleRegulate

/-- The branches of the main loop's select. A branch whose channel is empty
is not taken. A new transaction calls `AddTxToCurProposal`, which does
nothing. -/
def selectBranch (E : Env) : Select → PM Unit
  | .cmd => do
    if (← get).cmdCh then
      modify (fun p => { p with cmdCh := false })
      regulate E
  | .roundTimeout => do
    let p ← get
    match p.roundTimeoutCh with
    | [] => return ()
    | ti :: rest =>
      set { p with roundTimeoutCh := rest }
      if ti.epoch < p.epochState.epoch then return () else onRoundTimeout E ti
  | .newTx => return ()
  | .broadcast => do
    let p ← get
    if p.broadcastCh.isSome then
      set { p with broadcastCh := none }
      onBroadcastProposal
  | .beat => do
    let p ← get
    match p.beatCh with
    | none => return ()
    | some b =>
      set { p with beatCh := none }
      onBeat E b.epoch b.round
  | .message => do
    let p ← get
    match p.inQueue with
    | [] => return ()
    | mi :: rest =>
      set { p with inQueue := rest }
      if !p.listens then return ()
      else if mi.msg.getEpoch ≠ p.epochState.epoch then return ()
      else handleMessage E mi

/-- One turn of `mainLoop`. -/
def mainLoop (E : Env) (sel : Select) : PM Unit := do
  loopHead
  selectBranch E sel

/-- What a node makes of an input. -/
def Pacemaker.handle (E : Env) : Input → PM Unit
  | .receive msg senderAddr => addIncoming E (newIncomingMsg E.H msg senderAddr)
  | .enter i => do
    let p ← get
    match p.admitting[i]? with
    | none => return ()
    | some mi =>
      set { p with admitting := p.admitting.eraseIdx i }
      admitIncoming mi
  | .retryFuture i => do
    let p ← get
    match p.future[i]? with
    | none => return ()
    | some mi =>
      set { p with future := p.future.eraseIdx i }
      addIncoming E mi
  | .delayedAdd i => do
    let p ← get
    match p.delayed[i]? with
    | none => return ()
    | some mi =>
      set { p with delayed := p.delayed.eraseIdx i, inQueue := pushQueue p.inQueue mi }
  | .roundTimer => modify (fun p =>
      match p.roundTimer with
      | none => p
      | some (epoch, round) =>
        { p with
          roundTimer := none
          roundTimeoutCh := p.roundTimeoutCh ++ [⟨epoch, round, p.timeoutCounter⟩] })
  | .broadcastTimer => modify (fun p =>
      match p.broadcastTimer with
      | none => p
      | some msg => { p with broadcastTimer := none, broadcastCh := some msg })
  | .tick now => modify (fun p => { p with clock := now })
  | .pool txs => modify (fun p => { p with txPool := txs })
  | .loop sel => mainLoop E sel
  | .sync blk escortQC => do
    let _ ← processBlock E blk escortQC

/-- **A step of a node.** A fault ends the process. -/
def Pacemaker.step (E : Env) (p : Pacemaker) (i : Input) : Pacemaker :=
  if p.halted.isSome then p
  else match Pacemaker.handle E i p with
    | .ok _ p' => p'
    | .error fault p' => { p' with halted := some fault }

/-- A run of a node from one state to another, all of whose steps meet a
condition on the state and the input. -/
abbrev Run (E : Env) (ok : Pacemaker → Input → Prop) : Pacemaker → Pacemaker → Prop :=
  Machine.Run (Pacemaker.step E) ok

/-- The state after a sequence of inputs. -/
abbrev Pacemaker.play (E : Env) (p : Pacemaker) (inputs : List Input) : Pacemaker :=
  Machine.play (Pacemaker.step E) p inputs

/-! ## Starting -/

/-- `Chain.Initialize` on an empty store. -/
def Chain.initializeStore (E : Env) (genesis : Block) (vset nextVSet : ValidatorSet)
    (writeOK : ℕ → Bool) : Chain where
  kv :=
    { blocks := fun id => if id = genesis.id E.H then some genesis else none
      hashes := fun num => if num = 0 then some (genesis.id E.H) else none
      txMeta := fun _ => []
      validators := fun hash =>
        if hash = E.validatorSetHash nextVSet then some nextVSet
        else if hash = E.validatorSetHash vset then some vset
        else none
      bestBlockID := genesis.id E.H
      bestQC := genesisEscortQC E.H genesis nextVSet.size }
  bestBlock := genesis
  bestQC := genesisEscortQC E.H genesis nextVSet.size
  proposals := fun _ => none
  committedRefs := []
  nextRef := 0
  batchWrites := 0
  writeOK := writeOK

/-- A new store has nothing but the genesis. -/
theorem Chain.eq_of_blocks_initializeStore {E : Env} {genesis b : Block}
    {vset nextVSet : ValidatorSet} {writeOK : ℕ → Bool} {id : Bytes32}
    (h : (Chain.initializeStore E genesis vset nextVSet writeOK).kv.blocks id = some b) :
    id = genesis.id E.H ∧ b = genesis := by
  obtain ⟨hid, hb⟩ := Option.ite_none_right_eq_some.mp h
  exact ⟨hid, (Option.some.inj hb).symm⟩

/-- A new store has the genesis on its trunk. -/
theorem Chain.getTrunkBlock_initializeStore {E : Env} {vset nextVSet : ValidatorSet}
    (genesis : Block) (writeOK : ℕ → Bool) :
    (Chain.initializeStore E genesis vset nextVSet writeOK).getTrunkBlock 0 = some genesis := by
  have hhash : (Chain.initializeStore E genesis vset nextVSet writeOK).kv.hashes 0
      = some (genesis.id E.H) := by
    simp only [Chain.initializeStore, if_true]
  have hblock : (Chain.initializeStore E genesis vset nextVSet writeOK).kv.blocks (genesis.id E.H)
      = some genesis := by
    simp only [Chain.initializeStore, if_true]
  rw [getTrunkBlock, loadBlockHash, hhash, Option.getD_some, getBlock, hblock]

/-- `NewValidatorSetRegistry`. -/
def newValidatorSetRegistry (c : Chain) : Except Panic ValidatorSetRegistry :=
  let best := c.bestBlock
  let enableNum := if best.number = 0 then 0 else best.number + 4 - 1
  if best.isKBlock = false ∨ enableNum ≤ best.number then .ok ⟨fun _ => none, fun _ => none⟩
  else match c.getValidatorsByHash best.header.nextValidatorsHash with
    | none => .error (.explicit "next validator set could not be empty")
    | some nxtVSet =>
      .ok ⟨fun num => if num = enableNum then c.getValidatorsByHash best.header.validatorsHash
              else none,
           fun num => if num = enableNum then some nxtVSet else none⟩

/-- `NewPacemaker`, with the epoch state that the first `Regulate` is going
to install: nothing reads the field before. -/
def newPacemaker (chain : Chain) (app : App) (myPubKey : Bytes) (epochState : EpochState)
    (registry : ValidatorSetRegistry) (now : Time) : Pacemaker where
  chain := chain
  app := app
  myPubKey := myPubKey
  epochState := epochState
  nextEpochState := none
  addedValidators := []
  validatorSetRegistry := registry
  currentRound := 0
  roundStartedAt := now
  lastVotingHeight := 0
  lastVoteMsg := none
  qcHigh := ⟨none, chain.bestQC⟩
  lastCommitted := chain.bestBlock
  lastOnBeatRound := -1
  beatCh := none
  cmdCh := false
  roundTimeoutCh := []
  roundTimer := none
  tcHigh := none
  timeoutCounter := 0
  broadcastCh := none
  broadcastTimer := none
  curProposal := none
  validQCs := []
  inQueue := []
  knownMsgs := []
  delayed := []
  admitting := []
  future := []
  txCache := fun _ => none
  txPool := []
  clock := now
  trace := []
  halted := none

/-- `NewPacemaker` and `Start`: the state the first `Regulate` leaves. An
epoch state that cannot be made is a nil pointer that `Regulate` follows. -/
def startPacemaker (E : Env) (chain : Chain) (app : App) (myPubKey : Bytes) (now : Time) :
    Except Panic Pacemaker := do
  let registry ← newValidatorSetRegistry chain
  let bestNode ← deref (chain.getDraftByEscortQC chain.bestQC)
  let epochState ← deref (← newEpochState E chain bestNode.proposedBlock myPubKey)
  match regulate E (newPacemaker chain app myPubKey epochState registry now) with
  | .ok _ p => .ok p
  | .error fault _ => .error fault

end LoragonBFT
