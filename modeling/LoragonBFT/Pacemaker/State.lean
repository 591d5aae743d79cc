import LoragonBFT.EpochState

/-!
# The state of the pacemaker

A node's consensus state is one record: the chain with its drafts, the
epoch state, the HotStuff fields, and everything that is waiting – messages
in the queue, messages to be looked at again, timers, beats. The package
variables `validQCs` and `inQueue` belong to the process and are fields
here.

The application is reached through ABCI. It is a parameter: what it answers
may depend on all the calls it has received. Those calls are kept in the
trace, with the other things a node does that can be seen from outside or
that the results speak about: what it signs, what it sends, which blocks it
makes, which proposals it votes for and which lists it hands to `OnCommit`.

Handlers are computations in `PM`: they change the state and may fault, and
what was written before a fault stays written.
-/

namespace LoragonBFT

/-! ## The application -/

/-- `abci.PrepareProposalRequest`. -/
structure PrepareProposalRequest where
  maxTxBytes : ℤ
  height : ℤ
  time : Time
  nextValidatorsHash : Bytes
  proposerAddress : Bytes
  txs : List Bytes

/-- `abci.ProcessProposalRequest`. -/
structure ProcessProposalRequest where
  hash : Bytes32
  height : ℤ
  time : UInt64
  txs : List Bytes
  proposedLastCommit : CommitInfo
  proposerAddress : Bytes
  nextValidatorsHash : Bytes

/-- `abci.FinalizeBlockRequest`. -/
structure FinalizeBlockRequest where
  hash : Bytes32
  nextValidatorsHash : Bytes
  proposerAddress : Bytes
  height : ℤ
  time : UInt64
  decidedLastCommit : CommitInfo
  txs : List Bytes
  syncingToHeight : ℤ

/-- `abci.ProcessProposalStatus`. -/
inductive ProposalStatus where
  | unknown
  | accept
  | reject
deriving DecidableEq, Repr

/-- `abci.ValidatorUpdate`. -/
structure ValidatorUpdate where
  pubKeyBytes : Bytes
  power : ℤ
deriving DecidableEq, Repr

/-- What is read of `abci.FinalizeBlockResponse`. -/
structure FinalizeBlockResponse where
  appHash : Bytes
  /-- The number of transaction results. -/
  txResults : ℕ
  validatorUpdates : List ValidatorUpdate
deriving DecidableEq, Repr

/-- A call on the consensus connection. -/
inductive AbciCall where
  | prepareProposal (req : PrepareProposalRequest)
  | processProposal (req : ProcessProposalRequest)
  | finalizeBlock (req : FinalizeBlockRequest)
  | commit

/-- The application behind `proxyApp`: an answer, or none for an error, for
every history of calls. -/
structure App where
  prepareProposal : List AbciCall → PrepareProposalRequest → Option (List Bytes)
  processProposal : List AbciCall → ProcessProposalRequest → Option ProposalStatus
  finalizeBlock : List AbciCall → FinalizeBlockRequest → Option FinalizeBlockResponse

/-! ## Queues, timers and the trace -/

/-- `PMRoundTimeoutInfo`. -/
structure PMRoundTimeoutInfo where
  epoch : UInt64
  round : UInt32
  counter : UInt64
deriving DecidableEq, Repr

/-- `PMBeatInfo`. -/
structure PMBeatInfo where
  epoch : UInt64
  round : UInt32
deriving DecidableEq, Repr

/-- `roundType`. -/
inductive RoundType where
  | regular
  | timeout
deriving DecidableEq, Repr

/-- `IncomingMsg`. -/
structure IncomingMsg where
  msg : ConsensusMessage
  senderAddr : Bytes
  hash : Bytes32
  processCount : UInt32

/-- `newIncomingMsg`. -/
def newIncomingMsg (H : Hashes) (msg : ConsensusMessage) (senderAddr : Bytes) : IncomingMsg :=
  ⟨msg, senderAddr, msg.getMsgHash H, 0⟩

/-- `commitReadyBlock`. -/
structure CommitReadyBlock where
  block : Option DraftBlock
  escortQC : Option QuorumCert

/-- `ValidatorSetRegistry`. -/
structure ValidatorSetRegistry where
  currentVSet : UInt32 → Option ValidatorSet
  nextVSet : UInt32 → Option ValidatorSet

/-- What a node does that can be observed. -/
inductive Event where
  /-- A call of the application. -/
  | abci (call : AbciCall)
  /-- The node built a vote, and so signed the block's identifier. -/
  | voted (d : DraftBlock) (vote : PMVoteMessage)
  /-- The node made a block of its own a draft. -/
  | proposed (d : DraftBlock)
  /-- The node signed anything else. -/
  | signed (hash : Bytes32)
  /-- The node published a message. -/
  | broadcast (msg : ConsensusMessage)
  /-- `OnCommit` was called, with this block committed last. -/
  | onCommit (lastCommitted : Block) (commitReady : List CommitReadyBlock)

/-- `consensus.Pacemaker`, with its executor and the package variables. -/
structure Pacemaker where
  chain : Chain
  app : App
  /-- The node's own public key, `blsMaster.CmtPubKey`. -/
  myPubKey : Bytes
  epochState : EpochState
  nextEpochState : Option EpochState
  addedValidators : List Validator
  validatorSetRegistry : ValidatorSetRegistry
  currentRound : UInt32
  roundStartedAt : Time
  lastVotingHeight : UInt32
  lastVoteMsg : Option PMVoteMessage
  qcHigh : DraftQC
  lastCommitted : Block
  lastOnBeatRound : Int32
  /-- `beatCh`: emptied before anything is sent, so it holds at most one. -/
  beatCh : Option PMBeatInfo
  /-- `cmdCh`: whether a `Regulate` is waiting. -/
  cmdCh : Bool
  /-- `roundTimeoutCh`, with the timers blocked on it. -/
  roundTimeoutCh : List PMRoundTimeoutInfo
  /-- The epoch and round of the running round timer. -/
  roundTimer : Option (UInt64 × UInt32)
  tcHigh : Option TimeoutCert
  timeoutCounter : UInt64
  /-- `broadcastCh`: emptied before anything is sent. -/
  broadcastCh : Option PMProposalMessage
  broadcastTimer : Option PMProposalMessage
  curProposal : Option DraftBlock
  /-- The `validQCs` cache, newest first. -/
  validQCs : List Bytes32
  /-- `inQueue.queue`. -/
  inQueue : List IncomingMsg
  /-- `inQueue.cache`, newest first. -/
  knownMsgs : List Bytes32
  /-- Messages `DelayedAdd` puts back after a second. -/
  delayed : List IncomingMsg
  /-- Messages `AddIncoming` has checked, before it reads the epoch state
  once more. -/
  admitting : List IncomingMsg
  /-- Messages of a later epoch, added again after a second. -/
  future : List IncomingMsg
  /-- `executor.txCache`, by transaction hash. -/
  txCache : Bytes32 → Option UInt32
  /-- What `txPool.Executables` returns. -/
  txPool : List Bytes
  clock : Time
  /-- What the node did, oldest first. -/
  trace : List Event
  /-- The fault that ended the process, if one did. -/
  halted : Option Panic

/-- A handler. -/
abbrev PM := EStateM Panic Pacemaker

/-- A part of a handler that only reads. -/
def PM.ofExcept {α : Type} : Except Panic α → PM α
  | .ok a => pure a
  | .error p => throw p

/-- Add to the trace. -/
def record (e : Event) : PM Unit := modify (fun p => { p with trace := p.trace ++ [e] })

@[simp] theorem ensures_ofExcept {α : Type} (x : Except Panic α) (s : Pacemaker)
    (Q : α → Pacemaker → Prop) (Q' : Pacemaker → Prop) :
    EStateM.Ensures (PM.ofExcept x) s Q Q'
      ↔ (∀ a, x = .ok a → Q a s) ∧ (∀ fault, x = .error fault → Q' s) := by
  cases x with
  | ok a => exact ⟨fun h => ⟨fun _ ha => Except.ok.inj ha ▸ h, nofun⟩, fun h => h.1 a rfl⟩
  | error fault => exact ⟨fun h => ⟨nofun, fun _ _ => h⟩, fun h => h.2 fault rfl⟩

@[simp] theorem ensures_record (e : Event) (s : Pacemaker) (Q : Unit → Pacemaker → Prop)
    (Q' : Pacemaker → Prop) :
    EStateM.Ensures (record e) s Q Q' ↔ Q () { s with trace := s.trace ++ [e] } := Iff.rfl

/-- The application calls of a trace. -/
def abciCalls (trace : List Event) : List AbciCall :=
  trace.filterMap (fun e => match e with | .abci call => some call | _ => none)

/-- `lru.Cache.Add`: an entry that is there moves to the front, and the
oldest entry falls out of a full cache. -/
def lruAdd (size : ℕ) (cache : List Bytes32) (key : Bytes32) : List Bytes32 :=
  (key :: cache.filter (· != key)).take size

theorem mem_lruAdd (size : ℕ) (cache : List Bytes32) (key : Bytes32) :
    key ∈ lruAdd (size + 1) cache key := by
  simp [lruAdd]

theorem mem_of_mem_lruAdd {size : ℕ} {cache : List Bytes32} {key x : Bytes32}
    (h : x ∈ lruAdd size cache key) : x = key ∨ x ∈ cache := by
  have hmem : x ∈ key :: cache.filter (· != key) := List.mem_of_mem_take h
  rcases List.mem_cons.mp hmem with rfl | hold
  · exact .inl rfl
  · exact .inr (List.mem_of_mem_filter hold)

/-- The second a point in time falls into. -/
def Time.unix (t : Time) : UInt64 := UInt64.ofNat (t / 10 ^ 9).toNat

/-- `Chain.GetDraft`. A draft made up from a stored block is a new object
each time, so a lookup takes a pointer. -/
def getDraft (id : Bytes32) : PM (Option DraftBlock) := do
  let p ← get
  set { p with chain := { p.chain with nextRef := p.chain.nextRef + 1 } }
  return p.chain.getDraft id

/-- `Chain.GetDraftByEscortQC`. -/
def getDraftByEscortQC (qc : QuorumCert) : PM (Option DraftBlock) := do
  let p ← get
  set { p with chain := { p.chain with nextRef := p.chain.nextRef + 1 } }
  return p.chain.getDraftByEscortQC qc

/-- `Chain.AddDraft`. -/
def addDraft (H : Hashes) (d : DraftBlock) : PM Unit :=
  modify (fun p => { p with chain := p.chain.addDraft H d })

/-! ## Scheduling -/

/-- `scheduleOnBeat`. -/
def scheduleOnBeat (epoch : UInt64) (round : UInt32) : PM Unit :=
  modify (fun p => { p with beatCh := some ⟨epoch, round⟩ })

/-- `ScheduleRegulate`. -/
def scheduleRegulate : PM Unit := modify (fun p => { p with cmdCh := true })

/-- `resetRoundTimer`. -/
def resetRoundTimer (round : UInt32) (rtype : RoundType) : PM Unit :=
  modify (fun p => { p with
    roundTimer := some (p.epochState.epoch, round)
    timeoutCounter := match rtype with | .regular => 0 | .timeout => p.timeoutCounter + 1 })

/-- `enterRound`. A lower round is skipped, unless it is round zero. -/
def enterRound (round : UInt32) (rtype : RoundType) : PM Bool := do
  let p ← get
  if round > 0 && round < p.currentRound then return false
  else if !p.epochState.inCommittee then return false
  else
    resetRoundTimer round rtype
    modify (fun p => { p with currentRound := round, roundStartedAt := p.clock })
    return true

/-- `amIRoundProproser`. -/
def Pacemaker.amIRoundProproser (p : Pacemaker) (round : UInt32) : Bool :=
  match p.epochState.getRoundProposer round with
  | none => false
  | some proposer => decide (proposer.pubKey.bytes = p.myPubKey)

/-! ## Sending -/

/-- `SignMessage`: what the node's key makes of a hash. -/
def Pacemaker.sign (E : Env) (p : Pacemaker) (hash : Bytes32) : Bytes := E.B.sign p.myPubKey hash

/-- `Broadcast`. The sender's address is read from the node's own entry in
the committee, which a node outside it does not have. -/
def broadcast (msg : ConsensusMessage) : PM Unit := do
  let _ ← PM.ofExcept (deref (← get).epochState.getMyself)
  PM.ofExcept msg.string
  record (.broadcast msg)

end LoragonBFT
