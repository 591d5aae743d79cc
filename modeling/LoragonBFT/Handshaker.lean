import LoragonBFT.Pacemaker.CommitOutcome
import LoragonBFT.Node

/-!
# The handshake with the application

Before a node starts, its handshaker asks the application how far it got. An
application that knows nothing is sent `InitChain`; the chain is initialised;
and an application that is behind the store is to be sent the blocks it
missed.

Two things are read off the source. The height of the store is read from the
chain before the chain is initialised, so on a chain that was just opened it
is zero and nothing is replayed. And the loop over the missing heights looks
up the block of each height, compares its application hash, and then replays
the last block of the store, whichever height it is at. The executor made for
a replay has no transaction pool, so a replayed block with transactions
faults once the application has executed it.
-/

namespace LoragonBFT

open EStateM

/-- What `genesis.NewGenesis` makes of the genesis document and of the
validators the application answered `InitChain` with. -/
structure Genesis where
  block : Block
  validatorSet : ValidatorSet
  nextValidatorSet : ValidatorSet

/-- `genesis.Builder.Build`. The parent has the last number there is, so that
the genesis has number zero; the rest of its identifier is extra data. -/
def Genesis.build (E : Env) (timestamp : UInt64) (extraData : Bytes32)
    (vset nextVSet : ValidatorSet) : Genesis where
  block := Builder.build E.H
    { parentID := putNumber 0xffffffff extraData
      timestamp
      nonce := 1001
      validatorsHash := E.validatorSetHash vset
      nextValidatorsHash := E.validatorSetHash nextVSet
      proposerIndex := 0
      lastKBlock := 0
      qc := ⟨0, 0, 0, [], .new vset.size⟩
      txs := [] }
  validatorSet := vset
  nextValidatorSet := nextVSet

/-- **The genesis has number zero.** -/
theorem Genesis.number_build (E : Env) (timestamp : UInt64) (extraData : Bytes32)
    (vset nextVSet : ValidatorSet) :
    (Genesis.build E timestamp extraData vset nextVSet).block.number = 0 := by
  show (if putNumber 0xffffffff extraData = 0 then 0
    else number (putNumber 0xffffffff extraData) + 1) = _
  rw [number_putNumber, ite_eq_left_iff]
  exact fun _ => rfl

/-- `abci.InfoResponse`. -/
structure InfoResponse where
  lastBlockHeight : ℤ
  lastBlockAppHash : Bytes

/-- What is read of `abci.InitChainResponse`. -/
structure InitChainResponse where
  appHash : Bytes
  genesis : Genesis

/-- The errors of a handshake. -/
inductive HandshakeError where
  /-- `Info` failed. -/
  | info
  /-- `Info` answered with a negative height. -/
  | negativeHeight
  /-- A validator of the genesis document has a key of an unknown type. -/
  | unsupportedKey
  /-- `InitChain` failed. -/
  | initChain
  /-- `Chain.Initialize` failed. -/
  | initialise (e : Err)
  /-- `sm.ErrAppBlockHeightTooHigh`. -/
  | appBlockHeightTooHigh (coreHeight appHeight : ℤ)
  /-- The context was cancelled. -/
  | cancelled
  /-- A block could not be replayed. -/
  | replay (e : Err)

/-- `consensus.Handshaker`, with what it is run with. -/
structure Handshaker where
  /-- The store of the chain. -/
  kv : KV
  /-- `chain.BestBlock()`: nil as long as the chain is not initialised. -/
  best : Option Block
  writeOK : ℕ → Bool
  /-- Whether the keys of the genesis document have types the application
  interface knows. -/
  supportedKeys : Bool
  /-- Whether the answer to `InitChain` can be saved. -/
  saveOK : Bool
  /-- Whether the context is cancelled when the loop comes to a height. -/
  done : ℤ → Bool

/-! ## Opening the chain -/

/-- `Chain.Initialize` on a store that holds a chain: the best block and its
certificate are loaded. A best block above its certificate is replaced by the
block of the certificate, which must be there. -/
def Chain.load (kv : KV) (writeOK : ℕ → Bool) : Except Panic (Except Err Chain) :=
  match kv.blocks ((kv.hashes 0).getD 0) with
  | none => .ok (.error .notFound)
  | some gene =>
    match kv.validators gene.header.nextValidatorsHash, kv.blocks kv.bestBlockID with
    | some _, some best =>
      let opened (kv : KV) (bestBlock : Block) : Chain :=
        { kv, bestBlock, bestQC := kv.bestQC, proposals := fun _ => none, committedRefs := [],
          nextRef := 0, batchWrites := 0, writeOK }
      if best.number > kv.bestQC.number then
        match kv.blocks kv.bestQC.blockID with
        | none => .error .nilDereference
        | some best => .ok (.ok (opened { kv with bestBlockID := kv.bestQC.blockID } best))
      else .ok (.ok (opened kv best))
    | _, _ => .ok (.error .notFound)

/-- **A store whose certificate is not below its best block is opened as it
is.** -/
theorem Chain.exists_load (kv : KV) (writeOK : ℕ → Bool) (gene best : Block)
    (hgene : kv.blocks ((kv.hashes 0).getD 0) = some gene)
    (hvset : (kv.validators gene.header.nextValidatorsHash).isSome = true)
    (hbest : kv.blocks kv.bestBlockID = some best) (hqc : best.number ≤ kv.bestQC.number) :
    ∃ c, Chain.load kv writeOK = .ok (.ok c) ∧ c.kv = kv ∧ c.bestBlock = best
      ∧ c.bestQC = kv.bestQC := by
  obtain ⟨vset, hvset⟩ := Option.isSome_iff_exists.mp hvset
  unfold Chain.load
  rw [hgene]
  dsimp only
  rw [hvset, hbest]
  dsimp only
  rw [if_neg (UInt32.not_lt.mpr hqc)]
  exact ⟨_, rfl, rfl, rfl, rfl⟩

/-- `Chain.Initialize`. Without a genesis only a store that holds a chain can
be opened. -/
def Chain.initialise (E : Env) (kv : KV) (writeOK : ℕ → Bool) (gene : Option Genesis) :
    Except Panic (Except Err Chain) :=
  if kv.bestBlockID = 0 then
    match gene with
    | none => .error .nilDereference
    | some g =>
      if g.block.number ≠ 0 then .ok (.error (.consensus "genesis number != 0"))
      else if g.block.txs ≠ [] then
        .ok (.error (.consensus "genesis block should not have transactions"))
      else if !writeOK 0 then .ok (.error .batchWrite)
      else .ok (.ok (.initializeStore E g.block g.validatorSet g.nextValidatorSet
        (fun n => writeOK (n + 1))))
  else Chain.load kv writeOK

namespace Handshaker

/-! ## Replaying blocks -/

/-- The handshaker at work: the calls made so far are its state. -/
abbrev Calls := EStateM Panic (List AbciCall)

/-- A part that only computes. -/
def Calls.ofExcept {α : Type} : Except Panic α → Calls α
  | .ok a => pure a
  | .error p => throw p

@[simp] theorem ensures_callsOfExcept {α : Type} (x : Except Panic α) (s : List AbciCall)
    (Q : α → List AbciCall → Prop) (Q' : List AbciCall → Prop) :
    Ensures (Calls.ofExcept x) s Q Q'
      ↔ (∀ a, x = .ok a → Q a s) ∧ (∀ fault, x = .error fault → Q' s) := by
  cases x with
  | ok a => exact ⟨fun h => ⟨fun _ ha => Except.ok.inj ha ▸ h, nofun⟩, fun h => h.1 a rfl⟩
  | error fault => exact ⟨fun h => ⟨nofun, fun _ _ => h⟩, fun h => h.2 fault rfl⟩

/-- What `applyBlock` does with the answer, in an executor without a
transaction pool. -/
def afterReplay (E : Env) (c : Chain) (blk : Block) (response : FinalizeBlockResponse) :
    Except Panic (Except Err Bytes) :=
  if blk.txs.length ≠ response.txResults then
    .ok (.error (.txResultsLength blk.txs.length response.txResults))
  else if blk.txs ≠ [] then .error .nilDereference
  else do
    let _ ← calcNewValidatorSet E.B (c.getValidatorsByHash blk.header.validatorsHash)
      response.validatorUpdates
    return .ok response.appHash

/-- `replayBlock`: the application hash the block was answered with. -/
def replayBlock (E : Env) (app : App) (c : Chain) (height : ℤ) : Calls (Except Err Bytes) :=
  match c.getTrunkBlock (UInt32.ofNat (height % 2 ^ 32).toNat) with
  | none => return .error .notFound
  | some blk =>
    match c.parentBlock blk with
    | none => return .error .parentDraftNotFound
    | some parent => do
      let req ← Calls.ofExcept (finalizeBlockRequest E c parent blk blk.number.toNat)
      let calls ← get
      set (calls ++ [.finalizeBlock req])
      match app.finalizeBlock calls req with
      | none => return .error .application
      | some response => Calls.ofExcept (afterReplay E c blk response)

/-- `assertAppHashEqualsOneFromBlock`. -/
def assertAppHashEqualsOneFromBlock (appHash : Bytes) (blk : Option Block) : Except Panic Unit := do
  let blk ← deref blk
  if appHash ≠ blk.header.appHash then
    throw (.explicit "block.AppHash does not match AppHash after replay")

/-- The loop of `replayBlocks`, from height `i` on, with the number of rounds
left. -/
def replayLoop (E : Env) (app : App) (done : ℤ → Bool) (c : Chain) (storeBlockHeight : ℤ) :
    ℕ → ℤ → Bytes → Calls (Except HandshakeError Bytes)
  | 0, _, appHash => return .ok appHash
  | n + 1, i, appHash =>
    if done i then return .error .cancelled
    else do
      if appHash ≠ [] then
        Calls.ofExcept (assertAppHashEqualsOneFromBlock appHash
          (c.getTrunkBlock (UInt32.ofNat (i % 2 ^ 32).toNat)))
      -- the block of height `i` was looked up, and the last one is replayed
      match ← replayBlock E app c storeBlockHeight with
      | .error e => return .error (.replay e)
      | .ok appHash => replayLoop E app done c storeBlockHeight n (i + 1) appHash

/-- `replayBlocks`. -/
def replayBlocks (E : Env) (app : App) (done : ℤ → Bool) (c : Chain)
    (appBlockHeight storeBlockHeight : ℤ) : Calls (Except HandshakeError Bytes) :=
  replayLoop E app done c storeBlockHeight (storeBlockHeight - appBlockHeight).toNat
    (appBlockHeight + 1) []

/-- The height of the store, as `ReplayBlocks` reads it. -/
def storeBlockHeight (h : Handshaker) : ℤ := (h.best.elim 0 Block.number).toNat

/-- The first half of `ReplayBlocks`: the chain is opened. -/
def openChain (E : Env) (h : Handshaker) (initChain : Option InitChainResponse)
    (info : InfoResponse) : Except Panic (Except HandshakeError (Chain × Bytes)) :=
  if info.lastBlockHeight = 0 then
    if !h.supportedKeys then .ok (.error .unsupportedKey)
    else match initChain with
      | none => .ok (.error .initChain)
      | some res => do
        match ← Chain.initialise E h.kv h.writeOK (some res.genesis) with
        | .error e => return .error (.initialise e)
        | .ok c =>
          if h.saveOK then return .ok (c, res.appHash)
          else return .error (.initialise .batchWrite)
  else do
    match ← Chain.initialise E h.kv h.writeOK none with
    | .error e => return .error (.initialise e)
    | .ok c => return .ok (c, info.lastBlockAppHash)

/-- The second half of `ReplayBlocks`. -/
def catchUp (E : Env) (app : App) (h : Handshaker) (c : Chain) (appHash : Bytes)
    (appBlockHeight : ℤ) : Calls (Except HandshakeError Bytes) :=
  if h.storeBlockHeight = 0 then return .ok appHash
  else if h.storeBlockHeight < appBlockHeight then
    return .error (.appBlockHeightTooHigh h.storeBlockHeight appBlockHeight)
  else if appBlockHeight < h.storeBlockHeight then
    replayBlocks E app h.done c appBlockHeight h.storeBlockHeight
  else do
    Calls.ofExcept (assertAppHashEqualsOneFromBlock appHash h.best)
    return .ok appHash

/-- The `FinalizeBlock` requests among some calls, oldest first. -/
def requestsOf (calls : List AbciCall) : List FinalizeBlockRequest :=
  calls.filterMap (fun call => match call with | .finalizeBlock req => some req | _ => none)

variable {E : Env} {app : App}

/-- At most some more requests than before. -/
def Within (n : ℕ) (calls calls' : List AbciCall) : Prop :=
  (requestsOf calls').length ≤ (requestsOf calls).length + n

end Handshaker

end LoragonBFT
