import LoragonBFT.Pacemaker.State

/-!
# Executing and committing blocks

A block is committed in three moves: `CommitBlock` compares its number with
the best block's, `ApplyBlock` has the application execute it, and
`AddBlock` puts it into the chain. The application is called before the
chain is written, and nothing takes the call back when a later move fails.

`OnCommit` commits a list of blocks one after the other. A block that fails
is logged and the loop goes on with the next one; the drafts are pruned
after every attempt, whatever its outcome.

`calcNewValidatorSet` works on a local adapter and returns a named result
that is never assigned: the next validator set is always nil, and the branch
of `CommitBlock` that would register it is never taken.
-/

namespace LoragonBFT

/-! ## Validator updates -/

/-- `ValidatorSetAdapter.DeleteByPubkey`: the first match goes. -/
def deleteByPubkey (vals : List Validator) (pubkeyBytes : Bytes) : List Validator :=
  vals.eraseP (fun v => v.pubKey.bytes = pubkeyBytes)

/-- `ValidatorSetAdapter.Upsert`: entries with the key take the new address,
and the validator is appended in any case. -/
def upsert (vals : List Validator) (newV : Validator) : List Validator :=
  vals.map (fun v => if v.pubKey.bytes = newV.pubKey.bytes
    then { v with address := newV.address } else v) ++ [newV]

/-- One round of the loop of `calcNewValidatorSet`. The entry found is
changed in place before it is handed to `Upsert`. -/
def applyUpdate (B : Bls) (vals : List Validator) (update : ValidatorUpdate) :
    Except Panic (List Validator) :=
  if !B.validPublicKey update.pubKeyBytes then .error (.explicit "invalid public key")
  else if update.power = 0 then .ok (deleteByPubkey vals update.pubKeyBytes)
  else match getByPubkey vals update.pubKeyBytes with
    | none =>
      .ok (upsert vals ⟨[], ⟨.bls12381, update.pubKeyBytes⟩, update.power⟩)
    | some v =>
      let v' := { v with votingPower := update.power }
      .ok (upsert (vals.replace v v') v')

/-- `calcNewValidatorSet`. The adapter is local, and the named result is
never assigned. -/
def calcNewValidatorSet (B : Bls) (vset : Option ValidatorSet) (updates : List ValidatorUpdate) :
    Except Panic (Option ValidatorSet) :=
  if updates.length ≤ 0 then .ok none
  else do
    let _ ← updates.foldlM (applyUpdate B) (← deref vset).validators
    return none

/-- **No validator update takes effect**: whatever the application asks for,
the set handed back is nil. -/
theorem calcNewValidatorSet_eq_none {B : Bls} {vset : Option ValidatorSet}
    {updates : List ValidatorUpdate} {r : Option ValidatorSet}
    (h : calcNewValidatorSet B vset updates = .ok r) : r = none := by
  unfold calcNewValidatorSet at h
  split at h
  · exact (Except.ok.inj h).symm
  · cases hv : deref vset with
    | error p => rw [hv] at h; exact absurd h (by simp [bind, Except.bind])
    | ok v =>
      rw [hv] at h
      change (updates.foldlM (applyUpdate B) v.validators >>= fun _ => pure none) = .ok r at h
      cases hf : updates.foldlM (applyUpdate B) v.validators with
      | error p => rw [hf] at h; exact absurd h (by simp [bind, Except.bind])
      | ok l => rw [hf] at h; exact (Except.ok.inj h).symm

/-- `CalcAddedValidators`. -/
def calcAddedValidators (curVSet nxtVSet : ValidatorSet) : List Validator :=
  nxtVSet.validators.filter
    (fun v => !(curVSet.validators.any (fun w => w.pubKey.bytes == v.pubKey.bytes)))

/-- `registerNewValidatorSet`. Its error is not looked at by the caller. -/
def registerNewValidatorSet (E : Env) (curNum : UInt32) (vset nxtVSet : ValidatorSet) : PM Unit :=
  modify (fun p =>
    let enableNum := if curNum = 0 then 0 else curNum + 4 - 1
    if enableNum ≤ p.chain.bestBlock.number then p
    else
      { p with
        validatorSetRegistry :=
          { currentVSet := fun num =>
              if num < p.chain.bestBlock.number then none
              else Function.update p.validatorSetRegistry.currentVSet enableNum (some vset) num
            nextVSet :=
              Function.update p.validatorSetRegistry.nextVSet enableNum (some nxtVSet) }
        chain := { p.chain with kv := { p.chain.kv with
          validators := Function.update p.chain.kv.validators (E.validatorSetHash nxtVSet)
            (some nxtVSet) } } })

/-! ## The executor -/

/-- `ValidatorSet.GetByIndex` through a pointer, and the address it
returns: nil for an index outside the set. -/
def proposerAddress (vset : Option ValidatorSet) (index : ℤ) : Except Panic Bytes :=
  if index < 0 then .ok []
  else do return ((← deref vset).getByIndex index).elim [] Validator.address

/-- The parent block the executor works with: the stored one, else the
draft's. -/
def Chain.parentBlock (c : Chain) (blk : Block) : Option Block :=
  match c.getBlock blk.parentID with
  | some parent => some parent
  | none => (c.getDraft blk.parentID).map (fun d => d.proposedBlock)

/-- The validator set a block is executed under. -/
def Chain.blockValidators (c : Chain) (parent blk : Block) : Option ValidatorSet :=
  if blk.number = 0 then c.getValidatorsByHash parent.header.nextValidatorsHash
  else c.getValidatorsByHash blk.header.validatorsHash

/-- The request `applyBlock` makes. -/
def finalizeBlockRequest (E : Env) (c : Chain) (parent blk : Block) (syncingToHeight : ℤ) :
    Except Panic FinalizeBlockRequest := do
  let proposerAddr ← proposerAddress (c.blockValidators parent blk)
    (Int32.ofNat blk.header.proposerIndex.toNat).toInt
  let decidedLastCommit ← c.buildLastCommitInfo parent blk
  return { hash := blk.id E.H, nextValidatorsHash := blk.header.nextValidatorsHash,
           proposerAddress := proposerAddr, height := blk.number.toNat,
           time := blk.header.timestamp, decidedLastCommit, txs := blk.txs, syncingToHeight }

/-- **A request is for its block.** -/
theorem eq_of_finalizeBlockRequest {E : Env} {c : Chain} {parent blk : Block}
    {syncingToHeight : ℤ} {req : FinalizeBlockRequest}
    (h : finalizeBlockRequest E c parent blk syncingToHeight = .ok req) :
    req.hash = blk.id E.H ∧ req.height = blk.number.toNat ∧ req.txs = blk.txs := by
  unfold finalizeBlockRequest at h
  cases haddr : proposerAddress (c.blockValidators parent blk)
      (Int32.ofNat blk.header.proposerIndex.toNat).toInt with
  | error fault => rw [haddr] at h; exact nomatch h
  | ok addr =>
    cases hcommit : c.buildLastCommitInfo parent blk with
    | error fault => rw [haddr, hcommit] at h; exact nomatch h
    | ok info =>
      rw [haddr, hcommit] at h
      rw [← Except.ok.inj h]
      exact ⟨rfl, rfl, rfl⟩

/-- The clean-up after a block was executed: the transactions it carries
leave the cache and the pool, and so do cache entries of its height and
below. -/
def forgetTxs (E : Env) (blk : Block) : PM Unit :=
  modify (fun p => { p with
    txCache := fun h =>
      if (p.txCache h).any (fun height => decide (height ≤ blk.number))
          || (blk.txs.map E.H.sha256).contains h then none
      else p.txCache h
    txPool := p.txPool.filter
      (fun tx => !((blk.txs.map E.H.sha256).contains (E.H.sha256 tx))) })

/-- What `applyBlock` does with the application's answer. -/
def afterFinalize (E : Env) (blk : Block) (response : FinalizeBlockResponse) :
    PM (Except Err (Bytes × Option ValidatorSet)) := do
  if blk.txs.length ≠ response.txResults then
    return .error (.txResultsLength blk.txs.length response.txResults)
  else
    forgetTxs E blk
    let curVSet := (← get).chain.getValidatorsByHash blk.header.validatorsHash
    let nxtVSet ← PM.ofExcept (calcNewValidatorSet E.B curVSet response.validatorUpdates)
    return .ok (response.appHash, nxtVSet)

/-- `Executor.ApplyBlock`. -/
def applyBlock (E : Env) (blk : Block) (syncingToHeight : ℤ) :
    PM (Except Err (Bytes × Option ValidatorSet)) := do
  let p ← get
  match p.chain.parentBlock blk with
  | none => return .error .parentDraftNotFound
  | some parent =>
    let req ← PM.ofExcept (finalizeBlockRequest E p.chain parent blk syncingToHeight)
    record (.abci (.finalizeBlock req))
    match p.app.finalizeBlock (abciCalls p.trace) req with
    | none => return .error .application
    | some response => afterFinalize E blk response

/-- `Executor.Commit`. Nothing calls it. -/
def Executor.commit : PM Unit := record (.abci .commit)

/-! ## Committing a block -/

/-- The branch of `CommitBlock` for a next validator set. -/
def registerNext (E : Env) (blk : Block) : Option ValidatorSet → PM (Except Err Unit)
  | none => return .ok ()
  | some nxtVSet => do
    let p ← get
    set { p with addedValidators := calcAddedValidators p.epochState.committee nxtVSet }
    match newPendingEpochState (some nxtVSet) p.myPubKey p.epochState.epoch with
    | .error e => return .error e
    | .ok es =>
      modify (fun p => { p with nextEpochState := some es })
      registerNewValidatorSet E blk.number p.epochState.committee nxtVSet
      return .ok ()

/-- `blk.BlockHeader.AppHash = appHash`. -/
def Block.withAppHash (blk : Block) (appHash : Bytes) : Block :=
  { blk with header := { blk.header with appHash } }

/-- The end of `CommitBlock`, once the block is in the chain. -/
def finishCommit (blk : Block) (fork : Fork) : PM (Except Err Unit) := do
  if fork.branch.length > 0 then
    scheduleRegulate
    return .error .forkHappened
  else
    modify (fun p => { p with lastCommitted := blk })
    if blk.isKBlock then scheduleRegulate
    return .ok ()

/-- The call of `AddBlock` in `CommitBlock` and what follows it. -/
def addCommitted (E : Env) (blk : Block) (escortQC : Option QuorumCert) : PM (Except Err Unit) := do
  let (result, chain) ← PM.ofExcept ((← get).chain.addBlock E.H blk escortQC)
  modify (fun p => { p with chain })
  match result with
  | .error e => return .error e
  | .ok fork => finishCommit blk fork

/-- The second half of `CommitBlock`: what is done with an executed
block. -/
def commitExecuted (E : Env) (blk : Block) (escortQC : Option QuorumCert) :
    Except Err (Bytes × Option ValidatorSet) → PM (Except Err Unit)
  | .error e => return .error e
  | .ok (appHash, nxtVSet) => do
    match ← registerNext E blk nxtVSet with
    | .error e => return .error e
    | .ok () => addCommitted E (blk.withAppHash appHash) escortQC

/-- The height check of `CommitBlock`. -/
def Pacemaker.isKnown (p : Pacemaker) (blk : Block) : Bool :=
  decide (blk.number ≤ p.chain.bestBlock.number)

/-- `CommitBlock`. -/
def commitBlock (E : Env) (blk : Block) (escortQC : Option QuorumCert) : PM (Except Err Unit) := do
  if (← get).isKnown blk then return .error .knownBlock
  else commitExecuted E blk escortQC (← applyBlock E blk blk.number.toNat)

/-! ## Committing a list -/

/-- One round of the loop of `OnCommit`, with the block to return so far. -/
def onCommitOne (E : Env) (b : CommitReadyBlock) (lastCommitted : Block) : PM Block :=
  match b.block with
  | none => return lastCommitted
  | some blk =>
    if !blk.successProcessed then return lastCommitted
    else if blk.processError = some .knownBlock then return lastCommitted
    else do
      let err ← commitBlock E blk.proposedBlock b.escortQC
      modify (fun p => { p with chain := p.chain.pruneDraftsUpTo E.H blk })
      match err with
      | .error _ => return lastCommitted
      | .ok () => return blk.proposedBlock

/-- The loop of `OnCommit`. -/
def onCommitLoop (E : Env) : List CommitReadyBlock → Block → PM Block
  | [], lastCommitted => return lastCommitted
  | b :: rest, lastCommitted => do onCommitLoop E rest (← onCommitOne E b lastCommitted)

/-- `OnCommit`. The block returned starts as the first of the list, before
any of them is committed. -/
def onCommit (E : Env) (commitReady : List CommitReadyBlock) : PM (Option Block) := do
  record (.onCommit (← get).lastCommitted commitReady)
  match commitReady with
  | [] => return none
  | first :: _ =>
    let blk ← PM.ofExcept (deref first.block)
    return some (← onCommitLoop E commitReady blk.proposedBlock)

end LoragonBFT
