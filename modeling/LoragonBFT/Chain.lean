import Mathlib.Logic.Function.Basic
import LoragonBFT.Messages

/-!
# The chain and its drafts

`Chain` keeps two things side by side: the blocks that were committed, in a
key-value store, and the drafts – blocks that were proposed and are not
committed yet – in a map in memory. A draft points to its parent draft, and
a committed block has no draft: when one is asked for, a draft without a
parent is made up from the stored block.

Drafts are shared and compared by pointer, and one of their fields changes
after they are shared. So a draft carries a reference, and the flag that
changes is kept apart from it, as the list of references it was raised for.
The parent pointers of a draft are followed to the end often and never
changed, so a draft holds the drafts its parent pointers lead to.
-/

namespace LoragonBFT

/-- The errors the modelled functions return. -/
inductive Err where
  /-- `errKnownBlock`. -/
  | knownBlock
  /-- `errParentMissing`. -/
  | parentMissing
  /-- `errFutureBlock`. -/
  | futureBlock
  /-- `ErrProposalRejected`. -/
  | proposalRejected
  /-- `ErrForkHappened`. -/
  | forkHappened
  /-- `ErrInvalidRound`. -/
  | invalidRound
  /-- `chain.ErrBlockExist`. -/
  | blockExist
  /-- `chain.ErrNotFound`. -/
  | notFound
  /-- `errCantExtendBestBlock`. -/
  | cantExtendBestBlock
  /-- `AddBlock`: "parent missing". -/
  | parentHeaderMissing
  /-- `AddBlock`: "escort QC is nil". -/
  | escortQCNil
  /-- A write to the key-value store failed. -/
  | batchWrite
  /-- `ValidateProposal`: "tx already existed in cache". -/
  | txExisted
  /-- `applyBlock`: "parent draft not found". -/
  | parentDraftNotFound
  /-- The application returned an error. -/
  | application
  /-- `applyBlock`: one result for each transaction was expected. -/
  | txResultsLength (expected got : ℕ)
  /-- `NewPendingEpochState` was given no validator set. -/
  | validatorSetNil
  /-- `processBlock`: the certificate is invalid. -/
  | invalidQC
  /-- A `consensusError` of `validateBlock`. -/
  | consensus (what : String)
deriving DecidableEq, Repr

/-! ## Drafts -/

/-- A pointer to a draft. -/
abbrev Ref := ℕ

/-- A `block.DraftQC` as a draft holds it. -/
structure Justify where
  /-- The `QCNode` pointer. -/
  qcNode : Option Ref
  qc : QuorumCert
deriving DecidableEq, Repr

/-- The fields of a `block.DraftBlock` other than its parent pointer. -/
structure DraftInfo where
  /-- The pointer by which this draft is known. -/
  ref : Ref
  msg : Option PMProposalMessage
  height : UInt32
  round : UInt32
  justify : Option Justify
  /-- Whether the draft was made up from a stored block. The flag is also
  raised later, see `Chain.isCommitted`. -/
  committed : Bool
  proposedBlock : Block
  successProcessed : Bool
  processError : Option Err

/-- `block.DraftBlock`: its fields, and what its parent pointers lead to,
nearest first. -/
structure DraftBlock extends DraftInfo where
  ancestors : List DraftInfo

namespace DraftBlock

/-- The draft at the end of the parent pointer. -/
def parent (d : DraftBlock) : Option DraftBlock :=
  match d.ancestors with
  | [] => none
  | a :: as => some ⟨a, as⟩

/-- The draft and everything its parent pointers lead to. -/
def chain (d : DraftBlock) : List DraftInfo := d.toDraftInfo :: d.ancestors

/-- The draft made up from a stored block. -/
def stored (ref : Ref) (blk : Block) (height round : UInt32) : DraftBlock where
  ref := ref
  msg := none
  height := height
  round := round
  justify := none
  committed := true
  proposedBlock := blk
  successProcessed := false
  processError := none
  ancestors := []

end DraftBlock

/-- `block.DraftQC` outside a draft. -/
structure DraftQC where
  qcNode : Option DraftBlock
  qc : QuorumCert

/-- What a draft stores of a certificate: where its node is. -/
def DraftQC.toJustify (q : DraftQC) : Justify := ⟨q.qcNode.map (·.ref), q.qc⟩

/-! ## The store -/

/-- `chain.TxMeta`. -/
structure TxMeta where
  blockID : Bytes32
  index : UInt64
deriving DecidableEq, Repr

/-- The key-value store, one field a key prefix. A block is stored as its
RLP encoding and decoded when it is read. -/
structure KV where
  blocks : Bytes32 → Option Block
  /-- Block identifiers by number. -/
  hashes : UInt32 → Option Bytes32
  txMeta : Bytes32 → List TxMeta
  /-- Validator sets by hash. -/
  validators : Bytes → Option ValidatorSet
  bestBlockID : Bytes32
  bestQC : QuorumCert

/-- `chain.Chain`. -/
structure Chain where
  kv : KV
  bestBlock : Block
  bestQC : QuorumCert
  /-- The draft map, by block identifier. -/
  proposals : Bytes32 → Option DraftBlock
  /-- The drafts whose `Committed` flag was raised by `PruneUpTo`. -/
  committedRefs : List Ref
  /-- The next pointer to hand out. -/
  nextRef : Ref
  /-- How many batches were written so far. -/
  batchWrites : ℕ
  /-- Whether the store accepts a batch. -/
  writeOK : ℕ → Bool

/-- `chain.Fork`. -/
structure Fork where
  ancestor : Header
  trunk : List Header
  branch : List Header

namespace Chain

variable (H : Hashes)

/-- `Chain.GetBlock`. -/
def getBlock (c : Chain) (id : Bytes32) : Option Block := c.kv.blocks id

/-- `Chain.getBlockHeader`. -/
def getBlockHeader (c : Chain) (id : Bytes32) : Option Header := (c.kv.blocks id).map Block.header

/-- `loadBlockHash`: a missing key reads as the zero identifier. -/
def loadBlockHash (c : Chain) (num : UInt32) : Bytes32 := (c.kv.hashes num).getD 0

/-- `Chain.GetTrunkBlock`. -/
def getTrunkBlock (c : Chain) (num : UInt32) : Option Block := c.getBlock (c.loadBlockHash num)

/-- `Chain.GetValidatorsByHash`. -/
def getValidatorsByHash (c : Chain) (hash : Bytes) : Option ValidatorSet := c.kv.validators hash

/-- `Chain.GetNextValidatorSet`. -/
def getNextValidatorSet (c : Chain) (num : UInt32) : Option ValidatorSet := do
  let blk ← c.getTrunkBlock num
  c.kv.validators blk.header.nextValidatorsHash

/-- `Chain.IsBlockFinalized`. -/
def isBlockFinalized (c : Chain) (id : Bytes32) : Bool := decide (number id ≤ c.bestBlock.number)

/-- `Chain.isTrunk`: a higher block, or one as high with a smaller
identifier. -/
def isTrunk (c : Chain) (header : Header) : Bool :=
  if header.number < c.bestBlock.number then false
  else if header.number > c.bestBlock.number then true
  else decide ((header.id H).toNat < (c.bestBlock.id H).toNat)

theorem isTrunk_of_lt {c : Chain} {blk : Block} (h : c.bestBlock.number < blk.number) :
    c.isTrunk H blk.header = true := by
  have hnot : ¬ blk.header.number < c.bestBlock.number := UInt32.not_lt.mpr (UInt32.le_of_lt h)
  unfold isTrunk
  rw [if_neg hnot]
  exact if_pos h

/-- The loop of `buildFork`. The two heads step back until they meet; the
numbers of the two heads bound the steps a well-formed store needs. -/
def buildForkLoop (c : Chain) :
    ℕ → Header → Header → List Header → List Header → Except Panic (Except Err Fork)
  | 0, _, _, _, _ => .error .diverges
  | fuel + 1, b₁, b₂, trunk, branch =>
    if b₁.number > b₂.number then
      match c.getBlockHeader b₁.parentID with
      | some b₁' => buildForkLoop c fuel b₁' b₂ (b₁ :: trunk) branch
      | none => .ok (.error .notFound)
    else if b₁.number < b₂.number then
      match c.getBlockHeader b₂.parentID with
      | some b₂' => buildForkLoop c fuel b₁ b₂' trunk (b₂ :: branch)
      | none => .ok (.error .notFound)
    else if b₁.id H = b₂.id H then .ok (.ok ⟨b₁, trunk, branch⟩)
    else
      match c.getBlockHeader b₁.parentID, c.getBlockHeader b₂.parentID with
      | some b₁', some b₂' => buildForkLoop c fuel b₁' b₂' (b₁ :: trunk) (b₂ :: branch)
      | _, _ => .ok (.error .notFound)

/-- `Chain.buildFork`. -/
def buildFork (c : Chain) (trunkHead branchHead : Header) : Except Panic (Except Err Fork) :=
  c.buildForkLoop H (trunkHead.number.toNat + branchHead.number.toNat + 2) trunkHead branchHead
    [] []

/-- The first check of `AddBlock`: whether the block is there already. A
stored block above the best one, with the same parent and timestamp, does
not count. -/
def blockExists (c : Chain) (newBlock : Block) : Bool :=
  match c.getBlockHeader (newBlock.id H) with
  | none => false
  | some header =>
    if header.number = newBlock.number ∧ header.parentID = newBlock.parentID
        ∧ header.timestamp = newBlock.header.timestamp ∧ c.isBlockFinalized header.parentID then
      c.isBlockFinalized (newBlock.id H)
    else true

/-- The writes `AddBlock` puts into its batch before it looks at the trunk:
the block, its number, and where each transaction is. The locations are read
from the store, not from the batch, so of a transaction that stands twice in
the block only the last place is kept. -/
def saveBlock (kv : KV) (newBlock : Block) : KV :=
  { kv with
    blocks := Function.update kv.blocks (newBlock.id H) (some newBlock)
    hashes := Function.update kv.hashes newBlock.number (some (newBlock.id H))
    txMeta := newBlock.txs.zipIdx.foldl
      (fun metas tx => Function.update metas (H.sha256 tx.1)
        (kv.txMeta (H.sha256 tx.1) ++ [⟨newBlock.id H, UInt64.ofNat tx.2⟩]))
      kv.txMeta }

/-- `batch.Write`. -/
def writeBatch (c : Chain) (kv : KV) (fork : Fork) : Except Err Fork × Chain :=
  if c.writeOK c.batchWrites then
    (.ok fork, { c with kv, batchWrites := c.batchWrites + 1 })
  else (.error .batchWrite, { c with batchWrites := c.batchWrites + 1 })

/-- `Chain.AddBlock`, with the chain it leaves behind. The best block and
its certificate are replaced in memory before the batch is written. -/
def addBlock (c : Chain) (newBlock : Block) (escortQC : Option QuorumCert) :
    Except Panic (Except Err Fork × Chain) :=
  if c.blockExists H newBlock then .ok (.error .blockExist, c)
  else match c.getBlockHeader newBlock.parentID with
    | none => .ok (.error .parentHeaderMissing, c)
    | some parent =>
      if c.isTrunk H newBlock.header then
        match c.buildFork H newBlock.header c.bestBlock.header with
        | .error p => .error p
        | .ok (.error e) => .ok (.error e, c)
        | .ok (.ok fork) =>
          match escortQC with
          | none => .ok (.error .escortQCNil, { c with bestBlock := newBlock })
          | some qc =>
            .ok (writeBatch { c with bestBlock := newBlock, bestQC := qc }
              { saveBlock H c.kv newBlock with bestBlockID := newBlock.id H, bestQC := qc } fork)
      else
        .ok (writeBatch c (saveBlock H c.kv newBlock) ⟨parent, [], [newBlock.header]⟩)

/-- `AddBlock` comes to the point where it writes: the block is not there yet,
its parent is, and for a block on the trunk the fork was found. -/
def ReachesWrite (c : Chain) (blk : Block) : Prop :=
  c.blockExists H blk = false ∧ (c.getBlockHeader blk.parentID).isSome = true
    ∧ (c.isTrunk H blk.header = true →
      ∃ fork, c.buildFork H blk.header c.bestBlock.header = .ok (.ok fork))

/-- The chain once a block was written as the best one. -/
def withBest (c : Chain) (blk : Block) (qc : QuorumCert) : Chain :=
  { c with
    bestBlock := blk
    bestQC := qc
    kv := { saveBlock H c.kv blk with bestBlockID := blk.id H, bestQC := qc }
    batchWrites := c.batchWrites + 1 }

/-- The chain once a block was written beside the trunk. -/
def withBranch (c : Chain) (blk : Block) : Chain :=
  { c with kv := saveBlock H c.kv blk, batchWrites := c.batchWrites + 1 }

/-- **What a call of `AddBlock` can come to.** It returns without an error
exactly if it has written, and a block that is preferred to the best one takes
its place in memory even if it is not written. -/
inductive AddBlockCase (c : Chain) (blk : Block) (escortQC : Option QuorumCert) :
    Except Err Fork → Chain → Prop
  /-- A check fails. -/
  | refused (e : Err) (unreached : ¬ c.ReachesWrite H blk) :
      AddBlockCase c blk escortQC (.error e) c
  /-- The block is written as the best one. -/
  | extended (fork : Fork) (qc : QuorumCert) (reached : c.ReachesWrite H blk)
      (trunk : c.isTrunk H blk.header = true) (qc_eq : escortQC = some qc)
      (written : c.writeOK c.batchWrites = true) :
      AddBlockCase c blk escortQC (.ok fork) (c.withBest H blk qc)
  /-- The block becomes the best one and is not written. -/
  | unwritten (e : Err) (qc : QuorumCert) (n : ℕ) (reached : c.ReachesWrite H blk)
      (trunk : c.isTrunk H blk.header = true)
      (failed : ¬ (escortQC.isSome = true ∧ c.writeOK c.batchWrites = true)) :
      AddBlockCase c blk escortQC (.error e)
        { c with bestBlock := blk, bestQC := qc, batchWrites := n }
  /-- The block is written beside the trunk. -/
  | branched (fork : Fork) (reached : c.ReachesWrite H blk)
      (trunk : c.isTrunk H blk.header = false) (written : c.writeOK c.batchWrites = true) :
      AddBlockCase c blk escortQC (.ok fork) (c.withBranch H blk)
  /-- The block is beside the trunk and is not written. -/
  | lost (e : Err) (n : ℕ) (reached : c.ReachesWrite H blk)
      (trunk : c.isTrunk H blk.header = false) (failed : c.writeOK c.batchWrites = false) :
      AddBlockCase c blk escortQC (.error e) { c with batchWrites := n }

variable {H}

theorem addBlock_cases {c c' : Chain} {blk : Block} {qc : Option QuorumCert}
    {result : Except Err Fork} (h : c.addBlock H blk qc = .ok (result, c')) :
    AddBlockCase H c blk qc result c' := by
  unfold addBlock at h
  by_cases hexists : c.blockExists H blk = true
  · rw [if_pos hexists] at h
    obtain ⟨rfl, rfl⟩ := Prod.mk.inj (Except.ok.inj h)
    refine .refused _ fun hreach => ?_
    rw [hreach.1] at hexists
    exact nomatch hexists
  rw [if_neg hexists] at h
  cases hparent : c.getBlockHeader blk.parentID with
  | none =>
    rw [hparent] at h
    obtain ⟨rfl, rfl⟩ := Prod.mk.inj (Except.ok.inj h)
    refine .refused _ fun hreach => ?_
    have hsome := hreach.2.1
    rw [hparent] at hsome
    exact nomatch hsome
  | some parent =>
    rw [hparent] at h
    dsimp only at h
    have hreach : (c.isTrunk H blk.header = true →
        ∃ fork, c.buildFork H blk.header c.bestBlock.header = .ok (.ok fork)) →
        c.ReachesWrite H blk := fun hfork =>
      ⟨Bool.eq_false_iff.mpr hexists, by rw [hparent]; rfl, hfork⟩
    cases htrunk : c.isTrunk H blk.header with
    | false =>
      have hreach := hreach fun htrue => absurd (htrunk.symm.trans htrue) Bool.false_ne_true
      rw [htrunk, if_neg (by simp)] at h
      unfold writeBatch at h
      cases hok : c.writeOK c.batchWrites with
      | true =>
        rw [hok, if_pos rfl] at h
        obtain ⟨rfl, rfl⟩ := Prod.mk.inj (Except.ok.inj h)
        exact .branched _ hreach htrunk hok
      | false =>
        rw [hok, if_neg (by simp)] at h
        obtain ⟨rfl, rfl⟩ := Prod.mk.inj (Except.ok.inj h)
        exact .lost _ _ hreach htrunk hok
    | true =>
      rw [htrunk, if_pos rfl] at h
      cases hfork : c.buildFork H blk.header c.bestBlock.header with
      | error fault => rw [hfork] at h; exact nomatch h
      | ok r =>
        rw [hfork] at h
        cases r with
        | error e =>
          obtain ⟨rfl, rfl⟩ := Prod.mk.inj (Except.ok.inj h)
          refine .refused _ fun hwrites => ?_
          obtain ⟨fork, hfork'⟩ := hwrites.2.2 htrunk
          rw [hfork] at hfork'
          exact nomatch hfork'
        | ok fork =>
          have hreach := hreach fun _ => ⟨fork, hfork⟩
          cases qc with
          | none =>
            obtain ⟨rfl, rfl⟩ := Prod.mk.inj (Except.ok.inj h)
            exact .unwritten _ c.bestQC c.batchWrites hreach htrunk fun hqc =>
              Bool.false_ne_true hqc.1
          | some qc =>
            simp only [writeBatch] at h
            cases hok : c.writeOK c.batchWrites with
            | true =>
              rw [hok, if_pos rfl] at h
              obtain ⟨rfl, rfl⟩ := Prod.mk.inj (Except.ok.inj h)
              exact .extended _ qc hreach htrunk rfl hok
            | false =>
              rw [hok, if_neg (by simp)] at h
              obtain ⟨rfl, rfl⟩ := Prod.mk.inj (Except.ok.inj h)
              refine .unwritten _ qc _ hreach htrunk fun hqc => ?_
              exact Bool.false_ne_true (hok.symm.trans hqc.2)

/-- What `AddBlock` can have done by the time it returns: the block may be
in the store, it may be the best one, and only a stored block is reported as
added. -/
structure AddBlockSpec (H : Hashes) (c : Chain) (blk : Block) (result : Except Err Fork)
    (c' : Chain) : Prop where
  proposals_eq : c'.proposals = c.proposals
  committedRefs_eq : c'.committedRefs = c.committedRefs
  kv_cases : c'.kv = c.kv
    ∨ (c.kv.blocks blk.parentID).isSome ∧ c'.kv.validators = c.kv.validators
      ∧ c'.kv.blocks = Function.update c.kv.blocks (blk.id H) (some blk)
  best_cases : c'.bestBlock = c.bestBlock ∨ c'.bestBlock = blk
  stored : ∀ fork, result = .ok fork → c'.kv.blocks (blk.id H) = some blk

theorem addBlock_spec {c c' : Chain} {blk : Block} {qc : Option QuorumCert}
    {result : Except Err Fork} (h : c.addBlock H blk qc = .ok (result, c')) :
    AddBlockSpec H c blk result c' := by
  have hparent : c.ReachesWrite H blk → (c.kv.blocks blk.parentID).isSome := fun hreach => by
    have hheader := hreach.2.1
    rwa [getBlockHeader, Option.isSome_map] at hheader
  cases addBlock_cases h with
  | refused e unreached => exact ⟨rfl, rfl, .inl rfl, .inl rfl, fun _ h => nomatch h⟩
  | extended fork qc reached =>
    exact ⟨rfl, rfl, .inr ⟨hparent reached, rfl, rfl⟩, .inr rfl,
      fun _ _ => Function.update_self ..⟩
  | unwritten e qc n => exact ⟨rfl, rfl, .inl rfl, .inr rfl, fun _ h => nomatch h⟩
  | branched fork reached =>
    exact ⟨rfl, rfl, .inr ⟨hparent reached, rfl, rfl⟩, .inl rfl,
      fun _ _ => Function.update_self ..⟩
  | lost e n => exact ⟨rfl, rfl, .inl rfl, .inl rfl, fun _ h => nomatch h⟩

variable (H)

/-! ## The draft map -/

/-- Whether the `Committed` flag of a draft is up. -/
def isCommitted (c : Chain) (d : DraftInfo) : Bool := d.committed || c.committedRefs.contains d.ref

/-- `ProposalMap.Add`. -/
def addDraft (c : Chain) (d : DraftBlock) : Chain :=
  { c with proposals := Function.update c.proposals (d.proposedBlock.id H) (some d) }

/-- `ProposalMap.Has`. -/
def hasDraft (c : Chain) (id : Bytes32) : Bool := (c.proposals id).isSome

/-- `ProposalMap.Get`. -/
def getDraft (c : Chain) (id : Bytes32) : Option DraftBlock :=
  match c.proposals id with
  | some d => some d
  | none => (c.getBlock id).map (fun blk => .stored c.nextRef blk blk.number (blk.qc.round + 1))

/-- `ProposalMap.GetOneByEscortQC`. The map is scanned for a draft with the
certificate's block and round; drafts are kept under their block's
identifier, so the scan can stop at one entry. -/
def getDraftByEscortQC (c : Chain) (qc : QuorumCert) : Option DraftBlock :=
  match (c.proposals qc.blockID).filter (fun d => d.round == qc.round) with
  | some d => some d
  | none => (c.getBlock qc.blockID).map (fun blk => .stored c.nextRef blk qc.number qc.round)

/-- Whether `PruneUpTo` keeps a draft: one above the committed height, or
the committed one itself. -/
def survivesPrune (lastCommitted d : DraftBlock) : Bool :=
  !(decide (d.proposedBlock.number < lastCommitted.height)
    || d.proposedBlock.number == lastCommitted.height
      && d.proposedBlock.id H != lastCommitted.proposedBlock.id H)

/-- The draft `PruneUpTo` raises the `Committed` flag of. -/
def prunedCommitted (c : Chain) (lastCommitted : DraftBlock) : List Ref :=
  match c.proposals (lastCommitted.proposedBlock.id H) with
  | some d => if d.proposedBlock.number = lastCommitted.height then [d.ref] else []
  | none => []

/-- `Chain.PruneDraftsUpTo`. -/
def pruneDraftsUpTo (c : Chain) (lastCommitted : DraftBlock) : Chain :=
  { c with
    proposals := fun id => (c.proposals id).filter (survivesPrune H lastCommitted)
    committedRefs := c.prunedCommitted H lastCommitted ++ c.committedRefs }

/-- The loop of `GetProposalsUpTo`: at most four drafts back from the head,
until a committed one or the requested one. -/
def proposalsUpTo (c : Chain) (committedBlkID : Bytes32) :
    ℕ → List DraftInfo → List DraftInfo → List DraftInfo
  | 0, _, result => result
  | _, [], result => result
  | i + 1, head :: rest, result =>
    if c.isCommitted head then result
    else if committedBlkID = head.proposedBlock.id H then result
    else proposalsUpTo c committedBlkID i rest (head :: result)

/-- `ProposalMap.GetProposalsUpTo`. -/
def getDraftsUpTo (c : Chain) (committedBlkID : Bytes32) (qcHigh : QuorumCert) : List DraftInfo :=
  match c.getDraft committedBlkID, c.getDraftByEscortQC qcHigh with
  | some committed, some head =>
    c.proposalsUpTo H (committed.proposedBlock.id H) 4 head.chain []
  | _, _ => []

end Chain

/-! ## Commit information -/

/-- `abci.VoteInfo`: who took part, and with which power. -/
structure VoteInfo where
  address : Bytes
  power : ℤ
deriving DecidableEq, Repr

/-- `abci.CommitInfo`. -/
structure CommitInfo where
  round : ℤ
  votes : List VoteInfo
deriving DecidableEq, Repr

/-- The loop of `BuildLastCommitInfo`: the validators whose bit is set, from
index `i` on. -/
def commitVotes (bA : BitArray) : ℕ → List Validator → Except Panic (List VoteInfo)
  | _, [] => .ok []
  | i, v :: vs => do
    let set ← bA.getIndex i
    let rest ← commitVotes bA (i + 1) vs
    return if set then ⟨v.address, v.votingPower⟩ :: rest else rest

/-- `Chain.BuildLastCommitInfo`. A certificate whose bit array has another
size than the validator set is a fault, not an error. -/
def Chain.buildLastCommitInfo (c : Chain) (parent blk : Block) : Except Panic CommitInfo :=
  let vset := c.getValidatorsByHash
    (if blk.number = 0 then parent.header.nextValidatorsHash else parent.header.validatorsHash)
  match vset with
  | none =>
    if parent.number = 0 then .ok ⟨(Int32.ofNat blk.qc.round.toNat).toInt, []⟩
    else .error (.explicit "validator set is empty")
  | some vset =>
    if vset.size ≠ blk.qc.bitArray.size then
      .error (.explicit "committee size doesn't match with votes size")
    else do
      return ⟨(Int32.ofNat blk.qc.round.toNat).toInt,
        ← commitVotes blk.qc.bitArray 0 vset.validators⟩

end LoragonBFT
