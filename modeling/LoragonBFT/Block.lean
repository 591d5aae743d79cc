import LoragonBFT.BitArray

/-!
# Blocks and quorum certificates

A block is a header, a list of transactions and the quorum certificate of
its parent. The header commits to the other two through `TxsRoot` and
`QCHash`, and the block's identifier is a digest of the header alone: two
blocks with one header have one identifier whatever bodies they carry. The
application hash is written into the header after execution and is not part
of the identifier.

Hashing, the BLS scheme and CometBFT's validator sets are libraries the
repository calls. They are parameters: `Hashes`, `Bls`, and the order and
hash of a validator set.
-/

namespace LoragonBFT

/-- The hash functions the repository calls. RLP is injective on the values
it is given, so hashing an encoding is hashing the item encoded. -/
structure Hashes where
  /-- `blake2b.Sum256` of the RLP encoding of a value. -/
  blake2bRlp : Rlp.Item → Bytes32
  /-- `blake2b.Sum256`. -/
  blake2b : Bytes → Bytes32
  /-- `sha256.Sum256` of the RLP encoding of a value. -/
  sha256Rlp : Rlp.Item → Bytes32
  /-- `sha256.Sum256`. -/
  sha256 : Bytes → Bytes32
  /-- `merkle.HashFromByteSlices`. -/
  merkleRoot : List Bytes → Bytes

/-- The BLS scheme. Keys and signatures are the byte strings the repository
passes around. -/
structure Bls where
  /-- Whether `bls.SignatureFromBytes` succeeds. -/
  validSignature : Bytes → Bool
  /-- Whether `PublicKeyFromBytes` succeeds. -/
  validPublicKey : Bytes → Bool
  /-- `Signature.Verify`: a key, a message, a signature. -/
  verify : Bytes → Bytes32 → Bytes → Bool
  /-- `Signature.FastAggregateVerify`: one message, many keys. -/
  fastAggregateVerify : List Bytes → Bytes32 → Bytes → Bool
  /-- `bls.AggregateSignatures`. -/
  aggregateSignatures : List Bytes → Bytes
  /-- The signature the holder of a key makes on a message. -/
  sign : Bytes → Bytes32 → Bytes

/-! ## Validator sets -/

/-- The kinds of public key CometBFT knows. -/
inductive KeyType where
  | ed25519
  | secp256k1
  | bls12381
deriving DecidableEq, Repr

/-- A CometBFT public key. -/
structure PubKey where
  /-- `PubKey.Type`. -/
  type : KeyType
  /-- `PubKey.Bytes`. -/
  bytes : Bytes
deriving DecidableEq, Repr

/-- `cmttypes.Validator`. -/
structure Validator where
  address : Bytes
  pubKey : PubKey
  votingPower : ℤ
deriving DecidableEq, Repr

/-- `cmttypes.ValidatorSet`. -/
structure ValidatorSet where
  validators : List Validator
deriving DecidableEq, Repr

namespace ValidatorSet

/-- `ValidatorSet.Size`. -/
def size (vals : ValidatorSet) : ℕ := vals.validators.length

/-- `ValidatorSet.GetByIndex`: nil outside the set. -/
def getByIndex (vals : ValidatorSet) (index : ℤ) : Option Validator :=
  if index < 0 then none else vals.validators[index.toNat]?

end ValidatorSet

/-! ## Certificates -/

/-- `block.QuorumCert`. -/
structure QuorumCert where
  epoch : UInt64
  round : UInt32
  blockID : Bytes32
  aggSig : Bytes
  bitArray : BitArray
deriving DecidableEq, Repr

namespace QuorumCert

/-- `QuorumCert.Number`. -/
def number (qc : QuorumCert) : UInt32 := LoragonBFT.number qc.blockID

/-- `QuorumCert.EncodeRLP`. -/
def item (qc : QuorumCert) : Rlp.Item :=
  .list [.uint qc.epoch.toNat, .uint qc.round.toNat, .str (Bytes32.bytes qc.blockID),
    .str qc.aggSig, qc.bitArray.item]

/-- `QuorumCert.Hash`. -/
def hash (H : Hashes) (qc : QuorumCert) : Bytes := Bytes32.bytes (H.sha256Rlp qc.item)

/-- `QuorumCert.DecodeRLP`. -/
def ofItem : Rlp.Item → Option QuorumCert
  | .list [epoch, round, blockID, aggSig, bitArray] => do
    let epoch ← epoch.uint? 8
    let round ← round.uint? 4
    let blockID ← blockID.array? 32
    let aggSig ← aggSig.bytes?
    let bitArray ← BitArray.ofItem bitArray
    return { epoch := UInt64.ofNat epoch, round := UInt32.ofNat round,
             blockID := BitVec.ofNat 256 (Rlp.beValue blockID), aggSig, bitArray }
  | _ => none

end QuorumCert

/-! ## Headers -/

/-- `block.Header`. -/
structure Header where
  parentID : Bytes32
  timestamp : UInt64
  proposerIndex : UInt32
  txsRoot : Bytes
  lastKBlock : UInt32
  nonce : UInt64
  qcHash : Bytes
  validatorsHash : Bytes
  nextValidatorsHash : Bytes
  appHash : Bytes
deriving DecidableEq, Repr

namespace Header

/-- `Header.Number`: one more than the number in the parent's identifier. -/
def number (h : Header) : UInt32 :=
  if h.parentID = 0 then 0 else LoragonBFT.number h.parentID + 1

/-- What `Header.SigningHash` encodes: every field but the proposer index
and the application hash. -/
def signingItem (h : Header) : Rlp.Item :=
  .list [.str (Bytes32.bytes h.parentID), .uint h.timestamp.toNat, .str h.txsRoot,
    .uint h.lastKBlock.toNat, .uint h.nonce.toNat, .str h.qcHash, .str h.validatorsHash,
    .str h.nextValidatorsHash]

/-- `Header.SigningHash`. -/
def signingHash (H : Hashes) (h : Header) : Bytes32 := H.blake2bRlp h.signingItem

/-- The bytes `Header.ID` hashes: the signing hash, then the proposer
index. -/
def idPreimage (H : Hashes) (h : Header) : Bytes :=
  Bytes32.bytes (h.signingHash H) ++ Rlp.beBytes 4 h.proposerIndex.toNat

/-- `Header.ID`. -/
def id (H : Hashes) (h : Header) : Bytes32 := putNumber h.number (H.blake2b (h.idPreimage H))

@[simp] theorem number_id (H : Hashes) (h : Header) : LoragonBFT.number (h.id H) = h.number :=
  number_putNumber _ _

/-- The header as RLP encodes it: its exported fields in order. -/
def item (h : Header) : Rlp.Item :=
  .list [.str (Bytes32.bytes h.parentID), .uint h.timestamp.toNat, .uint h.proposerIndex.toNat,
    .str h.txsRoot, .uint h.lastKBlock.toNat, .uint h.nonce.toNat, .str h.qcHash,
    .str h.validatorsHash, .str h.nextValidatorsHash, .str h.appHash]

/-- The header RLP decodes. -/
def ofItem : Rlp.Item → Option Header
  | .list [parentID, timestamp, proposerIndex, txsRoot, lastKBlock, nonce, qcHash,
      validatorsHash, nextValidatorsHash, appHash] => do
    let parentID ← parentID.array? 32
    let timestamp ← timestamp.uint? 8
    let proposerIndex ← proposerIndex.uint? 4
    let txsRoot ← txsRoot.bytes?
    let lastKBlock ← lastKBlock.uint? 4
    let nonce ← nonce.uint? 8
    let qcHash ← qcHash.bytes?
    let validatorsHash ← validatorsHash.bytes?
    let nextValidatorsHash ← nextValidatorsHash.bytes?
    let appHash ← appHash.bytes?
    return { parentID := BitVec.ofNat 256 (Rlp.beValue parentID),
             timestamp := UInt64.ofNat timestamp, proposerIndex := UInt32.ofNat proposerIndex,
             txsRoot, lastKBlock := UInt32.ofNat lastKBlock, nonce := UInt64.ofNat nonce,
             qcHash, validatorsHash, nextValidatorsHash, appHash }
  | _ => none

end Header

/-! ## Blocks -/

/-- `block.Block`. -/
structure Block where
  header : Header
  txs : List Bytes
  qc : QuorumCert
deriving DecidableEq, Repr

/-- The threshold of `MajorityTwoThird`. `math.Ceil(float64(n) * 2 / 3)` is
exact: a `uint32` doubled is a `float64`, and the quotient is off by less
than the third that separates it from the next integer. -/
def twoThirds (committeeSize : UInt32) : ℕ := (committeeSize.toNat * 2 + 2) / 3

/-- `block.MajorityTwoThird`. -/
def majorityTwoThird (voterNum committeeSize : UInt32) : Bool :=
  if committeeSize < 1 then false else decide (twoThirds committeeSize ≤ voterNum.toNat)

/-- **The threshold is two thirds, rounded up.** -/
theorem majorityTwoThird_iff {voterNum committeeSize : UInt32} :
    majorityTwoThird voterNum committeeSize = true
      ↔ 0 < committeeSize.toNat ∧ 2 * committeeSize.toNat ≤ 3 * voterNum.toNat := by
  have hlt : committeeSize < 1 ↔ committeeSize.toNat = 0 := by
    rw [UInt32.lt_iff_toNat_lt]
    simp
  unfold majorityTwoThird twoThirds
  split
  · rename_i h
    rw [hlt] at h
    simp [h]
  · rename_i h
    rw [hlt] at h
    rw [decide_eq_true_iff]
    omega

namespace Block

/-- `Block.ID`. -/
def id (H : Hashes) (b : Block) : Bytes32 := b.header.id H

/-- `Block.ParentID`. -/
def parentID (b : Block) : Bytes32 := b.header.parentID

/-- `Block.Number`. -/
def number (b : Block) : UInt32 := b.header.number

@[simp] theorem number_id (H : Hashes) (b : Block) : LoragonBFT.number (b.id H) = b.number :=
  Header.number_id H b.header

/-- `Block.IsKBlock`: the block after which another committee takes over. -/
def isKBlock (b : Block) : Bool := b.header.validatorsHash != b.header.nextValidatorsHash

/-- `Block.Epoch`. -/
def epoch (b : Block) : UInt64 := b.qc.epoch

/-- `Transactions.RootHash`. -/
def rootHash (H : Hashes) (txs : List Bytes) : Bytes := H.merkleRoot txs

/-- `Block.EncodeRLP`. -/
def item (b : Block) : Rlp.Item :=
  .list [b.header.item, .list (b.txs.map .str), b.qc.item]

/-- `Block.DecodeRLP`, which `BlockDecodeFromBytes` calls. The header and
the body are decoded side by side: neither `TxsRoot` nor `QCHash` is
compared with what was decoded. -/
def ofItem : Rlp.Item → Option Block
  | .list [header, txs, qc] => do
    let header ← Header.ofItem header
    let txs ← (← txs.list?).mapM Rlp.Item.bytes?
    let qc ← QuorumCert.ofItem qc
    return { header, txs, qc }
  | _ => none

end Block

/-- `block.Builder`: the fields a proposer sets. -/
structure Builder where
  parentID : Bytes32
  timestamp : UInt64
  nonce : UInt64
  validatorsHash : Bytes
  nextValidatorsHash : Bytes
  proposerIndex : UInt32
  lastKBlock : UInt32
  qc : QuorumCert
  txs : List Bytes

/-- `Builder.Build`: the two commitments are computed from the body. -/
def Builder.build (H : Hashes) (b : Builder) : Block where
  header := { parentID := b.parentID, timestamp := b.timestamp, proposerIndex := b.proposerIndex,
              txsRoot := Block.rootHash H b.txs, lastKBlock := b.lastKBlock, nonce := b.nonce,
              qcHash := b.qc.hash H, validatorsHash := b.validatorsHash,
              nextValidatorsHash := b.nextValidatorsHash, appHash := [] }
  txs := b.txs
  qc := b.qc

/-- `GenesisEscortQC`. -/
def genesisEscortQC (H : Hashes) (b : Block) (vsetCount : ℕ) : QuorumCert :=
  { epoch := 0, round := 0, blockID := b.id H, aggSig := [], bitArray := .new vsetCount }

/-! ## Verifying a certificate -/

/-- The errors `VerifyQC` returns next to its verdict. -/
inductive VerifyQCError where
  /-- Too few bits are set. -/
  | notEnoughVotes (voteCount : ℕ) (committeeSize : UInt32)
  /-- The aggregate signature does not parse. -/
  | invalidAggregateSignature
deriving DecidableEq, Repr

/-- The keys `VerifyQC` collects: those of the committee members, from
index `index` on, whose bit is set. -/
def signerKeys (B : Bls) (bA : BitArray) : ℕ → List Validator → Except Panic (List Bytes)
  | _, [] => .ok []
  | index, v :: vs => do
    if v.pubKey.type = KeyType.bls12381 then
      if ← bA.getIndex index then
        if B.validPublicKey v.pubKey.bytes then
          return v.pubKey.bytes :: (← signerKeys B bA (index + 1) vs)
        else throw (.explicit "unsupported pubkey type")
      else signerKeys B bA (index + 1) vs
    else signerKeys B bA (index + 1) vs

/-- `Block.VerifyQC`. The count is taken over the certificate's own bits and
the keys over the committee; past the first two blocks the certificate's
`BlockID` is what is verified, and the block itself is not consulted. -/
def Block.verifyQC (H : Hashes) (B : Bls) (b : Block) (escortQC : QuorumCert)
    (committee : ValidatorSet) : Except Panic (Bool × Option VerifyQCError) := do
  let committeeSize := UInt32.ofNat committee.size
  -- genesis/first block does not have qc
  if b.id H = escortQC.blockID ∧ (b.number = 0 ∨ b.number = 1) then
    return (true, none)
  let voteCount ← escortQC.bitArray.count
  if !majorityTwoThird (UInt32.ofNat voteCount) committeeSize then
    return (false, some (.notEnoughVotes voteCount committeeSize))
  let pubkeys ← signerKeys B escortQC.bitArray 0 committee.validators
  if !B.validSignature escortQC.aggSig then
    return (false, some .invalidAggregateSignature)
  return (B.fastAggregateVerify pubkeys escortQC.blockID escortQC.aggSig, none)

/-- **When `VerifyQC` returns true**: for the first two blocks if the
certificate names the block, and else if enough bits are set and the
signature verifies under the keys collected. -/
theorem Block.verifyQC_eq_true_iff {H : Hashes} {B : Bls} {b : Block} {qc : QuorumCert}
    {committee : ValidatorSet} :
    b.verifyQC H B qc committee = .ok (true, none)
      ↔ b.id H = qc.blockID ∧ (b.number = 0 ∨ b.number = 1)
        ∨ ∃ voteCount pubkeys, qc.bitArray.count = .ok voteCount
          ∧ majorityTwoThird (UInt32.ofNat voteCount) (UInt32.ofNat committee.size) = true
          ∧ signerKeys B qc.bitArray 0 committee.validators = .ok pubkeys
          ∧ B.validSignature qc.aggSig = true
          ∧ B.fastAggregateVerify pubkeys qc.blockID qc.aggSig = true := by
  unfold verifyQC
  by_cases hfirst : b.id H = qc.blockID ∧ (b.number = 0 ∨ b.number = 1)
  · rw [if_pos hfirst]
    exact ⟨fun _ => .inl hfirst, fun _ => rfl⟩
  rw [if_neg hfirst]
  cases hcount : qc.bitArray.count with
  | error e => simp [bind, Except.bind, hfirst]
  | ok c =>
    cases hmajority : majorityTwoThird (UInt32.ofNat c) (UInt32.ofNat committee.size) with
    | false => simp [bind, Except.bind, pure, Except.pure, hmajority, hfirst]
    | true =>
      cases hkeys : signerKeys B qc.bitArray 0 committee.validators with
      | error e => simp [bind, Except.bind, hmajority, hfirst]
      | ok keys =>
        cases hsig : B.validSignature qc.aggSig <;>
          simp [bind, Except.bind, pure, Except.pure, hmajority, hfirst]

end LoragonBFT
