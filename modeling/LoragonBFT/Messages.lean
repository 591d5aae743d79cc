import LoragonBFT.Block

/-!
# Consensus messages

Four messages travel on the consensus topic: a proposal, a vote, a timeout
and a query. Each is signed over the hash of its fields. The proposal's
signer is named inside the block it carries, and the round it is proposed
in stands in the message and not in the block, so one block may be proposed
in several rounds.

`time.Time` has no exported field, so RLP encodes it as an empty list: the
timestamp of a message is not covered by its hash.
-/

namespace LoragonBFT

/-- `types.TimeoutCert`. -/
structure TimeoutCert where
  epoch : UInt64
  round : UInt32
  bitArray : Option BitArray
  msgHash : Bytes32
  aggSig : Bytes
deriving DecidableEq, Repr

/-- `TimeoutCert.EncodeRLP`. -/
def TimeoutCert.item (tc : TimeoutCert) : Rlp.Item :=
  .list [.uint tc.epoch.toNat, .uint tc.round.toNat,
    .str ((tc.bitArray.map BitArray.marshalJSON).getD []), .str (Bytes32.bytes tc.msgHash),
    .str tc.aggSig]

/-- `BlockDecodeFromBytes`. -/
def blockDecodeFromBytes (raw : Bytes) : Option Block := (Rlp.decode raw).bind Block.ofItem

/-- `QCDecodeFromBytes`. -/
def qcDecodeFromBytes (raw : Bytes) : Option QuorumCert := (Rlp.decode raw).bind QuorumCert.ofItem

/-- What `time.Time` contributes to a message's hash. -/
def timeItem (_ : Time) : Rlp.Item := .list []

/-- `block.PMProposalMessage`. The decoded block is cached next to the bytes
it was decoded from. -/
structure PMProposalMessage where
  timestamp : Time
  epoch : UInt64
  round : UInt32
  rawBlock : Bytes
  timeoutCert : Option TimeoutCert
  msgSignature : Bytes
  /-- What `DecodeBlock` returns; nil when the bytes do not decode. -/
  decodedBlock : Option Block
  /-- The cache holds what the bytes decode to. -/
  decoded : decodedBlock = blockDecodeFromBytes rawBlock

/-- `block.PMVoteMessage`. -/
structure PMVoteMessage where
  timestamp : Time
  epoch : UInt64
  signerIndex : UInt32
  voteRound : UInt32
  voteBlockID : Bytes32
  voteSignature : Bytes
  msgSignature : Bytes
deriving DecidableEq, Repr

/-- `block.PMTimeoutMessage`. -/
structure PMTimeoutMessage where
  timestamp : Time
  epoch : UInt64
  signerIndex : UInt32
  wishRound : UInt32
  /-- The sender's highest certificate, encoded. -/
  qcHigh : Bytes
  wishVoteHash : Bytes32
  wishVoteSig : Bytes
  lastVoteRound : UInt32
  lastVoteBlockID : Bytes32
  lastVoteSignature : Bytes
  msgSignature : Bytes
  /-- What `DecodeQCHigh` returns; nil when the bytes do not decode. -/
  decodedQCHigh : Option QuorumCert
  /-- The cache holds what the bytes decode to. -/
  decoded : decodedQCHigh = qcDecodeFromBytes qcHigh

/-- `block.PMQueryMessage`. -/
structure PMQueryMessage where
  timestamp : Time
  epoch : UInt64
  signerIndex : UInt32
  lastCommitted : Bytes32
  msgSignature : Bytes
deriving DecidableEq, Repr

/-- `block.ConsensusMessage`. -/
inductive ConsensusMessage where
  | proposal (m : PMProposalMessage)
  | vote (m : PMVoteMessage)
  | timeout (m : PMTimeoutMessage)
  | query (m : PMQueryMessage)

namespace ConsensusMessage

/-- `GetEpoch`. -/
def getEpoch : ConsensusMessage → UInt64
  | proposal m => m.epoch
  | vote m => m.epoch
  | timeout m => m.epoch
  | query m => m.epoch

/-- `GetSignerIndex`. A proposal is signed by the proposer its block names,
and an undecodable block has none. -/
def getSignerIndex : ConsensusMessage → Except Panic UInt32
  | proposal m => do return (← deref m.decodedBlock).header.proposerIndex
  | vote m => .ok m.signerIndex
  | timeout m => .ok m.signerIndex
  | query m => .ok m.signerIndex

/-- What `GetMsgHash` hashes: every field but the signature, the timestamp
contributing nothing. -/
def hashItem : ConsensusMessage → Rlp.Item
  | proposal m =>
    .list ([timeItem m.timestamp, .uint m.epoch.toNat, .uint m.round.toNat, .str m.rawBlock]
      ++ (m.timeoutCert.map TimeoutCert.item).toList)
  | vote m =>
    .list [timeItem m.timestamp, .uint m.epoch.toNat, .uint m.signerIndex.toNat,
      .uint m.voteRound.toNat, .str (Bytes32.bytes m.voteBlockID), .str m.voteSignature]
  | timeout m =>
    .list [timeItem m.timestamp, .uint m.epoch.toNat, .uint m.signerIndex.toNat,
      .uint m.wishRound.toNat, .str m.qcHigh, .str (Bytes32.bytes m.wishVoteHash),
      .str m.wishVoteSig, .uint m.lastVoteRound.toNat, .str (Bytes32.bytes m.lastVoteBlockID),
      .str m.lastVoteSignature]
  | query m =>
    .list [timeItem m.timestamp, .uint m.epoch.toNat, .uint m.signerIndex.toNat,
      .str (Bytes32.bytes m.lastCommitted)]

/-- `GetMsgHash`. -/
def getMsgHash (H : Hashes) (m : ConsensusMessage) : Bytes32 := H.blake2bRlp m.hashItem

/-- The signature over the message itself. -/
def msgSignature : ConsensusMessage → Bytes
  | proposal m => m.msgSignature
  | vote m => m.msgSignature
  | timeout m => m.msgSignature
  | query m => m.msgSignature

/-- `VerifyMsgSignature`. -/
def verifyMsgSignature (H : Hashes) (B : Bls) (m : ConsensusMessage) (cmtPubKey : PubKey) : Bool :=
  B.validPublicKey cmtPubKey.bytes && B.validSignature m.msgSignature
    && B.verify cmtPubKey.bytes (m.getMsgHash H) m.msgSignature

/-- The faults of `String`, which every log line of a message goes through:
a proposal prints its block and counts the bits of its timeout
certificate. -/
def string : ConsensusMessage → Except Panic Unit
  | proposal m => do
    let _ ← deref m.decodedBlock
    match m.timeoutCert with
    | none => return ()
    | some tc =>
      let _ ← (← deref tc.bitArray).count
      return ()
  | vote _ => .ok ()
  | timeout _ => .ok ()
  | query _ => .ok ()

/-- Every signature a message carries, its own included: what a sender must
have obtained from somewhere to send it. -/
def signatures : ConsensusMessage → List Bytes
  | proposal m => m.msgSignature :: ((m.decodedBlock.map (fun b => b.qc.aggSig)).toList
      ++ (m.timeoutCert.map TimeoutCert.aggSig).toList)
  | vote m => [m.msgSignature, m.voteSignature]
  | timeout m => [m.msgSignature, m.wishVoteSig, m.lastVoteSignature]
      ++ (m.decodedQCHigh.map QuorumCert.aggSig).toList
  | query m => [m.msgSignature]

end ConsensusMessage

/-- `BuildTimeoutVotingHash`. -/
def buildTimeoutVotingHash (H : Hashes) (epoch : UInt64) (round : UInt32) : Bytes32 :=
  H.sha256 (s!"Timeout: Epoch:{epoch} Round:{round}").toUTF8.toList

end LoragonBFT
