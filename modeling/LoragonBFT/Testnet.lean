import LoragonBFT.Pacemaker.Refinement

/-!
# A network that can be computed

The libraries the consensus code calls are parameters of the model. Here they
are given values one can compute with: a signature spells out what was signed
and by which keys, a digest is the byte string it is taken of, read as a
number modulo a prime. Signatures of this kind cannot be forged by
construction – a signature under a key is a string that ends in that key –
and digests do not collide on the few values the runs below deal with.

On top of these stands a committee of four whose application accepts
everything, with a genesis block, and the blocks, certificates and proposals
that the first validator can make.
-/

namespace LoragonBFT

namespace Testnet

/-! ## Digests and signatures -/

/-- The digest of a byte string: the number it spells, modulo a prime just
below `2 ^ 192`. -/
def digest (bs : Bytes) : ℕ := Rlp.beValue bs % (2 ^ 192 - 237)

/-- Digests in place of hashes. -/
def hashes : Hashes where
  blake2bRlp i := BitVec.ofNat 256 (digest i.encode)
  blake2b bs := BitVec.ofNat 256 (digest bs)
  sha256Rlp i := BitVec.ofNat 256 (digest i.encode)
  sha256 bs := BitVec.ofNat 256 (digest bs)
  merkleRoot txs := Rlp.beBytes 32 (digest (Rlp.Item.list (txs.map .str)).encode)

/-- Signatures that spell out the message and the keys. -/
def bls : Bls where
  validSignature _ := true
  validPublicKey _ := true
  verify key msg sig := sig == Bytes32.bytes msg ++ key
  fastAggregateVerify keys msg sig := !keys.isEmpty && sig == Bytes32.bytes msg ++ keys.flatten
  aggregateSignatures sigs := (sigs.headD []).take 32 ++ (sigs.map (·.drop 32)).flatten
  sign key msg := Bytes32.bytes msg ++ key

theorem length_bytes (msg : Bytes32) : (Bytes32.bytes msg).length = 32 := Rlp.length_beBytes _ _

/-- **The scheme aggregates genuine signatures**: what verifies under a list
of keys is the aggregate of what their holders sign. -/
theorem eq_aggregate_of_fastAggregateVerify {keys : List Bytes} {msg : Bytes32} {sig : Bytes}
    (h : bls.fastAggregateVerify keys msg sig = true) :
    sig = bls.aggregateSignatures (keys.map (fun key => bls.sign key msg)) := by
  cases keys with
  | nil => exact nomatch h
  | cons key keys =>
    have hsig : sig = Bytes32.bytes msg ++ (key :: keys).flatten := by simpa [bls] using h
    have hdrop : ∀ k : Bytes, (Bytes32.bytes msg ++ k).drop 32 = k := fun k =>
      List.drop_left' (length_bytes msg)
    have htake : (Bytes32.bytes msg ++ key).take 32 = Bytes32.bytes msg :=
      List.take_left' (length_bytes msg)
    rw [hsig]
    simp [bls, hdrop, htake, Function.comp_def]

/-- The libraries of the test network. -/
def env : Env where
  H := hashes
  B := bls
  newValidatorSet vals := some ⟨vals⟩
  validatorSetHash vset := (vset.validators.map (fun v => v.pubKey.bytes)).flatten
  keccak256 bs := Rlp.beBytes 32 (digest bs)
  maxDataBytes _ := 0

/-! ## The network -/

/-- The committee: four validators, each with its number for a key. -/
def committee : ValidatorSet :=
  ⟨[0, 1, 2, 3].map (fun k => ⟨[k], ⟨.bls12381, [k]⟩, 1⟩)⟩

/-- An application that accepts everything. -/
def app : App where
  prepareProposal _ req := some req.txs
  processProposal _ _ := some .accept
  finalizeBlock _ req := some ⟨[], req.txs.length, []⟩

/-- The genesis block. -/
def genesis : Block := Builder.build hashes
  { parentID := 0xffffffff <<< 224, timestamp := 0, nonce := 1001,
    validatorsHash := env.validatorSetHash committee,
    nextValidatorsHash := env.validatorSetHash committee,
    proposerIndex := 0, lastKBlock := 0, qc := ⟨0, 0, 0, [], .new 4⟩, txs := [] }

/-- The certificate of the genesis block. -/
def genesisQC : QuorumCert := genesisEscortQC hashes genesis 4

/-- The chain every node starts from. -/
def chain : Chain := Chain.initializeStore env genesis committee committee (fun _ => true)

/-- The node of a validator, once started. -/
def start (k : UInt8) : Except Panic Pacemaker := startPacemaker env chain app [k] 1000000000

/-- What a test finds out about a node that could be started is true of
one. -/
theorem exists_of_ok {x : Except Panic Pacemaker} (test : Pacemaker → Bool)
    (h : x.toOption.any test = true) : ∃ p, x = .ok p ∧ test p = true := by
  cases x with
  | error fault => exact nomatch h
  | ok p => exact ⟨p, rfl, h⟩

theorem exists_of_start {k : UInt8} (test : Pacemaker → Bool)
    (h : (start k).toOption.any test = true) : ∃ p, start k = .ok p ∧ test p = true :=
  exists_of_ok test h

/-- A block of the first validator. -/
def block (parent : Block) (timestamp : UInt64) (qc : QuorumCert) (txs : List Bytes) : Block :=
  Builder.build hashes
    { parentID := parent.id hashes, timestamp, nonce := 0,
      validatorsHash := env.validatorSetHash committee,
      nextValidatorsHash := env.validatorSetHash committee,
      proposerIndex := 0, lastKBlock := 0, qc, txs }

/-- The certificate the first three validators make of a block. -/
def certificate (b : Block) (round : UInt32) : QuorumCert where
  epoch := 1
  round := round
  blockID := b.id hashes
  aggSig := Bytes32.bytes (b.id hashes) ++ [0, 1, 2]
  bitArray := ⟨4, [7]⟩

/-- A proposal of the first validator. -/
def proposal (b : Block) (round : UInt32) : PMProposalMessage :=
  let msg := proposalMessage 0 1 round b none
  { msg with msgSignature := bls.sign [0] ((ConsensusMessage.proposal msg).getMsgHash hashes) }

/-- A proposal arrives and the main loop takes it. -/
def deliver (b : Block) (round : UInt32) : List Input :=
  [.receive (.proposal (proposal b round)) [], .enter 0, .loop .message]

/-- A timeout message of a validator who has not voted yet. -/
def timeoutMessage (k : UInt8) (wishRound : UInt32) (qc : QuorumCert) : PMTimeoutMessage :=
  let wishVoteHash := buildTimeoutVotingHash hashes 1 wishRound
  let msg : PMTimeoutMessage :=
    { timestamp := 0, epoch := 1, signerIndex := k.toUInt32, wishRound, qcHigh := qc.item.encode,
      wishVoteHash, wishVoteSig := bls.sign [k] wishVoteHash, lastVoteRound := 0,
      lastVoteBlockID := 0, lastVoteSignature := [], msgSignature := [],
      decodedQCHigh := qcDecodeFromBytes qc.item.encode, decoded := rfl }
  { msg with msgSignature := bls.sign [k] ((ConsensusMessage.timeout msg).getMsgHash hashes) }

/-- It arrives and the main loop takes it. -/
def deliverTimeout (k : UInt8) (wishRound : UInt32) (qc : QuorumCert) : List Input :=
  [.receive (.timeout (timeoutMessage k wishRound qc)) [], .enter 0, .loop .message]

end Testnet

end LoragonBFT
