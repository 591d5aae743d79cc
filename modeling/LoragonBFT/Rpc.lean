import LoragonBFT.Envelopes

/-!
# Calls between nodes

A node asks another for its status, for a block, or for the blocks from a
number on, and it announces the blocks it has committed. A request is an
`RPCEnvelope` – the type of the call and its arguments – written with SSZ; the
server reads the whole stream, unwraps the envelope and replies on the same
stream, with the result in an envelope of the same kind.

The two ends were not written together. `Reply` wraps the RLP encoding of the
result into an envelope, and the client hands the whole stream to the RLP
decoder, envelope included. The envelope starts with the type of the call, a
byte below `0x80`, which is a string to RLP and not a list: no reply is ever
understood. For a list of blocks the client, moreover, passes the slice itself
instead of a pointer to it. And an announcement carries a block *with* its
certificate, which the server decodes as a block.
-/

namespace LoragonBFT

/-! ## The envelope -/

/-- `message.RPCEnvelope`. -/
structure RPCEnvelope where
  msgType : UInt32
  raw : Bytes
  isResponse : Bool
deriving DecidableEq, Repr

namespace RPCEnvelope

/-- `RPCEnvelope.MarshalSSZ`. -/
def marshalSSZ (r : RPCEnvelope) : Except SszError Bytes :=
  if maxRawSize < r.raw.length then
    .error (.bytesLengthFn "RPCEnvelope.Raw" r.raw.length maxRawSize)
  else
    .ok (Ssz.leBytes 4 r.msgType.toNat ++ Ssz.leBytes 4 9 ++ [if r.isResponse then 1 else 0]
      ++ r.raw)

/-- `RPCEnvelope.UnmarshalSSZ`. -/
def unmarshalSSZ (buf : Bytes) : Except SszError RPCEnvelope :=
  if buf.length < 9 then .error .size
  else
    let o1 := Ssz.leValue ((buf.drop 4).take 4)
    if buf.length < o1 then .error .offset
    else if o1 ≠ 9 then .error .invalidVariableOffset
    else if maxRawSize < (buf.drop o1).length then .error .bytesLength
    else .ok { msgType := UInt32.ofNat (Ssz.leValue (buf.take 4)), raw := buf.drop o1,
               isResponse := (buf.drop 8).head? == some 1 }

/-- **An envelope is written exactly if it carries no more than it may.** -/
theorem marshalSSZ_eq_ok_iff {r : RPCEnvelope} {buf : Bytes} :
    r.marshalSSZ = .ok buf ↔ r.raw.length ≤ maxRawSize
      ∧ buf = Ssz.leBytes 4 r.msgType.toNat ++ Ssz.leBytes 4 9 ++ [if r.isResponse then 1 else 0]
        ++ r.raw := by
  unfold marshalSSZ
  by_cases hraw : r.raw.length ≤ maxRawSize
  · rw [if_neg (not_lt.mpr hraw)]
    refine ⟨fun h => ⟨hraw, (Except.ok.inj h).symm⟩, fun h => ?_⟩
    rw [h.2]
  · rw [if_pos (not_le.mp hraw)]
    exact ⟨fun h => (nomatch h), fun h => absurd h.1 hraw⟩

/-- **An envelope that was written is read back.** -/
theorem unmarshalSSZ_marshalSSZ {r : RPCEnvelope} {buf : Bytes} (h : r.marshalSSZ = .ok buf) :
    unmarshalSSZ buf = .ok r := by
  obtain ⟨hraw, rfl⟩ := marshalSSZ_eq_ok_iff.mp h
  have hfour := Ssz.length_leBytes 4 r.msgType.toNat
  have hfour' := Ssz.length_leBytes 4 9
  generalize hflag : [if r.isResponse then (1 : UInt8) else 0] = flag
  have hflagLength : flag.length = 1 := by
    rw [← hflag]
    rfl
  have hfixed : (Ssz.leBytes 4 r.msgType.toNat ++ Ssz.leBytes 4 9 ++ flag).length = 9 := by
    rw [List.length_append, List.length_append, hfour, hfour', hflagLength]
  have htype : Ssz.leValue
      ((Ssz.leBytes 4 r.msgType.toNat ++ Ssz.leBytes 4 9 ++ flag ++ r.raw).take 4)
      = r.msgType.toNat := by
    rw [List.append_assoc, List.append_assoc, List.take_left' hfour]
    exact Ssz.leValue_leBytes r.msgType.toNat_lt
  have hoffset : Ssz.leValue
      (((Ssz.leBytes 4 r.msgType.toNat ++ Ssz.leBytes 4 9 ++ flag ++ r.raw).drop 4).take 4)
      = 9 := by
    rw [List.append_assoc, List.append_assoc, List.drop_left' hfour, List.take_left' hfour']
    exact Ssz.leValue_leBytes (by decide)
  have hdrop : (Ssz.leBytes 4 r.msgType.toNat ++ Ssz.leBytes 4 9 ++ flag ++ r.raw).drop 9
      = r.raw := List.drop_left' hfixed
  have hbool : ((Ssz.leBytes 4 r.msgType.toNat ++ Ssz.leBytes 4 9 ++ flag ++ r.raw).drop 8).head?
      = flag.head? := by
    rw [List.append_assoc, List.drop_left' (by rw [List.length_append, hfour, hfour']), ← hflag]
    rfl
  have hlength :
      9 ≤ (Ssz.leBytes 4 r.msgType.toNat ++ Ssz.leBytes 4 9 ++ flag ++ r.raw).length := by
    rw [List.length_append, hfixed]
    exact Nat.le_add_right _ _
  unfold unmarshalSSZ
  rw [if_neg (not_lt.mpr hlength)]
  dsimp only
  rw [hoffset, if_neg (not_lt.mpr hlength), if_neg (not_not.mpr rfl), hdrop,
    if_neg (not_lt.mpr hraw), htype, hbool, ← hflag, UInt32.ofNat_toNat]
  cases r with
  | mk msgType raw isResponse => cases isResponse <;> rfl

end RPCEnvelope

/-! ## What is sent -/

/-- `GET_STATUS` and the other types of call. -/
inductive MsgType where
  | getStatus
  | newBlock
  | newBlockID
  | newTx
  | getBlockByID
  | getBlocksFromNum
  | getTxs
deriving DecidableEq, Repr

/-- The number of a type of call. -/
def MsgType.code : MsgType → UInt32
  | getStatus => 0
  | newBlock => 1
  | newBlockID => 2
  | newTx => 3
  | getBlockByID => 4
  | getBlocksFromNum => 5
  | getTxs => 6

/-- `rpc.Status`. -/
structure Status where
  genesisBlockID : Bytes32
  sysTimestamp : UInt64
  bestBlockID : Bytes32
  bestBlockNum : UInt32
deriving DecidableEq, Repr

/-- A status as RLP encodes it. -/
def Status.item (s : Status) : Rlp.Item :=
  .list [.str (Bytes32.bytes s.genesisBlockID), .uint s.sysTimestamp.toNat,
    .str (Bytes32.bytes s.bestBlockID), .uint s.bestBlockNum.toNat]

/-- The status RLP decodes. -/
def Status.ofItem : Rlp.Item → Option Status
  | .list [genesisBlockID, sysTimestamp, bestBlockID, bestBlockNum] => do
    let genesisBlockID ← genesisBlockID.array? 32
    let sysTimestamp ← sysTimestamp.uint? 8
    let bestBlockID ← bestBlockID.array? 32
    let bestBlockNum ← bestBlockNum.uint? 4
    return { genesisBlockID := BitVec.ofNat 256 (Rlp.beValue genesisBlockID),
             sysTimestamp := UInt64.ofNat sysTimestamp,
             bestBlockID := BitVec.ofNat 256 (Rlp.beValue bestBlockID),
             bestBlockNum := UInt32.ofNat bestBlockNum }
  | _ => none

/-- `block.EscortedBlock`: a block and a certificate of it. -/
structure EscortedBlock where
  block : Block
  escortQC : QuorumCert
deriving DecidableEq, Repr

/-- `Block.EncodeRLP`, with the fault of a bit array that lacks words. -/
def Block.rlp (b : Block) : Except Panic Rlp.Item := do
  return .list [b.header.item, .list (b.txs.map .str), ← b.qc.rlp]

/-- An escorted block as RLP encodes it. -/
def EscortedBlock.rlp (e : EscortedBlock) : Except Panic Rlp.Item := do
  return .list [← e.block.rlp, ← e.escortQC.rlp]

/-- The escorted block RLP decodes. -/
def EscortedBlock.ofItem : Rlp.Item → Option EscortedBlock
  | .list [block, escortQC] => do
    return { block := ← Block.ofItem block, escortQC := ← QuorumCert.ofItem escortQC }
  | _ => none

/-- A list of escorted blocks as RLP encodes it. -/
def escortedBlocksRlp (l : List EscortedBlock) : Except Panic Rlp.Item := do
  return .list (← l.mapM EscortedBlock.rlp)

/-- `Reply`, and the request of a client: what is written to the stream. -/
def reply (msgType : MsgType) (content : Except Panic Rlp.Item) (isResponse : Bool) :
    Except Panic (Except SszError Bytes) := do
  return RPCEnvelope.marshalSSZ ⟨msgType.code, (← content).encode, isResponse⟩

/-! ## What is read -/

/-- What is handed to `rlp.DecodeBytes`: a pointer to a value of a type that is
decoded in some way, or a value. -/
inductive Target (α : Type) where
  | pointer (ofItem : Rlp.Item → Option α)
  | value

/-- `RPCServer.decode`, on the bytes of the stream. Only a pointer can be
decoded into. -/
def decodeStream {α : Type} : Target α → Bytes → Option α
  | .pointer ofItem, bs => (Rlp.decode bs).bind ofItem
  | .value, _ => none

/-- `GetStatus`, once the server has replied. -/
def getStatus (stream : Bytes) : Option Status := decodeStream (.pointer Status.ofItem) stream

/-- `GetBlockByID`, once the server has replied. -/
def getBlockByID (stream : Bytes) : Option EscortedBlock :=
  decodeStream (.pointer EscortedBlock.ofItem) stream

/-- `GetBlocksFromNumber`, once the server has replied: the slice is passed by
value. -/
def getBlocksFromNumber (stream : Bytes) : Option (List EscortedBlock) :=
  decodeStream .value stream

/-- The block that `handleRPC` takes from an announcement. -/
def announcedBlock (stream : Bytes) : Option Block :=
  match RPCEnvelope.unmarshalSSZ stream with
  | .error _ => none
  | .ok env => if env.msgType = MsgType.newBlock.code then blockDecodeFromBytes env.raw else none

/-! ## Nothing is understood -/

/-- Two escorted blocks say the same: they agree on every field, and on every
bit of their certificates. -/
structure EscortedBlock.Same (e e' : EscortedBlock) : Prop where
  header : e.block.header = e'.block.header
  txs : e.block.txs = e'.block.txs
  qc : e.block.qc.Same e'.block.qc
  escortQC : e.escortQC.Same e'.escortQC

/-- What one node sends to another: the replies of a server, and the
announcement of a block. -/
inductive Exchange where
  | status (s : Status)
  | blockByID (e : EscortedBlock)
  | blocksFromNum (l : List EscortedBlock)
  | newBlock (e : EscortedBlock)

namespace Exchange

/-- The bytes on the stream. -/
def sent : Exchange → Except Panic (Except SszError Bytes)
  | status s => reply .getStatus (.ok s.item) true
  | blockByID e => reply .getBlockByID e.rlp true
  | blocksFromNum l => reply .getBlocksFromNum (escortedBlocksRlp l) true
  | newBlock e => reply .newBlock e.rlp false

/-- **The other end understands**: it reads from the stream what was sent. -/
def Understood (stream : Bytes) : Exchange → Prop
  | status s => getStatus stream = some s
  | blockByID e => ∃ e', getBlockByID stream = some e' ∧ e.Same e'
  | blocksFromNum l => ∃ l', getBlocksFromNumber stream = some l'
      ∧ List.Forall₂ EscortedBlock.Same l l'
  | newBlock e => ∃ b, announcedBlock stream = some b ∧ b.header = e.block.header
      ∧ b.txs = e.block.txs ∧ e.block.qc.Same b.qc

end Exchange

variable {stream : Bytes}

/-- What has been written to a stream. -/
theorem reply_eq_ok_iff {msgType : MsgType} {content : Except Panic Rlp.Item} {isResponse : Bool} :
    reply msgType content isResponse = .ok (.ok stream)
      ↔ ∃ item, content = .ok item
        ∧ RPCEnvelope.marshalSSZ ⟨msgType.code, item.encode, isResponse⟩ = .ok stream := by
  unfold reply
  cases content with
  | error fault => exact ⟨fun h => (nomatch h), fun ⟨_, h, _⟩ => nomatch h⟩
  | ok item =>
    constructor
    · intro h
      exact ⟨item, rfl, Except.ok.inj h⟩
    · rintro ⟨item', hitem, h⟩
      obtain rfl := Except.ok.inj hitem
      exact congrArg Except.ok h

/-- **An envelope is not an RLP value**: it starts with a small byte. -/
theorem decode_of_reply {msgType : MsgType} {content : Except Panic Rlp.Item} {isResponse : Bool}
    (h : reply msgType content isResponse = .ok (.ok stream)) :
    Rlp.decode stream = none := by
  obtain ⟨item, -, hssz⟩ := reply_eq_ok_iff.mp h
  obtain ⟨-, rfl⟩ := RPCEnvelope.marshalSSZ_eq_ok_iff.mp hssz
  have hsmall : UInt8.ofNat msgType.code.toNat < 0x80 := by cases msgType <;> decide
  exact Rlp.decode_eq_none_of_small hsmall (List.cons_ne_nil _ _)

/-- **An announced block is not decoded**: what was written has two elements,
the block and its certificate, and a block has three. -/
theorem announcedBlock_of_sent {e : EscortedBlock}
    (h : (Exchange.newBlock e).sent = .ok (.ok stream)) : announcedBlock stream = none := by
  obtain ⟨item, hitem, hssz⟩ := reply_eq_ok_iff.mp h
  obtain ⟨hsize, -⟩ := RPCEnvelope.marshalSSZ_eq_ok_iff.mp hssz
  obtain ⟨block, escortQC, rfl⟩ : ∃ block escortQC, item = .list [block, escortQC] := by
    unfold EscortedBlock.rlp at hitem
    cases hblock : e.block.rlp with
    | error fault => rw [hblock] at hitem; exact nomatch hitem
    | ok block =>
      cases hqc : e.escortQC.rlp with
      | error fault => rw [hblock, hqc] at hitem; exact nomatch hitem
      | ok escortQC =>
        rw [hblock, hqc] at hitem
        exact ⟨block, escortQC, (Except.ok.inj hitem).symm⟩
  have hfits : (Rlp.Item.list [block, escortQC]).encode.length < 2 ^ 64 :=
    lt_of_le_of_lt hsize (by decide)
  unfold announcedBlock
  rw [RPCEnvelope.unmarshalSSZ_marshalSSZ hssz]
  dsimp only
  rw [if_pos rfl, blockDecodeFromBytes, Rlp.decode_encode _ hfits]
  rfl

/-- **Nothing that is sent is understood**, be it a status, a block, a list of
blocks or an announcement. -/
theorem not_understood (x : Exchange) {stream : Bytes} (h : x.sent = .ok (.ok stream)) :
    ¬ x.Understood stream := by
  cases x with
  | status s =>
    have hnone : getStatus stream = none := by
      show (Rlp.decode stream).bind _ = none
      rw [decode_of_reply h]
      rfl
    intro hunderstood
    exact nomatch hnone.symm.trans hunderstood
  | blockByID e =>
    have hnone : getBlockByID stream = none := by
      show (Rlp.decode stream).bind _ = none
      rw [decode_of_reply h]
      rfl
    rintro ⟨e', he', -⟩
    exact nomatch hnone.symm.trans he'
  | blocksFromNum l =>
    rintro ⟨l', hl', -⟩
    exact nomatch hl'
  | newBlock e =>
    rintro ⟨b, hb, -⟩
    exact nomatch (announcedBlock_of_sent h).symm.trans hb

namespace Testnet

/-- The genesis block is announced, and not understood. -/
theorem announcement_lost :
    ∃ stream, (Exchange.newBlock ⟨genesis, genesisQC⟩).sent = .ok (.ok stream)
      ∧ ¬ (Exchange.newBlock ⟨genesis, genesisQC⟩).Understood stream := by
  have hitem : EscortedBlock.rlp ⟨genesis, genesisQC⟩
      = .ok (.list [genesis.item, genesisQC.item]) := by
    have hcovered : genesisQC.bitArray.Covered := rfl
    have hcovered' : genesis.qc.bitArray.Covered := rfl
    unfold EscortedBlock.rlp Block.rlp
    dsimp only
    rw [QuorumCert.rlp_eq hcovered, QuorumCert.rlp_eq hcovered']
    rfl
  have hsize : (Rlp.Item.list [genesis.item, genesisQC.item]).encode.length ≤ maxRawSize := by
    decide +kernel
  obtain ⟨stream, hstream⟩ : ∃ stream,
      (Exchange.newBlock ⟨genesis, genesisQC⟩).sent = .ok (.ok stream) :=
    ⟨_, reply_eq_ok_iff.mpr ⟨_, hitem, RPCEnvelope.marshalSSZ_eq_ok_iff.mpr ⟨hsize, rfl⟩⟩⟩
  exact ⟨stream, hstream, not_understood _ hstream⟩

/-- **The status of a node at genesis is sent, and the client reads
nothing.** -/
theorem status_lost : ∃ stream,
    (Exchange.status ⟨genesis.id hashes, 1, genesis.id hashes, 0⟩).sent = .ok (.ok stream)
      ∧ getStatus stream = none := by
  have hsize : (Status.item ⟨genesis.id hashes, 1, genesis.id hashes, 0⟩).encode.length
      ≤ maxRawSize := by
    decide +kernel
  obtain ⟨stream, hstream⟩ : ∃ stream,
      (Exchange.status ⟨genesis.id hashes, 1, genesis.id hashes, 0⟩).sent = .ok (.ok stream) :=
    ⟨_, reply_eq_ok_iff.mpr ⟨_, rfl, RPCEnvelope.marshalSSZ_eq_ok_iff.mpr ⟨hsize, rfl⟩⟩⟩
  refine ⟨stream, hstream, ?_⟩
  show (Rlp.decode stream).bind _ = none
  rw [decode_of_reply hstream]
  rfl

end Testnet

end LoragonBFT
