import LoragonBFT.MessageDigests
import LoragonBFT.Util.Ssz
import LoragonBFT.Util.Tagged

/-!
# Which messages can be delivered

A consensus message is wrapped twice before it is published. `EncodeMsg` has
amino write it and refuses what is longer than `maxMsgSize`, 1300000 bytes;
`Broadcast` puts the bytes into an envelope next to the address of the sender,
and the SSZ encoding of the envelope refuses more than 1048576 bytes of them.
The receiver undoes both, with the same two limits.

The limits differ. The inner one was raised from the outer one – the old value
still stands in a comment – to make room for a full block with its certificate,
and the envelope was not. A message between the two is encoded, and then it is
lost: `Broadcast` writes a line to the log and returns. Everything up to the
smaller limit arrives as it was sent.

Amino is a parameter. What is assumed of it is that it reads what it wrote.
-/

namespace LoragonBFT

/-! ## Messages as bytes -/

/-- The amino codec with the four messages registered. -/
structure Amino where
  /-- `MarshalBinaryBare`: it fails on what has no encoding, such as a time in
  the year 10000. -/
  marshal : ConsensusMessage → Option Bytes
  /-- `UnmarshalBinaryBare`. -/
  unmarshal : Bytes → Option ConsensusMessage
  /-- What was written is read. -/
  unmarshal_marshal : ∀ msg raw, marshal msg = some raw → unmarshal raw = some msg

/-- What `EncodeMsg` and `DecodeMsg` return instead of a result. -/
inductive MsgError where
  /-- "msg exceeds max size". -/
  | exceedsMaxSize (size : ℕ)
  /-- The error of amino. -/
  | malformed
deriving DecidableEq, Repr

/-- `maxMsgSize`. -/
def maxMsgSize : ℕ := 1300000

/-- `EncodeMsg`. `MustMarshalBinaryBare` panics where amino fails. -/
def encodeMsg (A : Amino) (msg : ConsensusMessage) : Except Panic (Except MsgError Bytes) :=
  match A.marshal msg with
  | none => .error (.explicit "MustMarshalBinaryBare")
  | some raw =>
    .ok (if maxMsgSize < raw.length then .error (.exceedsMaxSize raw.length) else .ok raw)

/-- `DecodeMsg`. -/
def decodeMsg (A : Amino) (raw : Bytes) : Except MsgError ConsensusMessage :=
  if maxMsgSize < raw.length then .error (.exceedsMaxSize raw.length)
  else
    match A.unmarshal raw with
    | none => .error .malformed
    | some msg => .ok msg

/-! ## Envelopes -/

/-- The errors of the SSZ library. -/
inductive SszError where
  /-- `ErrSize`: too short for the fixed part. -/
  | size
  /-- `ErrOffset`: an offset past the end. -/
  | offset
  /-- `ErrInvalidVariableOffset`: the variable part does not follow the fixed
  one. -/
  | invalidVariableOffset
  /-- `ErrBytesLength`: more bytes than the field may have. -/
  | bytesLength
  /-- `ErrBytesLengthFn`: the field, its length, the length it should have. -/
  | bytesLengthFn (name : String) (found expected : ℕ)
deriving DecidableEq, Repr

/-- The most bytes an envelope carries. -/
def maxRawSize : ℕ := 1048576

/-- `message.ConsensusEnvelope`. -/
structure ConsensusEnvelope where
  raw : Bytes
  senderAddr : Bytes
deriving DecidableEq, Repr

namespace ConsensusEnvelope

/-- `ConsensusEnvelope.MarshalSSZ`. -/
def marshalSSZ (c : ConsensusEnvelope) : Except SszError Bytes :=
  if c.senderAddr.length ≠ 20 then
    .error (.bytesLengthFn "ConsensusEnvelope.SenderAddr" c.senderAddr.length 20)
  else if maxRawSize < c.raw.length then
    .error (.bytesLengthFn "ConsensusEnvelope.Raw" c.raw.length maxRawSize)
  else .ok (Ssz.leBytes 4 24 ++ c.senderAddr ++ c.raw)

/-- `ConsensusEnvelope.UnmarshalSSZ`. -/
def unmarshalSSZ (buf : Bytes) : Except SszError ConsensusEnvelope :=
  if buf.length < 24 then .error .size
  else
    let o0 := Ssz.leValue (buf.take 4)
    if buf.length < o0 then .error .offset
    else if o0 ≠ 24 then .error .invalidVariableOffset
    else if maxRawSize < (buf.drop o0).length then .error .bytesLength
    else .ok { raw := buf.drop o0, senderAddr := (buf.drop 4).take 20 }

/-- **An envelope is written exactly if its address has 20 bytes and it carries
no more than it may.** -/
theorem marshalSSZ_eq_ok_iff {c : ConsensusEnvelope} {buf : Bytes} :
    c.marshalSSZ = .ok buf ↔ c.senderAddr.length = 20 ∧ c.raw.length ≤ maxRawSize
      ∧ buf = Ssz.leBytes 4 24 ++ c.senderAddr ++ c.raw := by
  unfold marshalSSZ
  by_cases haddr : c.senderAddr.length = 20
  · rw [if_neg (not_not.mpr haddr)]
    by_cases hraw : c.raw.length ≤ maxRawSize
    · rw [if_neg (not_lt.mpr hraw)]
      refine ⟨fun h => ⟨haddr, hraw, (Except.ok.inj h).symm⟩, fun h => ?_⟩
      rw [h.2.2]
    · rw [if_pos (not_le.mp hraw)]
      exact ⟨fun h => (nomatch h), fun h => absurd h.2.1 hraw⟩
  · rw [if_pos haddr]
    exact ⟨fun h => (nomatch h), fun h => absurd h.1 haddr⟩

/-- **An envelope that was written is read back.** -/
theorem unmarshalSSZ_marshalSSZ {c : ConsensusEnvelope} {buf : Bytes}
    (h : c.marshalSSZ = .ok buf) : unmarshalSSZ buf = .ok c := by
  obtain ⟨haddr, hraw, rfl⟩ := marshalSSZ_eq_ok_iff.mp h
  have hfixed : (Ssz.leBytes 4 24 ++ c.senderAddr).length = 24 := by
    rw [List.length_append, Ssz.length_leBytes, haddr]
  have hoffset : Ssz.leValue ((Ssz.leBytes 4 24 ++ c.senderAddr ++ c.raw).take 4) = 24 := by
    rw [List.append_assoc, List.take_left' (Ssz.length_leBytes 4 24)]
    exact Ssz.leValue_leBytes (by decide)
  have hdrop : (Ssz.leBytes 4 24 ++ c.senderAddr ++ c.raw).drop 24 = c.raw :=
    List.drop_left' hfixed
  have hlength : 24 ≤ (Ssz.leBytes 4 24 ++ c.senderAddr ++ c.raw).length := by
    rw [List.length_append, hfixed]
    exact Nat.le_add_right _ _
  unfold unmarshalSSZ
  rw [if_neg (not_lt.mpr hlength)]
  dsimp only
  rw [hoffset, if_neg (not_lt.mpr hlength), if_neg (not_not.mpr rfl), hdrop,
    if_neg (not_lt.mpr hraw), List.append_assoc, List.drop_left' (Ssz.length_leBytes 4 24),
    List.take_left' haddr]

end ConsensusEnvelope

/-! ## Sending and receiving -/

/-- What stops `Broadcast` or the receiver. -/
inductive EnvelopeError where
  | msg (e : MsgError)
  | ssz (e : SszError)
deriving DecidableEq, Repr

/-- What `subscribeToConsensusMessage` makes of the bytes it receives: the
message and the address of its sender. -/
def receive (A : Amino) (data : Bytes) : Except EnvelopeError (ConsensusMessage × Bytes) :=
  match ConsensusEnvelope.unmarshalSSZ data with
  | .error e => .error (.ssz e)
  | .ok pbMsg =>
    match decodeMsg A pbMsg.raw with
    | .error e => .error (.msg e)
    | .ok msg => .ok (msg, pbMsg.senderAddr)

variable {msg : ConsensusMessage}

theorem encodeMsg_eq_ok_iff {A : Amino} {raw : Bytes} :
    encodeMsg A msg = .ok (.ok raw) ↔ A.marshal msg = some raw ∧ raw.length ≤ maxMsgSize := by
  unfold encodeMsg
  cases hmarshal : A.marshal msg with
  | none => exact ⟨fun h => (nomatch h), fun h => nomatch h.1⟩
  | some raw' =>
    dsimp only
    rw [Except.ok.injEq, Option.some.injEq]
    by_cases hsize : maxMsgSize < raw'.length
    · rw [if_pos hsize]
      refine ⟨fun h => (nomatch h), fun h => ?_⟩
      rw [h.1] at hsize
      exact absurd h.2 (not_le.mpr hsize)
    · rw [if_neg hsize, Except.ok.injEq]
      refine ⟨fun h => ⟨h, h ▸ not_lt.mp hsize⟩, fun h => h.1⟩

/-- **A message that was encoded is decoded.** -/
theorem decodeMsg_encodeMsg {A : Amino} {raw : Bytes} (h : encodeMsg A msg = .ok (.ok raw)) :
    decodeMsg A raw = .ok msg := by
  obtain ⟨hmarshal, hsize⟩ := encodeMsg_eq_ok_iff.mp h
  unfold decodeMsg
  rw [if_neg (not_lt.mpr hsize), A.unmarshal_marshal msg raw hmarshal]

/-- **An envelope that was written is received.** -/
theorem receive_of_marshalSSZ {A : Amino} {myAddr rawMsg data : Bytes}
    (hencode : encodeMsg A msg = .ok (.ok rawMsg))
    (hssz : ConsensusEnvelope.marshalSSZ ⟨rawMsg, myAddr⟩ = .ok data) :
    receive A data = .ok (msg, myAddr) := by
  unfold receive
  rw [ConsensusEnvelope.unmarshalSSZ_marshalSSZ hssz]
  dsimp only
  rw [decodeMsg_encodeMsg hencode]

/-- **A message is delivered**: the envelope `Broadcast` builds is written, and
the receiver reads the message from the bytes. -/
def Delivered (A : Amino) (myAddr : Bytes) (msg : ConsensusMessage) : Prop :=
  ∃ rawMsg data, encodeMsg A msg = .ok (.ok rawMsg)
    ∧ ConsensusEnvelope.marshalSSZ ⟨rawMsg, myAddr⟩ = .ok data
    ∧ receive A data = .ok (msg, myAddr)

/-- **An encoded message is delivered exactly if amino wrote no more bytes than
an envelope carries.** -/
theorem delivered_iff {A : Amino} {myAddr rawMsg : Bytes} {msg : ConsensusMessage}
    (hencode : encodeMsg A msg = .ok (.ok rawMsg)) (haddr : myAddr.length = 20) :
    Delivered A myAddr msg ↔ ∀ raw ∈ A.marshal msg, raw.length ≤ maxRawSize := by
  have hmarshal := (encodeMsg_eq_ok_iff.mp hencode).1
  constructor
  · rintro ⟨rawMsg', data, hencode', hssz, -⟩ raw hraw
    obtain rfl : rawMsg' = raw :=
      Option.some.inj ((encodeMsg_eq_ok_iff.mp hencode').1.symm.trans hraw)
    exact (ConsensusEnvelope.marshalSSZ_eq_ok_iff.mp hssz).2.1
  · intro hsize
    have hssz : ConsensusEnvelope.marshalSSZ ⟨rawMsg, myAddr⟩
        = .ok (Ssz.leBytes 4 24 ++ myAddr ++ rawMsg) :=
      ConsensusEnvelope.marshalSSZ_eq_ok_iff.mpr ⟨haddr, hsize rawMsg hmarshal, rfl⟩
    exact ⟨rawMsg, _, hencode, hssz, receive_of_marshalSSZ hencode hssz⟩

namespace Testnet

/-! ## Amino's encoding

Amino numbers the exported fields of a structure from one on, leaves out those
that are zero, empty or nil, and writes a registered structure after four bytes
taken from a digest of its name. A time is its seconds and nanoseconds since
1970; an array of 32 bytes is never left out. -/

/-- The seconds of the years that amino writes, 1 to 9999. -/
def InYears (t : ℤ) : Prop := -62135596800 ≤ t / 10 ^ 9 ∧ t / 10 ^ 9 < 253402300800

instance (t : ℤ) : Decidable (InYears t) := inferInstanceAs (Decidable (_ ∧ _))

/-- `EncodeTime`. -/
def timeBytes (t : ℤ) : Bytes :=
  Tagged.encodeFields 1
    [Tagged.uint (BitVec.ofInt 64 (t / 10 ^ 9)).toNat, Tagged.uint (t % 10 ^ 9).toNat]

/-- `DecodeTime`. -/
def readTime (raw : Bytes) : Option ℤ := do
  match ← Tagged.readFields 2 1 raw with
  | [s, ns] => return (BitVec.ofNat 64 (← Tagged.toUint s)).toInt * 10 ^ 9 + (← Tagged.toUint ns)
  | _ => none

theorem readTime_timeBytes {t : ℤ} (h : InYears t) : readTime (timeBytes t) = some t := by
  obtain ⟨hmin, hmax⟩ := h
  have hseconds : (BitVec.ofInt 64 (t / 10 ^ 9)).toInt = t / 10 ^ 9 :=
    BitVec.toInt_ofInt_eq_self (by decide) (by omega) (by omega)
  have hnanos : ((t % 10 ^ 9).toNat : ℤ) = t % 10 ^ 9 :=
    Int.toNat_of_nonneg (Int.emod_nonneg t (by norm_num))
  unfold readTime timeBytes
  rw [show 2 = (List.length [Tagged.uint (BitVec.ofInt 64 (t / 10 ^ 9)).toNat,
    Tagged.uint (t % 10 ^ 9).toNat]) from rfl, Tagged.readFields_encodeFields]
  show (Tagged.toUint _).bind (fun s => (Tagged.toUint _).bind fun ns => some _) = _
  rw [Tagged.toUint_uint, Tagged.toUint_uint, Option.bind_some, Option.bind_some,
    BitVec.ofNat_toNat, BitVec.setWidth_eq, hseconds, hnanos, mul_comm, Int.mul_ediv_add_emod]

/-- The fields of a bit array. -/
def bitArrayBytes (bA : BitArray) : Bytes :=
  Tagged.encodeFields 1
    [Tagged.uint bA.bits.toNat, Tagged.str (Tagged.packed (bA.elems.map UInt64.toNat))]

/-- Read a bit array. -/
def readBitArray (raw : Bytes) : Option BitArray := do
  match ← Tagged.readFields 2 1 raw with
  | [bits, elems] =>
    let bits ← Tagged.toUint bits
    let elems ← Tagged.toStr elems
    let elems ← Tagged.readPacked elems.length elems
    return ⟨UInt32.ofNat bits, elems.map UInt64.ofNat⟩
  | _ => none

theorem readBitArray_bitArrayBytes (bA : BitArray) : readBitArray (bitArrayBytes bA) = some bA := by
  have helems : (bA.elems.map UInt64.toNat).map UInt64.ofNat = bA.elems := by
    rw [List.map_map]
    exact List.map_id'' (fun _ => UInt64.ofNat_toNat) _
  unfold readBitArray bitArrayBytes
  rw [show 2 = (List.length [Tagged.uint bA.bits.toNat,
    Tagged.str (Tagged.packed (bA.elems.map UInt64.toNat))]) from rfl,
    Tagged.readFields_encodeFields]
  show (Tagged.toUint _).bind (fun bits => (Tagged.toStr _).bind fun elems =>
    (Tagged.readPacked elems.length elems).bind fun elems => some _) = _
  rw [Tagged.toUint_uint, Tagged.toStr_str, Option.bind_some, Option.bind_some,
    Tagged.readPacked_packed (Tagged.length_le_packed _), Option.bind_some, helems,
    UInt32.ofNat_toNat]

/-- An array of 32 bytes. -/
def bytes32 (x : Bytes32) : Option Tagged.Value := some (.bytes (Bytes32.bytes x))

/-- Read an array of 32 bytes. -/
def toBytes32 (v : Option Tagged.Value) : Option Bytes32 :=
  ((Tagged.toStr v).filter (fun b => b.length == 32)).map
    (fun b => BitVec.ofNat 256 (Rlp.beValue b))

theorem toBytes32_bytes32 (x : Bytes32) : toBytes32 (bytes32 x) = some x := by
  show ((some (Bytes32.bytes x)).filter _).map _ = _
  rw [Option.filter_some_pos (by simp [x.length_bytes]), Option.map_some, x.ofNat_beValue_bytes]

/-- The fields of a timeout certificate. -/
def timeoutCertBytes (tc : TimeoutCert) : Bytes :=
  Tagged.encodeFields 1
    [Tagged.uint tc.epoch.toNat, Tagged.uint tc.round.toNat, Tagged.ptr bitArrayBytes tc.bitArray,
      bytes32 tc.msgHash, Tagged.str tc.aggSig]

/-- Read a timeout certificate. -/
def readTimeoutCert (raw : Bytes) : Option TimeoutCert := do
  match ← Tagged.readFields 5 1 raw with
  | [epoch, round, bitArray, msgHash, aggSig] =>
    return ⟨UInt64.ofNat (← Tagged.toUint epoch), UInt32.ofNat (← Tagged.toUint round),
      ← Tagged.toPtr readBitArray bitArray, ← toBytes32 msgHash, ← Tagged.toStr aggSig⟩
  | _ => none

theorem readTimeoutCert_timeoutCertBytes (tc : TimeoutCert) :
    readTimeoutCert (timeoutCertBytes tc) = some tc := by
  have hread := Tagged.readFields_encodeFields 1
    [Tagged.uint tc.epoch.toNat, Tagged.uint tc.round.toNat, Tagged.ptr bitArrayBytes tc.bitArray,
      bytes32 tc.msgHash, Tagged.str tc.aggSig]
  have hptr : Tagged.toPtr readBitArray (Tagged.ptr bitArrayBytes tc.bitArray)
      = some tc.bitArray := Tagged.toPtr_ptr fun bA _ => readBitArray_bitArrayBytes bA
  unfold readTimeoutCert timeoutCertBytes
  simp only [List.length_cons, List.length_nil] at hread
  simp [hread, hptr, toBytes32_bytes32]

/-- The fields of a message. -/
def fields : ConsensusMessage → List (Option Tagged.Value)
  | .proposal m =>
    [Tagged.str (timeBytes m.timestamp), Tagged.uint m.epoch.toNat, Tagged.uint m.round.toNat,
      Tagged.str m.rawBlock, Tagged.ptr timeoutCertBytes m.timeoutCert, Tagged.str m.msgSignature]
  | .vote m =>
    [Tagged.str (timeBytes m.timestamp), Tagged.uint m.epoch.toNat,
      Tagged.uint m.signerIndex.toNat, Tagged.uint m.voteRound.toNat, bytes32 m.voteBlockID,
      Tagged.str m.voteSignature, Tagged.str m.msgSignature]
  | .timeout m =>
    [Tagged.str (timeBytes m.timestamp), Tagged.uint m.epoch.toNat,
      Tagged.uint m.signerIndex.toNat, Tagged.uint m.wishRound.toNat, Tagged.str m.qcHigh,
      bytes32 m.wishVoteHash, Tagged.str m.wishVoteSig, Tagged.uint m.lastVoteRound.toNat,
      bytes32 m.lastVoteBlockID, Tagged.str m.lastVoteSignature, Tagged.str m.msgSignature]
  | .query m =>
    [Tagged.str (timeBytes m.timestamp), Tagged.uint m.epoch.toNat,
      Tagged.uint m.signerIndex.toNat, bytes32 m.lastCommitted, Tagged.str m.msgSignature]

/-- The four bytes a registered message starts with. -/
def registered : ConsensusMessage.Kind → Bytes
  | .proposal => [0xa2, 0xd4, 0x7e, 0xa9]
  | .vote => [0xc5, 0x5d, 0xe9, 0x46]
  | .timeout => [0x8f, 0x2d, 0x1d, 0x47]
  | .query => [0x36, 0xa8, 0xa4, 0xf5]

/-- Read a time. -/
def toTime (v : Option Tagged.Value) : Option Time := (Tagged.toStr v).bind readTime

theorem toTime_str {t : Time} (h : InYears t) :
    toTime (Tagged.str (timeBytes t)) = some t := by
  rw [toTime, Tagged.toStr_str, Option.bind_some, readTime_timeBytes h]

/-- Read a message of a given type from its fields. -/
def ofFields : ConsensusMessage.Kind → List (Option Tagged.Value) → Option ConsensusMessage
  | .proposal, [timestamp, epoch, round, rawBlock, timeoutCert, msgSignature] => do
    let timestamp ← toTime timestamp
    let epoch ← Tagged.toUint epoch
    let round ← Tagged.toUint round
    let rawBlock ← Tagged.toStr rawBlock
    let timeoutCert ← Tagged.toPtr readTimeoutCert timeoutCert
    let msgSignature ← Tagged.toStr msgSignature
    return .proposal ⟨timestamp, UInt64.ofNat epoch, UInt32.ofNat round, rawBlock, timeoutCert,
      msgSignature, blockDecodeFromBytes rawBlock, rfl⟩
  | .vote, [timestamp, epoch, signerIndex, voteRound, voteBlockID, voteSignature, msgSignature] =>
    return .vote ⟨← toTime timestamp, UInt64.ofNat (← Tagged.toUint epoch),
      UInt32.ofNat (← Tagged.toUint signerIndex), UInt32.ofNat (← Tagged.toUint voteRound),
      ← toBytes32 voteBlockID, ← Tagged.toStr voteSignature, ← Tagged.toStr msgSignature⟩
  | .timeout, [timestamp, epoch, signerIndex, wishRound, qcHigh, wishVoteHash, wishVoteSig,
      lastVoteRound, lastVoteBlockID, lastVoteSignature, msgSignature] => do
    let qcHigh ← Tagged.toStr qcHigh
    return .timeout ⟨← toTime timestamp, UInt64.ofNat (← Tagged.toUint epoch),
      UInt32.ofNat (← Tagged.toUint signerIndex), UInt32.ofNat (← Tagged.toUint wishRound),
      qcHigh, ← toBytes32 wishVoteHash, ← Tagged.toStr wishVoteSig,
      UInt32.ofNat (← Tagged.toUint lastVoteRound), ← toBytes32 lastVoteBlockID,
      ← Tagged.toStr lastVoteSignature, ← Tagged.toStr msgSignature,
      qcDecodeFromBytes qcHigh, rfl⟩
  | .query, [timestamp, epoch, signerIndex, lastCommitted, msgSignature] =>
    return .query ⟨← toTime timestamp, UInt64.ofNat (← Tagged.toUint epoch),
      UInt32.ofNat (← Tagged.toUint signerIndex), ← toBytes32 lastCommitted,
      ← Tagged.toStr msgSignature⟩
  | _, _ => none

/-- **A message is read from its fields.** -/
theorem ofFields_fields (h : InYears msg.timestamp) :
    ofFields msg.getType (fields msg) = some msg := by
  cases msg with
  | proposal m =>
    obtain ⟨timestamp, epoch, round, rawBlock, timeoutCert, msgSignature, decodedBlock, rfl⟩ := m
    have hptr : Tagged.toPtr readTimeoutCert (Tagged.ptr timeoutCertBytes timeoutCert)
        = some timeoutCert := Tagged.toPtr_ptr fun tc _ => readTimeoutCert_timeoutCertBytes tc
    have htime : toTime (Tagged.str (timeBytes timestamp)) = some timestamp := toTime_str h
    simp [ConsensusMessage.getType, fields, ofFields, htime, hptr]
  | vote m =>
    have htime : toTime (Tagged.str (timeBytes m.timestamp)) = some m.timestamp := toTime_str h
    simp [ConsensusMessage.getType, fields, ofFields, htime, toBytes32_bytes32]
  | timeout m =>
    obtain ⟨timestamp, epoch, signerIndex, wishRound, qcHigh, wishVoteHash, wishVoteSig,
      lastVoteRound, lastVoteBlockID, lastVoteSignature, msgSignature, decodedQCHigh, rfl⟩ := m
    have htime : toTime (Tagged.str (timeBytes timestamp)) = some timestamp := toTime_str h
    simp [ConsensusMessage.getType, fields, ofFields, htime, toBytes32_bytes32]
  | query m =>
    have htime : toTime (Tagged.str (timeBytes m.timestamp)) = some m.timestamp := toTime_str h
    simp [ConsensusMessage.getType, fields, ofFields, htime, toBytes32_bytes32]

/-- The number of fields of a message. -/
def fieldCount : ConsensusMessage.Kind → ℕ
  | .proposal => 6
  | .vote => 7
  | .timeout => 11
  | .query => 5

theorem length_fields (msg : ConsensusMessage) : (fields msg).length = fieldCount msg.getType := by
  cases msg <;> rfl

/-- **Amino's encoding of the messages.** -/
def amino : Amino where
  marshal msg :=
    if InYears msg.timestamp then
      some (registered msg.getType ++ Tagged.encodeFields 1 (fields msg))
    else none
  unmarshal raw := do
    let kind ← [ConsensusMessage.Kind.proposal, .vote, .timeout, .query].find?
      (fun kind => raw.take 4 == registered kind)
    ofFields kind (← Tagged.readFields (fieldCount kind) 1 (raw.drop 4))
  unmarshal_marshal msg raw h := by
    obtain ⟨hyears, rfl⟩ : InYears msg.timestamp
        ∧ registered msg.getType ++ Tagged.encodeFields 1 (fields msg) = raw := by
      by_cases hyears : InYears msg.timestamp
      · rw [if_pos hyears] at h
        exact ⟨hyears, Option.some.inj h⟩
      · rw [if_neg hyears] at h
        exact nomatch h
    have hfour : (registered msg.getType).length = 4 := by cases msg.getType <;> rfl
    have hfind : [ConsensusMessage.Kind.proposal, .vote, .timeout, .query].find?
        (fun kind => registered msg.getType == registered kind) = some msg.getType := by
      cases msg.getType <;> rfl
    have hread := Tagged.readFields_encodeFields 1 (fields msg)
    rw [length_fields] at hread
    rw [List.take_left' hfour, List.drop_left' hfour, hfind]
    show (Tagged.readFields _ _ _).bind _ = _
    rw [hread]
    exact ofFields_fields hyears

theorem amino_marshal (msg : ConsensusMessage) (h : InYears msg.timestamp) :
    amino.marshal msg = some (registered msg.getType ++ Tagged.encodeFields 1 (fields msg)) := by
  unfold amino
  exact if_pos h

/-! ## A block that is too large -/

/-- A block of the first validator with one transaction of `n` bytes. -/
def heavyBlock (n : ℕ) : Block := block genesis 1 genesisQC [List.replicate n 0]

/-- The block is about as long as its transaction. -/
theorem length_heavyBlock (n : ℕ) :
    n ≤ (heavyBlock n).item.encode.length ∧ (heavyBlock n).item.encode.length ≤ n + 600 := by
  constructor
  · have htx : n ≤ (Rlp.Item.str (List.replicate n 0)).encode.length :=
      List.length_replicate.symm.trans_le (Rlp.Item.length_le_encode_str _)
    refine htx.trans ((Rlp.Item.length_encode_le_of_mem
      (List.mem_singleton.mpr rfl)).trans ?_)
    exact Rlp.Item.length_encode_le_of_mem (List.mem_cons_of_mem _ List.mem_cons_self)
  · have hheader := (heavyBlock n).header.weight_item_le
    have hroot : (heavyBlock n).header.txsRoot.length = 32 := Rlp.length_beBytes _ _
    have hhash : (heavyBlock n).header.qcHash.length = 32 := Bytes32.length_bytes _
    have hsets : (heavyBlock n).header.validatorsHash.length = 4
        ∧ (heavyBlock n).header.nextValidatorsHash.length = 4
        ∧ (heavyBlock n).header.appHash.length = 0 := ⟨rfl, rfl, rfl⟩
    have hqc : genesisQC.item.weight ≤ 200 := by decide +kernel
    have hweight : (heavyBlock n).item.weight
        = (heavyBlock n).header.item.weight + (n + 9 + 9 + genesisQC.item.weight) + 9 := by
      show Rlp.weightAll [_, .list [.str (List.replicate n 0)], genesisQC.item] + 9 = _
      simp only [Rlp.weightAll, Rlp.Item.weight, List.length_replicate, Nat.add_zero]
    have hle := (heavyBlock n).item.length_encode_le
    omega

/-- The proposal of the block, as amino writes it. -/
theorem marshal_heavyBlock {n : ℕ} (hn : n ≤ 1200000) : ∃ raw,
    amino.marshal (.proposal (proposal (heavyBlock n) 1)) = some raw
      ∧ n ≤ raw.length ∧ raw.length ≤ n + 700 := by
  have hblock := length_heavyBlock n
  generalize hsig : (proposal (heavyBlock n) 1).msgSignature = sig
  have hlength : sig.length = 33 := by
    rw [← hsig]
    show (Bytes32.bytes _ ++ [0]).length = 33
    rw [List.length_append, Bytes32.length_bytes]
    rfl
  have hfields : fields (.proposal (proposal (heavyBlock n) 1))
      = [none, some (.varint 1), some (.varint 1), Tagged.str (heavyBlock n).item.encode, none,
        Tagged.str sig] := by
    rw [← hsig]
    rfl
  have hsmall : ∀ {x : ℕ}, x < 128 → (Tagged.uvarint x).length ≤ 1 := fun h =>
    Tagged.length_uvarint_le (n := 0) (by simpa using h)
  have hkeys := And.intro (hsmall (x := 8 * 2) (by decide)) (hsmall (x := 8 * 3) (by decide))
  have hone := hsmall (x := 1) (by decide)
  have hraw := Tagged.length_encodeFields_str (k := 4) (n := 2) (by decide)
    (b := (heavyBlock n).item.encode) (by omega) [none, Tagged.str sig]
  have htail := Tagged.length_encodeFields_str (k := 6) (n := 0) (by decide) (b := sig)
    (by omega) []
  have hyears : InYears 0 := by decide
  refine ⟨_, amino_marshal (.proposal (proposal (heavyBlock n) 1)) hyears, ?_⟩
  rw [hfields]
  show _ ≤ (registered .proposal ++ (Tagged.uvarint (8 * 2) ++ Tagged.uvarint 1
      ++ (Tagged.uvarint (8 * 3) ++ Tagged.uvarint 1 ++ Tagged.encodeFields 4 _))).length
    ∧ (registered .proposal ++ (Tagged.uvarint (8 * 2) ++ Tagged.uvarint 1
      ++ (Tagged.uvarint (8 * 3) ++ Tagged.uvarint 1 ++ Tagged.encodeFields 4 _))).length ≤ _
  simp only [List.length_append]
  rw [show (registered .proposal).length = 4 from rfl]
  rw [show Tagged.encodeFields (4 + 1) [none, Tagged.str sig]
    = Tagged.encodeFields 6 [Tagged.str sig] from rfl] at hraw
  rw [show (Tagged.encodeFields (6 + 1) []).length = 0 from rfl] at htail
  omega

theorem encodeMsg_heavyBlock {n : ℕ} (hn : n ≤ 1200000) : ∃ raw,
    encodeMsg amino (.proposal (proposal (heavyBlock n) 1)) = .ok (.ok raw)
      ∧ n ≤ raw.length ∧ raw.length ≤ n + 700 := by
  obtain ⟨raw, hmarshal, hlength⟩ := marshal_heavyBlock hn
  have hsize : raw.length ≤ maxMsgSize := by
    unfold maxMsgSize
    omega
  exact ⟨raw, encodeMsg_eq_ok_iff.mpr ⟨hmarshal, hsize⟩, hlength⟩

/-- A proposal with a kilobyte of transactions is delivered. -/
theorem delivered_kilobyte : (List.replicate 20 7 : Bytes).length = 20
    ∧ Delivered amino (List.replicate 20 7) (.proposal (proposal (heavyBlock 1000) 1)) := by
  obtain ⟨rawMsg, hencode, -, hle⟩ := encodeMsg_heavyBlock (n := 1000) (by decide)
  refine ⟨rfl, (delivered_iff hencode rfl).mpr fun raw hraw => ?_⟩
  obtain rfl : rawMsg = raw :=
    Option.some.inj ((encodeMsg_eq_ok_iff.mp hencode).1.symm.trans hraw)
  exact hle.trans (by decide)

/-- **A proposal with a transaction of 1100000 bytes is encoded and not
delivered**: its envelope is not written. -/
theorem undelivered_megabyte : ∃ rawMsg,
    encodeMsg amino (.proposal (proposal (heavyBlock 1100000) 1)) = .ok (.ok rawMsg)
      ∧ (List.replicate 20 7 : Bytes).length = 20
      ∧ ConsensusEnvelope.marshalSSZ ⟨rawMsg, List.replicate 20 7⟩
        = .error (.bytesLengthFn "ConsensusEnvelope.Raw" rawMsg.length maxRawSize)
      ∧ ¬ Delivered amino (List.replicate 20 7) (.proposal (proposal (heavyBlock 1100000) 1)) := by
  obtain ⟨rawMsg, hencode, hge, -⟩ := encodeMsg_heavyBlock (n := 1100000) (by decide)
  have hlarge : maxRawSize < rawMsg.length := lt_of_lt_of_le (by decide) hge
  have hssz : ConsensusEnvelope.marshalSSZ ⟨rawMsg, List.replicate 20 7⟩
      = .error (.bytesLengthFn "ConsensusEnvelope.Raw" rawMsg.length maxRawSize) := by
    have haddr : (List.replicate 20 7 : Bytes).length = 20 := rfl
    unfold ConsensusEnvelope.marshalSSZ
    rw [if_neg (not_not.mpr haddr), if_pos hlarge]
  refine ⟨rawMsg, hencode, rfl, hssz, ?_⟩
  rintro ⟨rawMsg', data, hencode', hssz', -⟩
  obtain rfl : rawMsg' = rawMsg :=
    Except.ok.inj (Except.ok.inj (hencode'.symm.trans hencode))
  exact nomatch hssz.symm.trans hssz'

end Testnet

end LoragonBFT
