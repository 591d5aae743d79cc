import LoragonBFT.Codec
import LoragonBFT.Testnet

/-!
# What a message's digest says

A consensus message is signed over a digest of its fields, and the same digest
tells an incoming message from the ones already seen. Each of the four messages
lists its fields for the encoder by hand; there is no tag for the type.

Two things go wrong. The timestamp is a `time.Time`, which has no exported
field, and so contributes an empty list whatever the time: messages that differ
in the time alone have one digest. And a proposal without a timeout certificate
lists four fields – time, epoch, round, block – of the same shapes as the four
of a query – time, epoch, signer, last committed block: a proposal whose block
is 32 bytes long is a query of the validator with the number of its round.

`hashItem_eq_iff` says which messages are hashed alike.
-/

namespace LoragonBFT

/-! ## Fields as they are hashed -/

theorem uint64_inj {x y : UInt64} : Rlp.Item.uint x.toNat = .uint y.toNat ↔ x = y := by
  refine ⟨fun h => UInt64.toNat_inj.mp (Rlp.Item.uint_injOn x.toNat_lt y.toNat_lt h), ?_⟩
  rintro rfl
  rfl

theorem uint32_inj {x y : UInt32} : Rlp.Item.uint x.toNat = .uint y.toNat ↔ x = y := by
  have hlt : ∀ z : UInt32, z.toNat < 2 ^ 64 := fun z => lt_trans z.toNat_lt (by decide)
  refine ⟨fun h => UInt32.toNat_inj.mp (Rlp.Item.uint_injOn (hlt x) (hlt y) h), ?_⟩
  rintro rfl
  rfl

theorem bytes32_inj {x y : Bytes32} : Bytes32.bytes x = Bytes32.bytes y ↔ x = y :=
  Bytes32.bytes_injective.eq_iff

/-- **Bit arrays with one text** have one size and the same bits. -/
theorem BitArray.marshalJSON_eq_iff {bA bA' : BitArray} :
    bA.marshalJSON = bA'.marshalJSON ↔ bA.size = bA'.size ∧ ∀ i, bA.bit i = bA'.bit i := by
  rw [marshalJSON_eq, marshalJSON_eq, List.cons_inj_right, List.append_cancel_right_eq]
  constructor
  · intro htext
    have hwire : bA.wire = bA'.wire := by rw [wire, wire, htext]
    refine ⟨?_, fun i => ?_⟩
    · rw [← size_wire bA, hwire, size_wire]
    · rw [← bit_wire bA, hwire, bit_wire]
  · rintro ⟨hsize, hbits⟩
    unfold text
    rw [hsize, funext hbits]

/-- **Timeout certificates are hashed alike exactly if they say the same.** -/
theorem TimeoutCert.item_eq_iff {tc tc' : TimeoutCert} : tc.item = tc'.item ↔ tc.Same tc' := by
  have htext : (tc.bitArray.map BitArray.marshalJSON).getD []
        = (tc'.bitArray.map BitArray.marshalJSON).getD []
      ↔ tc.bitArray.isSome = tc'.bitArray.isSome
        ∧ ∀ bA bA', tc.bitArray = some bA → tc'.bitArray = some bA' →
          bA.size = bA'.size ∧ ∀ i, bA.bit i = bA'.bit i := by
    cases tc.bitArray with
    | none => cases tc'.bitArray <;> simp [BitArray.marshalJSON_eq]
    | some bA =>
      cases tc'.bitArray with
      | none => simp [BitArray.marshalJSON_eq]
      | some bA' => simpa using BitArray.marshalJSON_eq_iff
  unfold item
  rw [Rlp.Item.list.injEq]
  simp only [List.cons.injEq, uint64_inj, uint32_inj, Rlp.Item.str.injEq, bytes32_inj, htext,
    and_true]
  constructor
  · rintro ⟨hepoch, hround, ⟨harray, hbits⟩, hhash, hsig⟩
    exact ⟨hepoch, hround, hhash, hsig, harray, hbits⟩
  · rintro ⟨hepoch, hround, hhash, hsig, harray, hbits⟩
    exact ⟨hepoch, hround, ⟨harray, hbits⟩, hhash, hsig⟩

/-! ## Messages as they are hashed -/

/-- A proposal that is hashed like a query: it has no timeout certificate, and
its block is the 32 bytes of the last committed block. -/
structure PMProposalMessage.ReadsAsQuery (m : PMProposalMessage) (q : PMQueryMessage) : Prop where
  timeoutCert : m.timeoutCert = none
  epoch : m.epoch = q.epoch
  round : m.round = q.signerIndex
  rawBlock : m.rawBlock = Bytes32.bytes q.lastCommitted

namespace ConsensusMessage

/-- The types of message, `GetType`. -/
inductive Kind where
  | proposal
  | vote
  | timeout
  | query
deriving DecidableEq, Repr

/-- `GetType`. -/
def getType : ConsensusMessage → Kind
  | proposal _ => .proposal
  | vote _ => .vote
  | timeout _ => .timeout
  | query _ => .query

/-- The time a message was made. -/
def timestamp : ConsensusMessage → Time
  | proposal m => m.timestamp
  | vote m => m.timestamp
  | timeout m => m.timestamp
  | query m => m.timestamp

/-- The timeout certificate a message carries. -/
def timeoutCert : ConsensusMessage → Option TimeoutCert
  | proposal m => m.timeoutCert
  | vote _ => none
  | timeout _ => none
  | query _ => none

/-- A message without its signature. -/
def unsigned : ConsensusMessage → ConsensusMessage
  | proposal m => proposal { m with msgSignature := [] }
  | vote m => vote { m with msgSignature := [] }
  | timeout m => timeout { m with msgSignature := [] }
  | query m => query { m with msgSignature := [] }

/-- **Two messages are alike**: they agree on all that is hashed. -/
def Alike : ConsensusMessage → ConsensusMessage → Prop
  | proposal m, proposal m' =>
    m.epoch = m'.epoch ∧ m.round = m'.round ∧ m.rawBlock = m'.rawBlock
      ∧ Option.Rel TimeoutCert.Same m.timeoutCert m'.timeoutCert
  | vote m, vote m' =>
    m.epoch = m'.epoch ∧ m.signerIndex = m'.signerIndex ∧ m.voteRound = m'.voteRound
      ∧ m.voteBlockID = m'.voteBlockID ∧ m.voteSignature = m'.voteSignature
  | timeout m, timeout m' =>
    m.epoch = m'.epoch ∧ m.signerIndex = m'.signerIndex ∧ m.wishRound = m'.wishRound
      ∧ m.qcHigh = m'.qcHigh ∧ m.wishVoteHash = m'.wishVoteHash ∧ m.wishVoteSig = m'.wishVoteSig
      ∧ m.lastVoteRound = m'.lastVoteRound ∧ m.lastVoteBlockID = m'.lastVoteBlockID
      ∧ m.lastVoteSignature = m'.lastVoteSignature
  | query m, query m' =>
    m.epoch = m'.epoch ∧ m.signerIndex = m'.signerIndex ∧ m.lastCommitted = m'.lastCommitted
  | proposal m, query q => m.ReadsAsQuery q
  | query q, proposal m => m.ReadsAsQuery q
  | _, _ => False

/-- A proposal is hashed like a query exactly if it reads as one. -/
theorem hashItem_proposal_query {m : PMProposalMessage} {q : PMQueryMessage} :
    (proposal m).hashItem = (query q).hashItem ↔ m.ReadsAsQuery q := by
  unfold hashItem
  rw [Rlp.Item.list.injEq]
  constructor
  · intro h
    cases htc : m.timeoutCert with
    | none =>
      rw [htc] at h
      simp only [Option.map_none, Option.toList_none, List.append_nil, List.cons.injEq, uint64_inj,
        uint32_inj, Rlp.Item.str.injEq, and_true] at h
      exact ⟨htc, h.2.1, h.2.2.1, h.2.2.2⟩
    | some tc =>
      rw [htc] at h
      exact absurd (congrArg List.length h) (by simp)
  · rintro ⟨htc, hepoch, hround, hraw⟩
    rw [htc, hepoch, hround, hraw]
    rfl

/-- Timeout certificates at the end of a proposal. -/
theorem timeoutCert_items_eq_iff {tc tc' : Option TimeoutCert} :
    (tc.map TimeoutCert.item).toList = (tc'.map TimeoutCert.item).toList
      ↔ Option.Rel TimeoutCert.Same tc tc' := by
  cases tc with
  | none =>
    cases tc' with
    | none => exact ⟨fun _ => .none, fun _ => rfl⟩
    | some tc' => exact ⟨fun h => (nomatch h), fun h => nomatch h⟩
  | some tc =>
    cases tc' with
    | none => exact ⟨fun h => (nomatch h), fun h => nomatch h⟩
    | some tc' =>
      refine ⟨fun h => .some (TimeoutCert.item_eq_iff.mp (List.cons.inj h).1), fun h => ?_⟩
      cases h with
      | some hsame => rw [Option.map_some, TimeoutCert.item_eq_iff.mpr hsame]; rfl

/-- The number of fields that are hashed. -/
def fieldCount : ConsensusMessage → ℕ
  | proposal m => 4 + m.timeoutCert.toList.length
  | vote _ => 6
  | timeout _ => 10
  | query _ => 4

variable {m m' : ConsensusMessage}

theorem fieldCount_eq (h : m.hashItem = m'.hashItem) :
    m.fieldCount = m'.fieldCount := by
  have hlength : ∀ m : ConsensusMessage, ∃ items, m.hashItem = .list items
      ∧ items.length = m.fieldCount := by
    intro m
    cases m with
    | proposal m =>
      refine ⟨_, rfl, ?_⟩
      show _ = 4 + m.timeoutCert.toList.length
      cases m.timeoutCert <;> rfl
    | vote m => exact ⟨_, rfl, rfl⟩
    | timeout m => exact ⟨_, rfl, rfl⟩
    | query m => exact ⟨_, rfl, rfl⟩
  obtain ⟨items, hitems, hcount⟩ := hlength m
  obtain ⟨items', hitems', hcount'⟩ := hlength m'
  rw [hitems, hitems'] at h
  rw [← hcount, ← hcount', Rlp.Item.list.inj h]

/-- **Messages are hashed alike exactly if they are alike.** Votes and timeouts
have six and ten fields, and no other message has as many. -/
theorem hashItem_eq_iff (m m' : ConsensusMessage) : m.hashItem = m'.hashItem ↔ Alike m m' := by
  have hother : m.fieldCount ≠ m'.fieldCount → ¬ Alike m m' →
      (m.hashItem = m'.hashItem ↔ Alike m m') := fun hcount halike =>
    ⟨fun h => absurd (fieldCount_eq h) hcount, fun h => absurd h halike⟩
  have hfew : ∀ tc : Option TimeoutCert, tc.toList.length ≤ 1 := fun tc => by cases tc <;> simp
  cases m with
  | proposal m =>
    cases m' with
    | proposal m' =>
      unfold hashItem Alike
      simp only [timeItem, Rlp.Item.list.injEq, List.cons_append, List.nil_append, List.cons.injEq,
        uint64_inj, uint32_inj, Rlp.Item.str.injEq, timeoutCert_items_eq_iff, true_and]
    | vote m' => exact hother (by have := hfew m.timeoutCert; simp only [fieldCount]; omega) id
    | timeout m' => exact hother (by have := hfew m.timeoutCert; simp only [fieldCount]; omega) id
    | query m' => exact hashItem_proposal_query
  | vote m =>
    cases m' with
    | proposal m' =>
      exact hother (by have := hfew m'.timeoutCert; simp only [fieldCount]; omega) id
    | vote m' =>
      unfold hashItem Alike
      simp only [timeItem, Rlp.Item.list.injEq, List.cons.injEq, uint64_inj, uint32_inj,
        Rlp.Item.str.injEq, bytes32_inj, true_and, and_true]
    | timeout m' => exact hother (by simp [fieldCount]) id
    | query m' => exact hother (by simp [fieldCount]) id
  | timeout m =>
    cases m' with
    | proposal m' =>
      exact hother (by have := hfew m'.timeoutCert; simp only [fieldCount]; omega) id
    | vote m' => exact hother (by simp [fieldCount]) id
    | timeout m' =>
      unfold hashItem Alike
      simp only [timeItem, Rlp.Item.list.injEq, List.cons.injEq, uint64_inj, uint32_inj,
        Rlp.Item.str.injEq, bytes32_inj, true_and, and_true]
    | query m' => exact hother (by simp [fieldCount]) id
  | query m =>
    cases m' with
    | proposal m' => exact eq_comm.trans hashItem_proposal_query
    | vote m' => exact hother (by simp [fieldCount]) id
    | timeout m' => exact hother (by simp [fieldCount]) id
    | query m' =>
      unfold hashItem Alike
      simp only [timeItem, Rlp.Item.list.injEq, List.cons.injEq, uint64_inj, uint32_inj,
        Rlp.Item.str.injEq, bytes32_inj, true_and, and_true]

/-! ## When the digest tells everything -/

/-- `GetMsgHash` returns: the bits of the timeout certificate can be read. -/
def Hashable (m : ConsensusMessage) : Prop :=
  ∀ tc ∈ m.timeoutCert, ∀ bA ∈ tc.bitArray, ∃ text, bA.marshal = .ok text

/-- **The digest tells two messages apart**: if it is one, they are of one type
and agree on every field but the signature. -/
def DigestTells (H : Hashes) (m m' : ConsensusMessage) : Prop :=
  m.Hashable → m'.Hashable → m.getMsgHash H = m'.getMsgHash H → m.unsigned = m'.unsigned

/-- **What the digest does not tell is the same for both**: messages that are
alike have one type, one time, and one timeout certificate to the word. -/
def ToldApart (m m' : ConsensusMessage) : Prop :=
  m.Hashable → m'.Hashable → Alike m m' →
    m.getType = m'.getType ∧ m.timestamp = m'.timestamp ∧ m.timeoutCert = m'.timeoutCert

theorem rest_eq_of_unsigned_eq (h : m.unsigned = m'.unsigned) :
    m.getType = m'.getType ∧ m.timestamp = m'.timestamp ∧ m.timeoutCert = m'.timeoutCert := by
  cases m <;> cases m' <;> simp_all [unsigned, getType, timestamp, timeoutCert]

theorem unsigned_eq_of_alike (halike : Alike m m')
    (hrest : m.getType = m'.getType ∧ m.timestamp = m'.timestamp
      ∧ m.timeoutCert = m'.timeoutCert) : m.unsigned = m'.unsigned := by
  obtain ⟨htype, htime, hcert⟩ := hrest
  cases m with
  | proposal m =>
    cases m' with
    | proposal m' =>
      obtain ⟨_, _, _, _, _, _, _, rfl⟩ := m
      obtain ⟨_, _, _, _, _, _, _, rfl⟩ := m'
      obtain ⟨rfl, rfl, rfl, -⟩ := halike
      obtain rfl := htime
      obtain rfl := hcert
      rfl
    | vote m' => exact nomatch htype
    | timeout m' => exact nomatch htype
    | query m' => exact nomatch htype
  | vote m =>
    cases m' with
    | vote m' =>
      obtain ⟨⟩ := m
      obtain ⟨⟩ := m'
      obtain ⟨rfl, rfl, rfl, rfl, rfl⟩ := halike
      obtain rfl := htime
      rfl
    | proposal m' => exact nomatch htype
    | timeout m' => exact nomatch htype
    | query m' => exact nomatch htype
  | timeout m =>
    cases m' with
    | timeout m' =>
      obtain ⟨_, _, _, _, _, _, _, _, _, _, _, _, rfl⟩ := m
      obtain ⟨_, _, _, _, _, _, _, _, _, _, _, _, rfl⟩ := m'
      obtain ⟨rfl, rfl, rfl, rfl, rfl, rfl, rfl, rfl, rfl⟩ := halike
      obtain rfl := htime
      rfl
    | proposal m' => exact nomatch htype
    | vote m' => exact nomatch htype
    | query m' => exact nomatch htype
  | query m =>
    cases m' with
    | query m' =>
      obtain ⟨⟩ := m
      obtain ⟨⟩ := m'
      obtain ⟨rfl, rfl, rfl⟩ := halike
      obtain rfl := htime
      rfl
    | proposal m' => exact nomatch htype
    | vote m' => exact nomatch htype
    | timeout m' => exact nomatch htype

/-- **The digest tells two messages apart exactly if what it does not tell is
the same for both.** -/
theorem digestTells_iff {H : Hashes} {m m' : ConsensusMessage}
    (hH : H.blake2bRlp m.hashItem = H.blake2bRlp m'.hashItem → m.hashItem = m'.hashItem) :
    DigestTells H m m' ↔ ToldApart m m' := by
  have hhash : m.getMsgHash H = m'.getMsgHash H ↔ Alike m m' := by
    rw [← hashItem_eq_iff]
    exact ⟨hH, fun h => congrArg H.blake2bRlp h⟩
  unfold DigestTells ToldApart
  rw [hhash]
  exact ⟨fun h hm hm' halike => rest_eq_of_unsigned_eq (h hm hm' halike),
    fun h hm hm' halike => unsigned_eq_of_alike halike (h hm hm' halike)⟩

end ConsensusMessage

namespace Testnet

open ConsensusMessage

/-- A vote of the second validator, made and signed at will. -/
def voteAt (timestamp : Time) (msgSignature : Bytes) : PMVoteMessage :=
  ⟨timestamp, 1, 1, 4, 7, [5], msgSignature⟩

/-- A query, and the proposal that reads as it. -/
def queryOf (k : UInt32) : PMQueryMessage := ⟨0, 1, k, 7, []⟩

def proposalOf (round : UInt32) : PMProposalMessage :=
  ⟨0, 1, round, Bytes32.bytes 7, none, [], _, rfl⟩

/-- Votes that were signed twice have one digest and agree on the rest. -/
theorem digestTells_votes : DigestTells hashes (.vote (voteAt 3 [1])) (.vote (voteAt 3 [2])) :=
  (digestTells_iff fun _ => rfl).mpr fun _ _ _ => ⟨rfl, rfl, rfl⟩

/-- **The digest tells neither the time nor a proposal from a query**: two votes
made at different times have one digest, and so have a proposal of the second
round and a query of the third validator. -/
theorem one_digest_two_messages :
    ((ConsensusMessage.vote (voteAt 3 [])).getMsgHash hashes
        = (ConsensusMessage.vote (voteAt 4 [])).getMsgHash hashes
      ∧ (voteAt 3 []).timestamp ≠ (voteAt 4 []).timestamp)
    ∧ (ConsensusMessage.proposal (proposalOf 2)).getMsgHash hashes
        = (ConsensusMessage.query (queryOf 2)).getMsgHash hashes := by
  have halike : Alike (.vote (voteAt 3 [])) (.vote (voteAt 4 [])) := ⟨rfl, rfl, rfl, rfl, rfl⟩
  have hreads : (proposalOf 2).ReadsAsQuery (queryOf 2) := ⟨rfl, rfl, rfl, rfl⟩
  refine ⟨⟨?_, by decide⟩, ?_⟩
  · exact congrArg hashes.blake2bRlp ((hashItem_eq_iff _ _).mpr halike)
  · exact congrArg hashes.blake2bRlp (hashItem_proposal_query.mpr hreads)

end Testnet

end LoragonBFT
