import LoragonBFT.Chain
import LoragonBFT.Util.Tagged
import Mathlib.Data.List.Sort

/-!
# Epoch states and vote managers

An epoch state is the committee in force, the node's place in it, and the
votes collected so far. Votes are collected under a round and a block
identifier, timeout votes under an epoch and a round; once two thirds have
come in, the manager seals the key and hands out a certificate.

What a vote manager checks about a vote is only that its signature parses.
Whether the signature verifies is checked by `AddQCVote` and `AddTCVote`
before, against the block identifier and against the hash the vote brings
along.
-/

namespace LoragonBFT

/-- The libraries the consensus code calls. -/
structure Env where
  H : Hashes
  B : Bls
  /-- `cmttypes.NewValidatorSet`, which sorts its argument and panics on a
  list it does not accept. -/
  newValidatorSet : List Validator → Option ValidatorSet
  /-- `ValidatorSet.Hash`. -/
  validatorSetHash : ValidatorSet → Bytes
  /-- `crypto.Keccak256`. -/
  keccak256 : Bytes → Bytes
  /-- `cmttypes.MaxDataBytes` for the largest block, no evidence and a number
  of validators. -/
  maxDataBytes : ℕ → ℤ

/-! ## Collecting votes -/

/-- A map from signer index to signature. -/
abbrev VoteMap := List (UInt32 × Bytes × Bytes32)

/-- `votes[index] = &vote{Signature: sig, Hash: hash}`: the entry of an index
that is there is replaced. -/
def VoteMap.set (votes : VoteMap) (index : UInt32) (sig : Bytes) (hash : Bytes32) : VoteMap :=
  votes.filter (fun v => v.1 != index) ++ [(index, sig, hash)]

variable {sig : Bytes} {B : Bls} {round : UInt32} {blockID : Bytes32} {qc : Option QuorumCert}
  {es : EpochState}

theorem VoteMap.mem_set {votes : VoteMap} {index : UInt32} {hash : Bytes32}
    {v : UInt32 × Bytes × Bytes32} (h : v ∈ votes.set index sig hash) :
    v ∈ votes ∨ v = (index, sig, hash) := by
  rcases List.mem_append.mp h with hold | hnew
  · exact .inl (List.mem_filter.mp hold).1
  · exact .inr (List.mem_singleton.mp hnew)

/-- An index votes once. -/
theorem VoteMap.nodup_set {votes : VoteMap} (index : UInt32) (sig : Bytes) (hash : Bytes32)
    (h : (votes.map Prod.fst).Nodup) : ((votes.set index sig hash).map Prod.fst).Nodup := by
  unfold VoteMap.set
  rw [List.map_append, List.map_singleton]
  refine List.nodup_append.mpr ⟨h.sublist (List.filter_sublist.map _), by simp, ?_⟩
  intro i hi i' hi' heq
  obtain ⟨v, hv, rfl⟩ := List.mem_map.mp hi
  have hne := (List.mem_filter.mp hv).2
  rw [heq, List.mem_singleton.mp hi'] at hne
  simp at hne

/-- The loop that sets the bit of every voter. -/
def VoteMap.bitArray (votes : VoteMap) (committeeSize : UInt32) : Except Panic BitArray :=
  votes.foldlM (fun bA v => do return (← bA.setIndex v.1.toNat true).2) (.new committeeSize.toNat)

/-- `QCVoteManager`. -/
structure QCVoteManager where
  votes : UInt32 × Bytes32 → VoteMap
  sealed : UInt32 × Bytes32 → Bool
  committeeSize : UInt32

/-- `NewQCVoteManager`. -/
def QCVoteManager.new (committeeSize : UInt32) : QCVoteManager :=
  ⟨fun _ => [], fun _ => false, committeeSize⟩

/-- `QCVoteManager.Aggregate`. The signatures are summed, so the order in
which a Go map is read does not show. -/
def QCVoteManager.aggregate (B : Bls) (m : QCVoteManager) (round : UInt32) (blockID : Bytes32)
    (epoch : UInt64) : Except Panic QuorumCert := do
  let votes := m.votes (round, blockID)
  return { epoch, round, blockID, bitArray := ← votes.bitArray m.committeeSize,
           aggSig := B.aggregateSignatures (votes.map (fun v => v.2.1)) }

/-- `QCVoteManager.AddVote`, with the manager it leaves behind. -/
def QCVoteManager.addVote (B : Bls) (m : QCVoteManager) (index : UInt32) (epoch : UInt64)
    (round : UInt32) (blockID : Bytes32) (sig : Bytes) :
    Except Panic (Option QuorumCert × QCVoteManager) :=
  if m.sealed (round, blockID) then .ok (none, m)
  else if sig.length ≤ 0 then .ok (none, m)
  else if !B.validSignature sig then .ok (none, m)
  else
    let votes := (m.votes (round, blockID)).set index sig blockID
    let m := { m with votes := Function.update m.votes (round, blockID) votes }
    if majorityTwoThird (UInt32.ofNat votes.length) m.committeeSize then do
      let m := { m with sealed := Function.update m.sealed (round, blockID) true }
      return (some (← m.aggregate B round blockID epoch), m)
    else .ok (none, m)

theorem QCVoteManager.aggregate_eq {m : QCVoteManager} {epoch : UInt64} {q : QuorumCert}
    (h : m.aggregate B round blockID epoch = .ok q) :
    q.blockID = blockID ∧ q.round = round ∧ q.epoch = epoch := by
  unfold aggregate at h
  dsimp only at h
  obtain ⟨bA, -, h⟩ := Except.exists_of_bind_eq_ok h
  rw [← Except.ok.inj h]
  exact ⟨rfl, rfl, rfl⟩

/-- **What `AddVote` can do**: nothing, note the vote, or note it as the one
that completes a certificate, which seals the key. -/
theorem QCVoteManager.addVote_cases {m m' : QCVoteManager} {index : UInt32} {epoch : UInt64}
    (h : m.addVote B index epoch round blockID sig = .ok (qc, m')) :
    qc = none ∧ m' = m
      ∨ m.sealed (round, blockID) = false ∧ m'.committeeSize = m.committeeSize
        ∧ m'.votes = Function.update m.votes (round, blockID)
          ((m.votes (round, blockID)).set index sig blockID)
        ∧ (qc = none ∧ m'.sealed = m.sealed
            ∧ majorityTwoThird (UInt32.ofNat (m'.votes (round, blockID)).length) m.committeeSize
              = false
          ∨ ∃ q, qc = some q ∧ (q.blockID = blockID ∧ q.round = round ∧ q.epoch = epoch)
            ∧ m'.sealed = Function.update m.sealed (round, blockID) true
            ∧ majorityTwoThird (UInt32.ofNat (m'.votes (round, blockID)).length) m.committeeSize
              = true) := by
  unfold addVote at h
  split at h
  · obtain ⟨hqc, hm⟩ := Prod.mk.inj (Except.ok.inj h)
    exact .inl ⟨hqc.symm, hm.symm⟩
  rename_i hopen
  split at h
  · obtain ⟨hqc, hm⟩ := Prod.mk.inj (Except.ok.inj h)
    exact .inl ⟨hqc.symm, hm.symm⟩
  split at h
  · obtain ⟨hqc, hm⟩ := Prod.mk.inj (Except.ok.inj h)
    exact .inl ⟨hqc.symm, hm.symm⟩
  simp only at h
  have hopen' : m.sealed (round, blockID) = false := Bool.eq_false_iff.mpr hopen
  split at h
  · rename_i hmajority
    simp only [bind, Except.bind] at h
    split at h
    · exact nomatch h
    · rename_i qc' hqc'
      obtain ⟨rfl, rfl⟩ := Prod.mk.inj (Except.ok.inj h)
      exact .inr ⟨hopen', rfl, rfl,
        .inr ⟨qc', rfl, aggregate_eq hqc', rfl, by simpa using hmajority⟩⟩
  · rename_i hminority
    obtain ⟨rfl, rfl⟩ := Prod.mk.inj (Except.ok.inj h)
    exact .inr ⟨hopen', rfl, rfl, .inl ⟨rfl, rfl, by simpa using hminority⟩⟩

/-- `TCVoteManager`. -/
structure TCVoteManager where
  votes : UInt64 × UInt32 → VoteMap
  sealed : UInt64 × UInt32 → Bool
  committeeSize : UInt32

/-- `NewTCVoteManager`. -/
def TCVoteManager.new (committeeSize : UInt32) : TCVoteManager :=
  ⟨fun _ => [], fun _ => false, committeeSize⟩

/-- `TCVoteManager.Aggregate`. The certificate takes its hash from the vote
that was read last. -/
def TCVoteManager.aggregate (B : Bls) (m : TCVoteManager) (epoch : UInt64) (round : UInt32) :
    Except Panic TimeoutCert := do
  let votes := m.votes (epoch, round)
  return { epoch, round, bitArray := some (← votes.bitArray m.committeeSize),
           msgHash := (votes.getLast?.map (fun v => v.2.2)).getD 0,
           aggSig := B.aggregateSignatures (votes.map (fun v => v.2.1)) }

/-- `TCVoteManager.AddVote`, with the manager it leaves behind. -/
def TCVoteManager.addVote (B : Bls) (m : TCVoteManager) (index : UInt32) (epoch : UInt64)
    (round : UInt32) (sig : Bytes) (hash : Bytes32) :
    Except Panic (Option TimeoutCert × TCVoteManager) :=
  if m.sealed (epoch, round) then .ok (none, m)
  else if !B.validSignature sig then .ok (none, m)
  else
    let votes := (m.votes (epoch, round)).set index sig hash
    let m := { m with votes := Function.update m.votes (epoch, round) votes }
    if majorityTwoThird (UInt32.ofNat votes.length) m.committeeSize then do
      let m := { m with sealed := Function.update m.sealed (epoch, round) true }
      return (some (← m.aggregate B epoch round), m)
    else .ok (none, m)

/-! ## Epoch states -/

/-- `consensus.EpochState`. -/
structure EpochState where
  epoch : UInt64
  startKBlockID : Bytes32
  committee : ValidatorSet
  inCommittee : Bool
  /-- The node's place in the committee, `-1` outside it. -/
  index : ℤ
  qcVoteManager : QCVoteManager
  tcVoteManager : TCVoteManager
  pending : Bool

/-- The loop that looks for the node's own key: the last place it stands
at. -/
def committeeIndex (committee : ValidatorSet) (myPubKey : Bytes) : ℤ :=
  committee.validators.zipIdx.foldl
    (fun index v => if v.1.pubKey.bytes = myPubKey then (v.2 : ℤ) else index) (-1)

/-- The block that started the epoch a leaf is in. -/
def epochKBlock (c : Chain) (leaf : Block) : Option Block :=
  if leaf.isKBlock then some leaf else c.getTrunkBlock leaf.header.lastKBlock

/-- `ValidatorSetAdapter.GetByPubkey`. -/
def getByPubkey (vals : List Validator) (pubkeyBytes : Bytes) : Option Validator :=
  vals.find? (fun v => v.pubKey.bytes = pubkeyBytes)

/-- A nonce as `SortWithNonce` appends it to a key: a varint in a buffer of
`MaxVarintLen64` bytes. -/
def nonceBytes (nonce : UInt64) : Bytes :=
  (Tagged.uvarint nonce.toNat ++ List.replicate 10 0).take 10

/-- `ValidatorSortKey.SortKey`. -/
def Validator.sortKey (E : Env) (nonce : UInt64) (v : Validator) : Bytes :=
  E.keccak256 (v.pubKey.bytes ++ nonceBytes nonce)

/-- `ValidatorSetAdapter.SortWithNonce`. The validators are put in the order
of their sort keys, one after the other, and are then handed to
`NewValidatorSet`, which sorts them itself. -/
def sortWithNonce (E : Env) (vals : List Validator) (nonce : UInt64) : Option ValidatorSet :=
  let sortKeys := vals.foldl (fun sorted v =>
    sorted.orderedInsert (fun v w => v.sortKey E nonce ≤ w.sortKey E nonce) v) []
  E.newValidatorSet (sortKeys.filterMap (fun v => getByPubkey vals v.pubKey.bytes))

/-- `NewEpochState`: `none` is the error. The set `SortWithNonce` returns is
not used, so the committee is the stored set as `NewValidatorSet` sorts it. -/
def newEpochState (E : Env) (c : Chain) (leaf : Block) (myPubKey : Bytes) :
    Except Panic (Option EpochState) :=
  match epochKBlock c leaf with
  | none => .ok none
  | some kblk =>
    match c.getNextValidatorSet kblk.number with
    | none => .ok none
    | some vset =>
      match sortWithNonce E vset.validators kblk.header.nonce with
      | none => .error (.explicit "cannot create validator set")
      | some _ =>
        match E.newValidatorSet vset.validators with
        | none => .error (.explicit "cannot create validator set")
        | some committee =>
          let index := committeeIndex committee myPubKey
          .ok (some
            { epoch := kblk.epoch + 1
              startKBlockID := kblk.id E.H
              committee
              inCommittee := decide (0 ≤ index)
              index
              qcVoteManager := .new (UInt32.ofNat committee.size)
              tcVoteManager := .new (UInt32.ofNat committee.size)
              pending := false })

/-- `NewPendingEpochState`. Its vote managers are nil in the source and are
never used. -/
def newPendingEpochState (vset : Option ValidatorSet) (myPubKey : Bytes) (curEpoch : UInt64) :
    Except Err EpochState :=
  match vset with
  | none => .error .validatorSetNil
  | some committee =>
    let index := committeeIndex committee myPubKey
    .ok { epoch := curEpoch + 1
          startKBlockID := 0
          committee
          inCommittee := decide (0 ≤ index)
          index
          qcVoteManager := .new 0
          tcVoteManager := .new 0
          pending := true }

namespace EpochState

/-- `EpochState.CommitteeSize`. -/
def committeeSize (es : EpochState) : UInt32 := UInt32.ofNat es.committee.size

/-- `EpochState.GetValidatorByIndex`. -/
def getValidatorByIndex (es : EpochState) (index : ℤ) : Option Validator :=
  es.committee.getByIndex index

/-- `EpochState.GetMyself`. -/
def getMyself (es : EpochState) : Option Validator :=
  if es.inCommittee then es.committee.getByIndex es.index else none

/-- `EpochState.getRoundProposer`. An empty committee has a proposer without
a key, which no caller tells from none. -/
def getRoundProposer (es : EpochState) (round : UInt32) : Option Validator :=
  if es.committee.size = 0 then none
  else es.committee.getByIndex (round.toNat % es.committee.size : ℕ)

/-- The checks `AddQCVote` and `AddTCVote` share: the index must exist, the
signature and the key must parse, and the signature must verify. -/
def verifyVote (B : Bls) (es : EpochState) (signerIndex : UInt32) (hash : Bytes32) (sig : Bytes) :
    Except Panic Bool :=
  match es.committee.validators[signerIndex.toNat]? with
  | none => .error .indexOutOfRange
  | some v => .ok (B.validSignature sig && B.validPublicKey v.pubKey.bytes
      && B.verify v.pubKey.bytes hash sig)

/-- `EpochState.AddQCVote`, with the epoch state it leaves behind. -/
def addQCVote (B : Bls) (es : EpochState) (signerIndex round : UInt32) (blockID : Bytes32)
    (sig : Bytes) : Except Panic (Option QuorumCert × EpochState) := do
  if ← es.verifyVote B signerIndex blockID sig then
    let (qc, m) ← es.qcVoteManager.addVote B signerIndex es.epoch round blockID sig
    return (qc, { es with qcVoteManager := m })
  else return (none, es)

/-- `EpochState.AddTCVote`, with the epoch state it leaves behind. -/
def addTCVote (B : Bls) (es : EpochState) (signerIndex round : UInt32) (sig : Bytes)
    (hash : Bytes32) : Except Panic (Option TimeoutCert × EpochState) := do
  if ← es.verifyVote B signerIndex hash sig then
    let (tc, m) ← es.tcVoteManager.addVote B signerIndex es.epoch round sig hash
    return (tc, { es with tcVoteManager := m })
  else return (none, es)

variable {es' : EpochState} {signerIndex : UInt32}

/-- **Counting a vote.** Nothing but the vote manager changes, and it
changes only for a vote that verifies. -/
theorem addQCVote_cases (h : es.addQCVote B signerIndex round blockID sig = .ok (qc, es')) :
    qc = none ∧ es' = es
      ∨ es.verifyVote B signerIndex blockID sig = .ok true
        ∧ ∃ m, es.qcVoteManager.addVote B signerIndex es.epoch round blockID sig = .ok (qc, m)
          ∧ es' = { es with qcVoteManager := m } := by
  obtain ⟨valid, hverify, h⟩ := Except.exists_of_bind_eq_ok h
  cases valid with
  | false =>
    obtain ⟨hqc, hes⟩ := Prod.mk.inj (Except.ok.inj h)
    exact .inl ⟨hqc.symm, hes.symm⟩
  | true =>
    obtain ⟨⟨qc', m⟩, hadd, h⟩ := Except.exists_of_bind_eq_ok h
    obtain ⟨rfl, hes⟩ := Prod.mk.inj (Except.ok.inj h)
    exact .inr ⟨hverify, m, hadd, hes.symm⟩

theorem addQCVote_eq (h : es.addQCVote B signerIndex round blockID sig = .ok (qc, es')) :
    ∃ m, es' = { es with qcVoteManager := m } := by
  rcases addQCVote_cases h with ⟨-, rfl⟩ | ⟨-, m, -, rfl⟩
  · exact ⟨es'.qcVoteManager, rfl⟩
  · exact ⟨m, rfl⟩

/-- What a certificate completed by a vote is about. -/
theorem eq_of_addQCVote {qc : QuorumCert}
    (h : es.addQCVote B signerIndex round blockID sig = .ok (some qc, es')) :
    qc.blockID = blockID ∧ qc.round = round ∧ qc.epoch = es.epoch := by
  rcases addQCVote_cases h with ⟨hnone, -⟩ | ⟨-, m, hadd, -⟩
  · exact nomatch hnone
  rcases QCVoteManager.addVote_cases hadd with ⟨hnone, -⟩ | ⟨-, -, -, ⟨hnone, -⟩ | ⟨q, hq, hqc, -⟩⟩
  · exact nomatch hnone
  · exact nomatch hnone
  · exact Option.some.inj hq ▸ hqc

/-- Counting a timeout vote changes the timeout vote manager and nothing
else. -/
theorem addTCVote_eq {hash : Bytes32} {tc : Option TimeoutCert}
    (h : es.addTCVote B signerIndex round sig hash = .ok (tc, es')) :
    ∃ m, es' = { es with tcVoteManager := m } := by
  obtain ⟨valid, -, h⟩ := Except.exists_of_bind_eq_ok h
  cases valid with
  | false => exact ⟨es.tcVoteManager, (Prod.mk.inj (Except.ok.inj h)).2.symm⟩
  | true =>
    obtain ⟨⟨tc', m⟩, -, h⟩ := Except.exists_of_bind_eq_ok h
    exact ⟨m, (Prod.mk.inj (Except.ok.inj h)).2.symm⟩

end EpochState

/-- **What an epoch state is made of**: the block that ended the epoch before,
and the validators stored for the next one. -/
theorem newEpochState_eq {E : Env} {chain : Chain} {leaf : Block} {myPubKey : Bytes}
    (h : newEpochState E chain leaf myPubKey = .ok (some es)) :
    ∃ kblk vset, epochKBlock chain leaf = some kblk
      ∧ chain.getNextValidatorSet kblk.number = some vset
      ∧ E.newValidatorSet vset.validators = some es.committee ∧ es.epoch = kblk.epoch + 1
      ∧ es.index = committeeIndex es.committee myPubKey
      ∧ es.inCommittee = decide (0 ≤ es.index) ∧ es.qcVoteManager = .new es.committeeSize := by
  unfold newEpochState at h
  split at h
  · cases h
  rename_i kblk hkblk
  split at h
  · cases h
  rename_i vset hvset
  split at h
  · cases h
  split at h
  · cases h
  · rename_i committee hcommittee
    rw [← Option.some.inj (Except.ok.inj h)]
    exact ⟨kblk, vset, hkblk, hvset, hcommittee, rfl, rfl, rfl, rfl⟩

/-- A new epoch state has no votes. -/
theorem newEpochState_fresh {E : Env} {chain : Chain} {leaf : Block} {myPubKey : Bytes}
    (h : newEpochState E chain leaf myPubKey = .ok (some es)) :
    es.qcVoteManager = .new es.committeeSize := by
  obtain ⟨kblk, vset, -, -, -, -, -, -, hfresh⟩ := newEpochState_eq h
  exact hfresh

end LoragonBFT
