import Mathlib.Data.List.Nodup
import Mathlib.Data.List.Perm.Subperm
import LoragonBFT.QuorumSoundness

/-!
# What the votes of a committee make

A vote manager keeps, under each key, one vote for each signer, and turns
them into a certificate when there are enough: a bit array with the bit of
every voter, and the aggregate of their signatures. Whoever reads the
certificate knows nothing of the votes. They count the bits, collect the keys
of the members whose bit is set, in the order of the committee, and verify
the aggregate under these.

That the two sides agree is proved here, first for a table of votes, whatever
it is kept under, and then for the certificates `AddQCVote` returns over any
sequence of calls. The step lemma says what one call does to the votes under
its key: a vote that verifies is noted, the last one of a signer replaces the
one before, and the vote that completes the quorum seals the key. Since the
seal is never broken, a key makes one certificate.
-/

namespace LoragonBFT

/-- What is assumed of the aggregation of signatures. Nothing parses as a
signature that has no bytes, and if every signature of a list verifies on one
message under the key it comes with, the aggregate of the list verifies on
that message under these keys, in whatever order they are given. -/
structure Bls.Aggregates (B : Bls) : Prop where
  rejects_nil : B.validSignature [] = false
  complete : ∀ (votes : List (Bytes × Bytes)) (keys : List Bytes) (msg : Bytes32), votes ≠ [] →
    keys.Perm (votes.map Prod.fst) →
    (∀ v ∈ votes, B.validSignature v.2 = true ∧ B.verify v.1 msg v.2 = true) →
    B.validSignature (B.aggregateSignatures (votes.map Prod.snd)) = true
      ∧ B.fastAggregateVerify keys msg (B.aggregateSignatures (votes.map Prod.snd)) = true

/-! ## A table of votes -/

variable {index round : UInt32} {sig : Bytes} {hash blockID : Bytes32}
  {v : UInt32 × Bytes × Bytes32} {bA : BitArray}

namespace VoteMap

theorem mem_set_iff {votes : VoteMap} :
    v ∈ votes.set index sig hash ↔ v ∈ votes ∧ v.1 ≠ index ∨ v = (index, sig, hash) := by
  unfold set
  rw [List.mem_append, List.mem_filter, List.mem_singleton, bne_iff_ne]

/-- The loop that sets the bits, from any array on: it sets the bits of the
voters and no others. -/
theorem foldlM_setIndex (votes : VoteMap) (bA : BitArray)
    (hwords : bA.size ≤ 64 * bA.elems.length) (hlt : ∀ v ∈ votes, v.1.toNat < bA.size) :
    ∃ bA', votes.foldlM (fun bA v => do return (← bA.setIndex v.1.toNat true).2) bA
        = (.ok bA' : Except Panic BitArray)
      ∧ bA'.size = bA.size ∧ bA'.elems.length = bA.elems.length
      ∧ ∀ j, bA'.bit j = true ↔ bA.bit j = true ∨ ∃ v ∈ votes, v.1.toNat = j := by
  induction votes generalizing bA with
  | nil => exact ⟨bA, rfl, rfl, rfl, fun j => by simp⟩
  | cons v votes ih =>
    obtain ⟨⟨done, bA₁⟩, hset⟩ := BitArray.exists_setIndex hwords v.1.toNat true
    obtain ⟨hsize, helems, hbits⟩ := BitArray.bit_setIndex hset
    obtain ⟨bA', hfold, hsize', helems', hbits'⟩ := ih bA₁ (by rw [hsize, helems]; exact hwords)
      fun w hw => hsize ▸ hlt w (List.mem_cons_of_mem _ hw)
    refine ⟨bA', ?_, hsize'.trans hsize, helems'.trans helems, fun j => ?_⟩
    · rw [List.foldlM_cons, hset]
      exact hfold
    · rw [hbits' j, hbits j, decide_eq_true (hlt v List.mem_cons_self), Bool.true_and,
        Bool.or_eq_true, decide_eq_true_iff, List.exists_mem_cons_iff, or_assoc, eq_comm (a := j)]

variable (B : Bls) (committee : ValidatorSet)

/-- A table of votes that went through the checks of `AddQCVote` and
`AddTCVote`: a signer has one vote, and each vote verifies under the key at
the signer's place, on the hash it was noted with. -/
structure Checked (votes : VoteMap) : Prop where
  nodup : (votes.map Prod.fst).Nodup
  verified : ∀ v ∈ votes, ∃ val, committee.validators[v.1.toNat]? = some val
    ∧ B.validSignature v.2.1 = true ∧ B.validPublicKey val.pubKey.bytes = true
    ∧ B.verify val.pubKey.bytes v.2.2 v.2.1 = true

variable {B committee} {votes : VoteMap}

theorem Checked.nil : Checked B committee [] :=
  ⟨List.nodup_nil, fun _ hv => absurd hv List.not_mem_nil⟩

/-- **Noting a vote that verifies.** -/
theorem Checked.set (h : Checked B committee votes) {es : EpochState}
    (hcommittee : es.committee = committee) (hverify : es.verifyVote B index hash sig = .ok true) :
    Checked B committee (votes.set index sig hash) := by
  refine ⟨nodup_set index sig hash h.nodup, fun v hv => ?_⟩
  rcases mem_set hv with hold | rfl
  · exact h.verified v hold
  unfold EpochState.verifyVote at hverify
  rw [hcommittee] at hverify
  split at hverify
  · exact nomatch hverify
  · rename_i val hval
    obtain ⟨hparse, hsig⟩ := Bool.and_eq_true_iff.mp (Except.ok.inj hverify)
    obtain ⟨hvalid, hkey⟩ := Bool.and_eq_true_iff.mp hparse
    exact ⟨val, hval, hvalid, hkey, hsig⟩

theorem Checked.lt_size (h : Checked B committee votes) (hv : v ∈ votes) :
    v.1.toNat < committee.size := by
  obtain ⟨val, hval, -⟩ := h.verified v hv
  exact (List.getElem?_eq_some_iff.mp hval).1

/-- **The bits are those of the voters**, and there are as many as votes. -/
theorem Checked.bitArray (h : Checked B committee votes) (hn : committee.size < 2 ^ 32) :
    ∃ bA, votes.bitArray (UInt32.ofNat committee.size) = .ok bA
      ∧ bA.size = committee.size ∧ bA.size ≤ 64 * bA.elems.length
      ∧ (∀ j, bA.bit j = true ↔ ∃ v ∈ votes, v.1.toNat = j)
      ∧ ((List.range bA.size).filter bA.bit).Perm (votes.map (fun v => v.1.toNat)) := by
  have hsize : (UInt32.ofNat committee.size).toNat = committee.size :=
    UInt32.toNat_ofNat_of_lt' hn
  have hnew : (BitArray.new committee.size).size = committee.size := hsize
  have hwords : (BitArray.new committee.size).size
      ≤ 64 * (BitArray.new committee.size).elems.length := by
    rw [hnew]
    show _ ≤ 64 * (List.replicate _ _).length
    rw [List.length_replicate]
    omega
  obtain ⟨bA, hfold, hsize', helems, hbits⟩ := foldlM_setIndex votes (.new committee.size) hwords
    fun v hv => hnew.symm ▸ h.lt_size hv
  have hvoters : ∀ j, bA.bit j = true ↔ ∃ v ∈ votes, v.1.toNat = j := by
    intro j
    rw [hbits j, BitArray.bit_new]
    simp
  refine ⟨bA, ?_, hsize'.trans hnew, by rw [hsize', helems]; exact hwords, hvoters, ?_⟩
  · unfold VoteMap.bitArray
    rw [hsize]
    exact hfold
  · -- neither list has an entry twice, and they have the same entries
    have hmap : votes.map (fun v => v.1.toNat) = (votes.map Prod.fst).map UInt32.toNat := by
      rw [List.map_map]
      rfl
    have hnodup : (votes.map (fun v => v.1.toNat)).Nodup := by
      rw [hmap]
      exact List.Nodup.map (fun _ _ hij => UInt32.toNat.inj hij) h.nodup
    refine (List.perm_ext_iff_of_nodup (List.nodup_range.filter _) hnodup).mpr fun j => ?_
    rw [List.mem_filter, List.mem_range, List.mem_map, hvoters j, and_iff_right_iff_imp]
    rintro ⟨v, hv, rfl⟩
    rw [hsize', hnew]
    exact h.lt_size hv

/-- There are not more votes than members. -/
theorem Checked.length_le (h : Checked B committee votes) (hn : committee.size < 2 ^ 32) :
    votes.length ≤ committee.size := by
  obtain ⟨bA, -, hsize, -, -, hperm⟩ := h.bitArray hn
  calc votes.length = ((List.range bA.size).filter bA.bit).length := by
        rw [hperm.length_eq, List.length_map]
    _ ≤ bA.size := (List.length_filter_le _ _).trans_eq List.length_range
    _ = committee.size := hsize

/-- Distinct voters that are all there are not more than the votes. -/
theorem length_le_of_voters {voters : List UInt32} (hnodup : voters.Nodup)
    (h : ∀ index ∈ voters, ∃ v ∈ votes, v.1 = index) : voters.length ≤ votes.length := by
  have hsubset : voters ⊆ votes.map Prod.fst := by
    intro index hindex
    obtain ⟨v, hv, rfl⟩ := h index hindex
    exact List.mem_map_of_mem hv
  have hle := (hnodup.subperm hsubset).length_le
  rwa [List.length_map] at hle

/-- A vote takes the place of one vote at most: no voter is lost. -/
theorem exists_mem_set (hv : v ∈ votes) (index : UInt32) (sig : Bytes) (hash : Bytes32) :
    ∃ v' ∈ votes.set index sig hash, v'.1 = v.1 := by
  by_cases hsame : v.1 = index
  · exact ⟨_, mem_set_iff.mpr (.inr rfl), hsame.symm⟩
  · exact ⟨v, mem_set_iff.mpr (.inl ⟨hv, hsame⟩), rfl⟩

end VoteMap

/-- The key at a place of the committee. -/
def ValidatorSet.keyAt (committee : ValidatorSet) (j : ℕ) : Bytes :=
  ((committee.validators[j]?).map (fun v => v.pubKey.bytes)).getD []

/-- The places of the members whose bit is set are the bits that are set. -/
theorem places_signers (committee : ValidatorSet) (hsize : bA.size = committee.size) :
    (signers committee bA).map Prod.snd = (List.range bA.size).filter bA.bit := by
  unfold signers
  rw [show (fun v : Validator × ℕ => bA.bit v.2) = bA.bit ∘ Prod.snd from rfl,
    ← List.filter_map, List.zipIdx_map_snd, hsize, List.range_eq_range']
  rfl

/-- The keys of the members whose bit is set, place by place. -/
theorem map_signers (committee : ValidatorSet) (hsize : bA.size = committee.size) :
    (signers committee bA).map (fun v => v.1.pubKey.bytes)
      = ((List.range bA.size).filter bA.bit).map committee.keyAt := by
  have hkey : ∀ v ∈ signers committee bA, v.1.pubKey.bytes = committee.keyAt v.2 := by
    intro v hv
    have hval := List.mk_mem_zipIdx_iff_getElem?.mp (List.mem_filter.mp hv).1
    rw [ValidatorSet.keyAt, hval]
    rfl
  rw [List.map_congr_left hkey, ← places_signers committee hsize, List.map_map]
  rfl

namespace VoteMap

variable {B : Bls} {committee : ValidatorSet} {votes : VoteMap}

/-- The keys a reader of the bits collects are those of the voters, in the
order of the committee. -/
theorem perm_keys (hsize : bA.size = committee.size)
    (hperm : ((List.range bA.size).filter bA.bit).Perm (votes.map (fun v => v.1.toNat))) :
    ((signers committee bA).map (fun v => v.1.pubKey.bytes)).Perm
      (votes.map (fun v => committee.keyAt v.1.toNat)) := by
  rw [map_signers committee hsize]
  have hkeys := hperm.map committee.keyAt
  rw [List.map_map] at hkeys
  exact hkeys

/-- Each vote verifies under the key at the place of its signer. -/
theorem Checked.verify_keyAt (h : Checked B committee votes) (hv : v ∈ votes) :
    B.validSignature v.2.1 = true ∧ B.verify (committee.keyAt v.1.toNat) v.2.2 v.2.1 = true := by
  obtain ⟨val, hval, hvalid, -, hsig⟩ := h.verified v hv
  have hkey : committee.keyAt v.1.toNat = val.pubKey.bytes := by
    rw [ValidatorSet.keyAt, hval]
    rfl
  exact ⟨hvalid, hkey ▸ hsig⟩

/-- **The aggregate of the votes verifies under the keys a reader of the bits
collects**, in whatever order, if all votes are on one hash. -/
theorem Checked.verifies (h : Checked B committee votes) (hB : B.Aggregates)
    (hsize : bA.size = committee.size)
    (hperm : ((List.range bA.size).filter bA.bit).Perm (votes.map (fun v => v.1.toNat)))
    (hne : votes ≠ []) (hhash : ∀ v ∈ votes, v.2.2 = hash) (keys : List Bytes)
    (hkeys : keys.Perm ((signers committee bA).map (fun v => v.1.pubKey.bytes))) :
    B.validSignature (B.aggregateSignatures (votes.map (fun v => v.2.1))) = true
      ∧ B.fastAggregateVerify keys hash
        (B.aggregateSignatures (votes.map (fun v => v.2.1))) = true := by
  set pairs : List (Bytes × Bytes) := votes.map (fun v => (committee.keyAt v.1.toNat, v.2.1))
    with hpairs
  have hsigs : votes.map (fun v => v.2.1) = pairs.map Prod.snd := by
    rw [hpairs, List.map_map]
    rfl
  have hfst : votes.map (fun v => committee.keyAt v.1.toNat) = pairs.map Prod.fst := by
    rw [hpairs, List.map_map]
    rfl
  rw [hsigs]
  refine hB.complete pairs _ hash (fun hnil => hne (List.map_eq_nil_iff.mp hnil))
    (hkeys.trans (hfst ▸ perm_keys hsize hperm)) fun pair hpair => ?_
  obtain ⟨v, hv, rfl⟩ := List.mem_map.mp hpair
  have hverify := h.verify_keyAt hv
  rw [hhash v hv] at hverify
  exact hverify

end VoteMap

/-! ## Counting votes for blocks -/

/-- The arguments of a call of `AddQCVote`. -/
structure QCVote where
  signerIndex : UInt32
  round : UInt32
  blockID : Bytes32
  sig : Bytes
deriving DecidableEq, Repr

/-- What a vote is counted under. -/
def QCVote.key (w : QCVote) : UInt32 × Bytes32 := (w.round, w.blockID)

/-- A vote that verifies under the key at the place of its signer. -/
def QCVote.Valid (B : Bls) (es : EpochState) (w : QCVote) : Prop :=
  es.verifyVote B w.signerIndex w.blockID w.sig = .ok true

/-- A sequence of calls of `AddQCVote`, with what each returns and the epoch
state they leave behind. -/
def EpochState.addQCVotes (B : Bls) (es : EpochState) :
    List QCVote → Except Panic (List (Option QuorumCert) × EpochState)
  | [] => .ok ([], es)
  | w :: ws => do
    let (qc, es) ← es.addQCVote B w.signerIndex w.round w.blockID w.sig
    let (qcs, es) ← es.addQCVotes B ws
    return (qc :: qcs, es)

/-- **A certificate made of exactly the votes received** for a round and a
block: its bits are those of the signers of a valid one, they are enough,
`VerifyQC` accepts it for every block with that identifier, and its signature
verifies under the keys of the signers in whatever order. -/
structure QuorumCert.MadeOf (H : Hashes) (B : Bls) (es : EpochState) (received : List QCVote)
    (round : UInt32) (blockID : Bytes32) (qc : QuorumCert) : Prop where
  round_eq : qc.round = round
  blockID_eq : qc.blockID = blockID
  size_eq : qc.bitArray.size = es.committee.size
  signers : ∀ j, qc.bitArray.getIndex j = .ok true ↔
    ∃ w ∈ received, w.key = (round, blockID) ∧ w.Valid B es ∧ w.signerIndex.toNat = j
  quorum : ∃ c, qc.bitArray.count = .ok c
    ∧ majorityTwoThird (UInt32.ofNat c) es.committeeSize = true
  verifies : ∀ b : Block, b.id H = blockID → b.verifyQC H B qc es.committee = .ok (true, none)
  anyOrder : ∀ keys : List Bytes,
    keys.Perm ((LoragonBFT.signers es.committee qc.bitArray).map (fun v => v.1.pubKey.bytes)) →
      B.fastAggregateVerify keys blockID qc.aggSig = true

/-- What a manager that started without votes holds after some calls: under
every key votes that were checked, on the block of the key, and under a key
that is not sealed those of every signer of a valid vote. -/
structure QCVoteManager.Holds (B : Bls) (es : EpochState) (received : List QCVote)
    (m : QCVoteManager) : Prop where
  size_eq : m.committeeSize = es.committeeSize
  checked : ∀ key, VoteMap.Checked B es.committee (m.votes key)
  hash_eq : ∀ key, ∀ v ∈ m.votes key, v.2.2 = key.2
  voters : ∀ key, m.sealed key = false → ∀ i, (∃ v ∈ m.votes key, v.1 = i) ↔
    ∃ w ∈ received, w.key = key ∧ w.Valid B es ∧ w.signerIndex = i

namespace QCVoteManager

variable {H : Hashes} {B : Bls} {es : EpochState} {received : List QCVote} {m : QCVoteManager}
  {w : QCVote}

theorem Holds.new (B : Bls) (es : EpochState) : (new es.committeeSize).Holds B es [] where
  size_eq := rfl
  checked _ := .nil
  hash_eq _ _ hv := absurd hv List.not_mem_nil
  voters _ _ i := by simp [QCVoteManager.new]

/-- A call that notes nothing: the vote is not valid, or its key is
sealed. -/
theorem Holds.skip (h : m.Holds B es received)
    (hskip : w.Valid B es → m.sealed w.key = true) : m.Holds B es (received ++ [w]) := by
  refine ⟨h.size_eq, h.checked, h.hash_eq, fun key hopen i => ?_⟩
  rw [h.voters key hopen i]
  constructor
  · rintro ⟨w', hw', hrest⟩
    exact ⟨w', List.mem_append_left _ hw', hrest⟩
  · rintro ⟨w', hw', hkey, hvalid, hi⟩
    rcases List.mem_append.mp hw' with hold | hnew
    · exact ⟨w', hold, hkey, hvalid, hi⟩
    · rw [List.mem_singleton.mp hnew] at hkey hvalid
      rw [← hkey, hskip hvalid] at hopen
      exact nomatch hopen

/-- A call that notes a valid vote. -/
theorem Holds.note (h : m.Holds B es received) (hvalid : w.Valid B es) {m' : QCVoteManager}
    (hsize : m'.committeeSize = m.committeeSize)
    (hvotes : m'.votes = Function.update m.votes w.key
      ((m.votes w.key).set w.signerIndex w.sig w.blockID))
    (hsealed : ∀ key, m'.sealed key = false → m.sealed key = false) :
    m'.Holds B es (received ++ [w]) := by
  have hother : ∀ key, key ≠ w.key → m'.votes key = m.votes key := fun key hne => by
    rw [hvotes, Function.update_of_ne hne]
  have hkey : m'.votes w.key = (m.votes w.key).set w.signerIndex w.sig w.blockID := by
    rw [hvotes, Function.update_self]
  refine ⟨hsize.trans h.size_eq, fun key => ?_, fun key v hv => ?_, fun key hopen' i => ?_⟩
  · by_cases hne : key = w.key
    · rw [hne, hkey]
      exact (h.checked w.key).set rfl hvalid
    · exact hother key hne ▸ h.checked key
  · by_cases hne : key = w.key
    · subst hne
      rcases VoteMap.mem_set (hkey ▸ hv) with hold | rfl
      · exact h.hash_eq _ v hold
      · rfl
    · exact h.hash_eq key v (hother key hne ▸ hv)
  · have hreceived : (∃ w' ∈ received ++ [w], w'.key = key ∧ w'.Valid B es ∧ w'.signerIndex = i)
        ↔ (∃ v ∈ m.votes key, v.1 = i) ∨ w.key = key ∧ w.signerIndex = i := by
      rw [h.voters key (hsealed key hopen') i]
      constructor
      · rintro ⟨w', hw', hrest⟩
        rcases List.mem_append.mp hw' with hold | hnew
        · exact .inl ⟨w', hold, hrest⟩
        · rw [List.mem_singleton.mp hnew] at hrest
          exact .inr ⟨hrest.1, hrest.2.2⟩
      · rintro (⟨w', hw', hrest⟩ | ⟨hwkey, hi⟩)
        · exact ⟨w', List.mem_append_left _ hw', hrest⟩
        · exact ⟨w, List.mem_append_right _ List.mem_cons_self, hwkey, hvalid, hi⟩
    rw [hreceived]
    by_cases hne : key = w.key
    · subst hne
      rw [hkey]
      constructor
      · rintro ⟨v, hv, rfl⟩
        rcases VoteMap.mem_set hv with hold | rfl
        · exact .inl ⟨v, hold, rfl⟩
        · exact .inr ⟨rfl, rfl⟩
      · -- an earlier vote of the same signer is replaced, not lost
        rintro (⟨v, hv, rfl⟩ | ⟨-, rfl⟩)
        · exact VoteMap.exists_mem_set hv _ _ _
        · exact ⟨_, VoteMap.mem_set_iff.mpr (.inr rfl), rfl⟩
    · rw [hother key hne]
      exact ⟨.inl, fun hor => hor.resolve_right fun hw => hne hw.1.symm⟩

/-- **The certificate made of a quorum of votes.** -/
theorem Holds.aggregate (h : m.Holds B es received) (hB : B.Aggregates)
    (hn : es.committee.size < 2 ^ 32)
    (hbls : ∀ v ∈ es.committee.validators, v.pubKey.type = KeyType.bls12381) (epoch : UInt64)
    (hvoters : ∀ i, (∃ v ∈ m.votes (round, blockID), v.1 = i) ↔
      ∃ w ∈ received, w.key = (round, blockID) ∧ w.Valid B es ∧ w.signerIndex = i)
    (hmajority : majorityTwoThird (UInt32.ofNat (m.votes (round, blockID)).length)
      es.committeeSize = true) :
    ∃ qc, m.aggregate B round blockID epoch = .ok qc
      ∧ qc.MadeOf H B es received round blockID := by
  have hchecked := h.checked (round, blockID)
  have hhash := h.hash_eq (round, blockID)
  obtain ⟨bA, hbits, hsize, hwords, hset, hperm⟩ := hchecked.bitArray hn
  set votes := m.votes (round, blockID) with hvotes
  have hcount : bA.count = .ok votes.length := by
    rw [BitArray.count_eq_ok hwords, hperm.length_eq, List.length_map]
  have hne : votes ≠ [] := by
    rintro hnil
    rw [hnil, majorityTwoThird_iff] at hmajority
    have hpos := hmajority.1
    have hmany : 2 * es.committeeSize.toNat ≤ 0 := hmajority.2
    omega
  have hverify := hchecked.verifies hB hsize hperm hne hhash
  obtain ⟨keys, hkeys⟩ := exists_signerKeys (B := B) hcount 0 es.committee.validators
    fun v hv _ hbit => by
      obtain ⟨v', hv', hj⟩ := (hset v.2).mp hbit
      obtain ⟨val, hval, -, hkey, -⟩ := hchecked.verified v' hv'
      rw [hj, List.mk_mem_zipIdx_iff_getElem?.mp hv] at hval
      exact Option.some.inj hval ▸ hkey
  refine ⟨⟨epoch, round, blockID, B.aggregateSignatures (votes.map (fun v => v.2.1)), bA⟩, ?_, ?_⟩
  · unfold QCVoteManager.aggregate
    dsimp only
    rw [← hvotes, h.size_eq, EpochState.committeeSize, hbits]
    rfl
  · refine ⟨rfl, rfl, hsize, fun j => ?_, ⟨votes.length, hcount, hmajority⟩, fun b hb => ?_,
      fun keys hperm' => (hverify keys hperm').2⟩
    · show bA.getIndex j = _ ↔ _
      rw [BitArray.getIndex_eq_ok hwords, Except.ok.injEq, hset j]
      constructor
      · rintro ⟨v, hv, rfl⟩
        obtain ⟨w, hw, hkey, hwvalid, hi⟩ := (hvoters v.1).mp ⟨v, hv, rfl⟩
        exact ⟨w, hw, hkey, hwvalid, by rw [hi]⟩
      · rintro ⟨w, hw, hkey, hwvalid, rfl⟩
        obtain ⟨v, hv, hi⟩ := (hvoters w.signerIndex).mpr ⟨w, hw, hkey, hwvalid, rfl⟩
        exact ⟨v, hv, by rw [hi]⟩
    · refine Block.verifyQC_eq_true_iff.mpr
        (.inr ⟨votes.length, keys, hcount, hmajority, hkeys, hverify keys ?_⟩)
      rw [signerKeys_eq 0 es.committee.validators hbls hkeys]
      exact List.Perm.refl _

/-- **`AddVote` with a valid vote.** -/
theorem Holds.addVote (h : m.Holds B es received) (hB : B.Aggregates)
    (hn : es.committee.size < 2 ^ 32)
    (hbls : ∀ v ∈ es.committee.validators, v.pubKey.type = KeyType.bls12381)
    (hvalid : w.Valid B es) (hsig : B.validSignature w.sig = true) (epoch : UInt64) :
    ∃ qc m', m.addVote B w.signerIndex epoch w.round w.blockID w.sig = .ok (qc, m')
      ∧ m'.Holds B es (received ++ [w]) ∧ (∀ key, m.sealed key = true → m'.sealed key = true)
      ∧ ∀ q, qc = some q → q.MadeOf H B es (received ++ [w]) w.round w.blockID
        ∧ m.sealed w.key = false ∧ m'.sealed w.key = true := by
  have hlength : ¬ w.sig.length ≤ 0 := by
    intro hle
    have hnil : w.sig = [] := List.eq_nil_of_length_eq_zero (Nat.le_zero.mp hle)
    rw [hnil, hB.rejects_nil] at hsig
    exact nomatch hsig
  unfold QCVoteManager.addVote
  rw [show (w.round, w.blockID) = w.key from rfl]
  by_cases hsealed : m.sealed w.key = true
  · rw [if_pos hsealed]
    exact ⟨none, m, rfl, h.skip fun _ => hsealed, fun _ => id, fun _ hq => nomatch hq⟩
  have hopen : m.sealed w.key = false := Bool.eq_false_iff.mpr hsealed
  rw [if_neg hsealed, if_neg hlength, hsig, if_neg (by decide)]
  set votes := (m.votes w.key).set w.signerIndex w.sig w.blockID
  set noted : QCVoteManager := { m with votes := Function.update m.votes w.key votes }
  have hnoted : noted.Holds B es (received ++ [w]) := h.note hvalid rfl rfl fun _ => id
  by_cases hmajority : majorityTwoThird (UInt32.ofNat votes.length) m.committeeSize = true
  · set closed : QCVoteManager := { noted with sealed := Function.update m.sealed w.key true }
    have hclosed : closed.Holds B es (received ++ [w]) := by
      refine h.note hvalid rfl rfl fun key hkey => ?_
      by_cases hself : key = w.key
      · exact hself ▸ hopen
      · rw [← hkey]
        exact (Function.update_of_ne hself _ _).symm
    have hvotes : closed.votes (w.round, w.blockID) = votes := Function.update_self _ _ _
    have hsize : es.committeeSize = m.committeeSize := h.size_eq.symm
    obtain ⟨qc, hqc, hmade⟩ := hclosed.aggregate hB hn hbls epoch (hnoted.voters w.key hopen)
      (by rw [hvotes, hsize]; exact hmajority)
    have hseal : closed.sealed w.key = true := Function.update_self _ _ _
    refine ⟨some qc, closed, ?_, hclosed, fun key hkey => ?_, fun q hq => ?_⟩
    · rw [if_pos hmajority]
      show (do return (some (← closed.aggregate B w.round w.blockID epoch), closed)) = _
      rw [hqc]
      rfl
    · by_cases hself : key = w.key
      · exact hself ▸ hseal
      · rw [← hkey]
        exact Function.update_of_ne hself _ _
    · rw [← Option.some.inj hq]
      exact ⟨hmade, hopen, hseal⟩
  · rw [if_neg hmajority]
    exact ⟨none, noted, rfl, hnoted, fun _ => id, fun _ hq => nomatch hq⟩

end QCVoteManager

namespace EpochState

variable {H : Hashes} {B : Bls} {es : EpochState}

/-- Whether a vote is valid depends on the committee alone. -/
theorem verifyVote_congr {es' : EpochState} (h : es'.committee = es.committee) (index : UInt32)
    (hash : Bytes32) (sig : Bytes) :
    es'.verifyVote B index hash sig = es.verifyVote B index hash sig := by
  unfold verifyVote
  rw [h]

/-- A vote of a member is checked without a fault. -/
theorem exists_verifyVote (B : Bls) (es : EpochState) (hindex : index.toNat < es.committee.size)
    (hash : Bytes32) (sig : Bytes) :
    ∃ valid, es.verifyVote B index hash sig = .ok valid := by
  unfold verifyVote
  rw [List.getElem?_eq_getElem hindex]
  exact ⟨_, rfl⟩

theorem validSignature_of_verifyVote (h : es.verifyVote B index hash sig = .ok true) :
    B.validSignature sig = true := by
  unfold verifyVote at h
  split at h
  · exact nomatch h
  · exact (Bool.and_eq_true_iff.mp (Bool.and_eq_true_iff.mp (Except.ok.inj h)).1).1

/-- **One call.** What the manager holds stays what was received, a seal
stays, and a certificate that is returned is made of the votes received and
seals a key that was not sealed. -/
theorem addQCVote_holds (hB : B.Aggregates) (hn : es.committee.size < 2 ^ 32)
    (hbls : ∀ v ∈ es.committee.validators, v.pubKey.type = KeyType.bls12381)
    {cur : EpochState} (hcommittee : cur.committee = es.committee) {received : List QCVote}
    (h : cur.qcVoteManager.Holds B es received) {w : QCVote}
    (hindex : w.signerIndex.toNat < es.committee.size) :
    ∃ qc next, cur.addQCVote B w.signerIndex w.round w.blockID w.sig = .ok (qc, next)
      ∧ next.committee = es.committee ∧ next.qcVoteManager.Holds B es (received ++ [w])
      ∧ (∀ key, cur.qcVoteManager.sealed key = true → next.qcVoteManager.sealed key = true)
      ∧ ∀ q, qc = some q → q.MadeOf H B es (received ++ [w]) w.round w.blockID
        ∧ cur.qcVoteManager.sealed w.key = false ∧ next.qcVoteManager.sealed w.key = true := by
  obtain ⟨valid, hverify⟩ := exists_verifyVote B es hindex w.blockID w.sig
  unfold addQCVote
  rw [verifyVote_congr hcommittee, hverify]
  cases valid with
  | false =>
    refine ⟨none, cur, rfl, hcommittee, h.skip fun hvalid => ?_, fun _ => id, fun _ hq =>
      nomatch hq⟩
    rw [QCVote.Valid, hverify] at hvalid
    exact nomatch hvalid
  | true =>
    obtain ⟨qc, m, hadd, hholds, hseals, hmade⟩ := h.addVote hB hn hbls hverify
      (validSignature_of_verifyVote hverify) cur.epoch
    refine ⟨qc, { cur with qcVoteManager := m }, ?_, hcommittee, hholds, hseals, hmade⟩
    simp only [bind, Except.bind, if_true, hadd]
    rfl

/-- **A sequence of calls** on an epoch state that holds what was received so
far: none of them faults, each certificate is made of the votes received up to
then and is for a key that was not sealed, and no two are for one key. -/
theorem addQCVotes_holds (hB : B.Aggregates) (hn : es.committee.size < 2 ^ 32)
    (hbls : ∀ v ∈ es.committee.validators, v.pubKey.type = KeyType.bls12381)
    (calls : List QCVote) (hindex : ∀ w ∈ calls, w.signerIndex.toNat < es.committee.size)
    {cur : EpochState} (hcommittee : cur.committee = es.committee) {received : List QCVote}
    (h : cur.qcVoteManager.Holds B es received) :
    ∃ qcs last, cur.addQCVotes B calls = .ok (qcs, last) ∧ ∀ (n : ℕ) (qc : QuorumCert),
      qcs[n]? = some (some qc) →
      (∃ w, calls[n]? = some w
        ∧ qc.MadeOf H B es (received ++ calls.take (n + 1)) w.round w.blockID)
      ∧ cur.qcVoteManager.sealed (qc.round, qc.blockID) = false
      ∧ ∀ (n' : ℕ) (qc' : QuorumCert), qcs[n']? = some (some qc') → n' ≠ n →
        (qc'.round, qc'.blockID) ≠ (qc.round, qc.blockID) := by
  induction calls generalizing cur received with
  | nil => exact ⟨[], cur, rfl, fun n qc hqc => nomatch hqc⟩
  | cons w ws ih =>
    obtain ⟨first, next, hcall, hcommittee', hholds, hseals, hmade⟩ :=
      addQCVote_holds (H := H) hB hn hbls hcommittee h (hindex w List.mem_cons_self)
    obtain ⟨qcs, last, hcalls, hrest⟩ := ih (fun w' hw' => hindex w' (List.mem_cons_of_mem _ hw'))
      hcommittee' hholds
    -- what the first call returns is for its own key, which is sealed from then on
    have hfirst : ∀ q, first = some q → q.MadeOf H B es (received ++ [w]) w.round w.blockID
        ∧ cur.qcVoteManager.sealed (q.round, q.blockID) = false
        ∧ next.qcVoteManager.sealed (q.round, q.blockID) = true := by
      intro q hq
      obtain ⟨hq', hopen, hseal⟩ := hmade q hq
      have hkey : (q.round, q.blockID) = w.key := by
        rw [hq'.round_eq, hq'.blockID_eq]
        rfl
      exact ⟨hq', hkey ▸ hopen, hkey ▸ hseal⟩
    refine ⟨first :: qcs, last, ?_, fun n qc hqc => ?_⟩
    · unfold addQCVotes
      rw [hcall]
      show (do let (qcs, es) ← next.addQCVotes B ws; return (first :: qcs, es)) = _
      rw [hcalls]
      rfl
    cases n with
    | zero =>
      obtain ⟨hqc', hopen, hseal⟩ := hfirst qc (Option.some.inj hqc)
      refine ⟨⟨w, rfl, by simpa using hqc'⟩, hopen, fun n' qc' hn' hne heq => ?_⟩
      cases n' with
      | zero => exact hne rfl
      | succ n' =>
        rw [← heq, (hrest n' qc' hn').2.1] at hseal
        exact nomatch hseal
    | succ n =>
      obtain ⟨⟨w', hw', hqc'⟩, hopen, hunique⟩ := hrest n qc hqc
      refine ⟨⟨w', hw', ?_⟩, ?_, fun n' qc' hn' hne heq => ?_⟩
      · rwa [List.append_assoc, List.singleton_append] at hqc'
      · by_contra hsealed
        rw [hseals _ (Bool.eq_true_of_not_eq_false hsealed)] at hopen
        exact nomatch hopen
      · cases n' with
        | zero =>
          have hseal := (hfirst qc' (Option.some.inj hn')).2.2
          rw [heq, hopen] at hseal
          exact nomatch hseal
        | succ n' => exact hunique n' qc' hn' (fun h => hne (congrArg _ h)) heq

/-- **Every certificate that is formed is valid, exact and unique.** On a
fresh epoch state of a committee with BLS keys, no sequence of calls of
`AddQCVote` faults. Each certificate returned is made of exactly the valid
votes received up to then for the round and the block it was called with, and
no other call returns one for the same round and block. -/
theorem formed_valid_exact_unique (hB : B.Aggregates) (hn : es.committee.size < 2 ^ 32)
    (hbls : ∀ v ∈ es.committee.validators, v.pubKey.type = KeyType.bls12381)
    (hfresh : es.qcVoteManager = .new es.committeeSize) (calls : List QCVote)
    (hindex : ∀ w ∈ calls, w.signerIndex.toNat < es.committee.size) :
    ∃ qcs last, es.addQCVotes B calls = .ok (qcs, last)
      ∧ ∀ (n : ℕ) (qc : QuorumCert), qcs[n]? = some (some qc) →
        (∃ w, calls[n]? = some w
          ∧ qc.MadeOf H B es (calls.take (n + 1)) w.round w.blockID)
        ∧ ∀ (n' : ℕ) (qc' : QuorumCert), qcs[n']? = some (some qc') → n' ≠ n →
          (qc'.round, qc'.blockID) ≠ (qc.round, qc.blockID) := by
  have hholds : es.qcVoteManager.Holds B es [] := hfresh ▸ .new B es
  obtain ⟨qcs, last, hcalls, hformed⟩ := addQCVotes_holds (H := H) hB hn hbls calls hindex rfl
    hholds
  refine ⟨qcs, last, hcalls, fun n qc hqc => ?_⟩
  obtain ⟨hmade, -, hunique⟩ := hformed n qc hqc
  exact ⟨hmade, hunique⟩

end EpochState

/-! ## Votes that are not lost

The votes of a node come in among other messages, and between two of them it
may do anything but start a new epoch state. What is needed then is what one
call does to every key, whichever vote it is called with. -/

namespace EpochState

variable {B : Bls} {es es' : EpochState}

/-- What holds of every epoch state a node uses: the votes under a key were
checked, and under a key that is not sealed there are not enough of them. -/
structure Tidy (B : Bls) (es : EpochState) : Prop where
  size_eq : es.qcVoteManager.committeeSize = es.committeeSize
  checked : ∀ key, VoteMap.Checked B es.committee (es.qcVoteManager.votes key)
  minority : ∀ key, es.qcVoteManager.sealed key = false →
    majorityTwoThird (UInt32.ofNat (es.qcVoteManager.votes key).length) es.committeeSize = false

theorem Tidy.fresh (h : es.qcVoteManager = .new es.committeeSize) : es.Tidy B := by
  refine ⟨by rw [h]; rfl, fun key => by rw [h]; exact .nil, fun key _ => ?_⟩
  rw [h, Bool.eq_false_iff]
  intro hmajority
  obtain ⟨hpos, hmany⟩ := majorityTwoThird_iff.mp hmajority
  have hmany : 2 * es.committeeSize.toNat ≤ 0 := hmany
  omega

/-- **One call keeps the votes in order.** -/
theorem Tidy.addQCVote (h : es.Tidy B) {qc : Option QuorumCert}
    (hcall : es.addQCVote B index round blockID sig = .ok (qc, es')) :
    es'.Tidy B := by
  rcases addQCVote_cases hcall with ⟨-, rfl⟩ | ⟨hverify, m, hadd, rfl⟩
  · exact h
  rcases QCVoteManager.addVote_cases hadd with ⟨-, rfl⟩ | ⟨hopen, hsize, hvotes, hseal⟩
  · exact h
  have hother : ∀ key, key ≠ (round, blockID) → m.votes key = es.qcVoteManager.votes key :=
    fun key hne => by rw [hvotes, Function.update_of_ne hne]
  refine ⟨hsize.trans h.size_eq, fun key => ?_, fun key hkey => ?_⟩
  · by_cases hne : key = (round, blockID)
    · subst hne
      show VoteMap.Checked B es.committee (m.votes _)
      rw [hvotes, Function.update_self]
      exact (h.checked _).set rfl hverify
    · exact (hother key hne).symm ▸ h.checked key
  · show majorityTwoThird (UInt32.ofNat (m.votes key).length) es.committeeSize = false
    by_cases hne : key = (round, blockID)
    · subst hne
      rcases hseal with ⟨-, -, hminority⟩ | ⟨q, -, -, hsealed, -⟩
      · rwa [h.size_eq] at hminority
      · have hkey' : m.sealed (round, blockID) = false := hkey
        rw [hsealed, Function.update_self] at hkey'
        exact nomatch hkey'
    · rw [hother key hne]
      refine h.minority key ?_
      have hkey' : m.sealed key = false := hkey
      rcases hseal with ⟨-, hsame, -⟩ | ⟨q, -, -, hsealed, -⟩
      · rwa [hsame] at hkey'
      · rwa [hsealed, Function.update_of_ne hne] at hkey'

/-- **What one call does to every key.** No voter is lost and no seal broken,
and a seal is set exactly when a certificate is returned for its key. -/
theorem addQCVote_tally {qc : Option QuorumCert}
    (hcall : es.addQCVote B index round blockID sig = .ok (qc, es')) :
    (∀ key, ∀ v ∈ es.qcVoteManager.votes key, ∃ v' ∈ es'.qcVoteManager.votes key, v'.1 = v.1)
      ∧ (∀ key, es'.qcVoteManager.sealed key = true ↔ es.qcVoteManager.sealed key = true
        ∨ key = (round, blockID) ∧ qc.isSome)
      ∧ (qc.isSome → es.qcVoteManager.sealed (round, blockID) = false) := by
  rcases addQCVote_cases hcall with ⟨rfl, rfl⟩ | ⟨-, m, hadd, rfl⟩
  · exact ⟨fun _ v hv => ⟨v, hv, rfl⟩, fun _ => by simp, fun h => nomatch h⟩
  rcases QCVoteManager.addVote_cases hadd with ⟨rfl, rfl⟩ | ⟨hopen, -, hvotes, hseal⟩
  · exact ⟨fun _ v hv => ⟨v, hv, rfl⟩, fun _ => by simp, fun h => nomatch h⟩
  refine ⟨fun key v hv => ?_, fun key => ?_, fun _ => hopen⟩
  · show ∃ v' ∈ m.votes key, v'.1 = v.1
    rw [hvotes, Function.update_apply]
    split
    · rename_i hkey
      subst hkey
      exact VoteMap.exists_mem_set hv _ _ _
    · exact ⟨v, hv, rfl⟩
  · show m.sealed key = true ↔ _
    rcases hseal with ⟨rfl, hsame, -⟩ | ⟨q, rfl, -, hsealed, -⟩
    · simp [hsame]
    · rw [hsealed, Function.update_apply]
      split <;> simp_all

/-- **A valid vote is counted.** The call does not fault, and the voter is
noted unless the key is sealed. -/
theorem Tidy.exists_addQCVote (h : es.Tidy B) (hnil : B.validSignature [] = false)
    (hn : es.committee.size < 2 ^ 32) (round : UInt32)
    (hvalid : es.verifyVote B index blockID sig = .ok true) :
    ∃ qc es', es.addQCVote B index round blockID sig = .ok (qc, es')
      ∧ (es'.qcVoteManager.sealed (round, blockID) = true
        ∨ ∃ v ∈ es'.qcVoteManager.votes (round, blockID), v.1 = index) := by
  have hsig := validSignature_of_verifyVote hvalid
  have hlength : ¬ sig.length ≤ 0 := by
    intro hle
    rw [List.eq_nil_of_length_eq_zero (Nat.le_zero.mp hle), hnil] at hsig
    exact nomatch hsig
  suffices hadd : ∃ qc m, es.qcVoteManager.addVote B index es.epoch round blockID sig = .ok (qc, m)
      ∧ (m.sealed (round, blockID) = true ∨ ∃ v ∈ m.votes (round, blockID), v.1 = index) by
    obtain ⟨qc, m, hadd, houtcome⟩ := hadd
    refine ⟨qc, { es with qcVoteManager := m }, ?_, houtcome⟩
    unfold EpochState.addQCVote
    simp only [hvalid, bind, Except.bind, if_true, hadd]
    rfl
  unfold QCVoteManager.addVote
  by_cases hsealed : es.qcVoteManager.sealed (round, blockID) = true
  · rw [if_pos hsealed]
    exact ⟨none, es.qcVoteManager, rfl, .inl hsealed⟩
  rw [if_neg hsealed, if_neg hlength, hsig, if_neg (by decide)]
  set votes := (es.qcVoteManager.votes (round, blockID)).set index sig blockID
  have hvoter : ∃ v ∈ votes, v.1 = index := ⟨_, VoteMap.mem_set_iff.mpr (.inr rfl), rfl⟩
  by_cases hmajority : majorityTwoThird (UInt32.ofNat votes.length)
      es.qcVoteManager.committeeSize = true
  · -- the bits of checked votes can be set
    obtain ⟨bA, hbits, -⟩ := ((h.checked (round, blockID)).set rfl hvalid).bitArray hn
    set closed : QCVoteManager := { es.qcVoteManager with
      votes := Function.update es.qcVoteManager.votes (round, blockID) votes
      sealed := Function.update es.qcVoteManager.sealed (round, blockID) true }
    obtain ⟨qc, hqc⟩ : ∃ qc, closed.aggregate B round blockID es.epoch = .ok qc := by
      unfold QCVoteManager.aggregate
      dsimp only
      rw [show closed.votes (round, blockID) = votes from Function.update_self _ _ _,
        show closed.committeeSize = UInt32.ofNat es.committee.size from h.size_eq, hbits]
      exact ⟨_, rfl⟩
    rw [if_pos hmajority]
    refine ⟨some qc, closed, ?_, .inl (Function.update_self _ _ _)⟩
    show (do return (some (← closed.aggregate B round blockID es.epoch), closed)) = _
    rw [hqc]
    rfl
  · rw [if_neg hmajority]
    refine ⟨none, _, rfl, .inr ?_⟩
    dsimp only
    rw [Function.update_self]
    exact hvoter

end EpochState

/-! ## A scheme whose aggregates do not depend on the order -/

namespace Testnet

/-- Signatures that spell out the message and a key, like those of the test
network, with an aggregate that adds the keys up. The aggregate of signatures
on different messages verifies on none. -/
def additive : Bls where
  validSignature sig := !sig.isEmpty
  validPublicKey _ := true
  verify key msg sig := sig == Bytes32.bytes msg ++ key
  fastAggregateVerify keys msg sig :=
    !keys.isEmpty && sig == Bytes32.bytes msg ++ Rlp.beBytes 8 (keys.map Rlp.beValue).sum
  aggregateSignatures sigs :=
    if sigs.all (fun sig => sig.take 32 == (sigs.headD []).take 32) then
      (sigs.headD []).take 32 ++ Rlp.beBytes 8 (sigs.map (fun sig => Rlp.beValue (sig.drop 32))).sum
    else [0]
  sign key msg := Bytes32.bytes msg ++ key

/-- The aggregate of signatures on one message. -/
theorem additive_aggregate {votes : List (Bytes × Bytes)} {msg : Bytes32} (hne : votes ≠ [])
    (hverify : ∀ v ∈ votes, additive.verify v.1 msg v.2 = true) :
    additive.aggregateSignatures (votes.map Prod.snd)
      = Bytes32.bytes msg ++ Rlp.beBytes 8 ((votes.map Prod.fst).map Rlp.beValue).sum := by
  have hsig : ∀ v ∈ votes, v.2 = Bytes32.bytes msg ++ v.1 := fun v hv => by
    simpa [additive] using hverify v hv
  have hdrop : (votes.map Prod.snd).map (fun sig => Rlp.beValue (sig.drop 32))
      = (votes.map Prod.fst).map Rlp.beValue := by
    rw [List.map_map, List.map_map]
    refine List.map_congr_left fun v hv => ?_
    show Rlp.beValue (v.2.drop 32) = Rlp.beValue v.1
    rw [hsig v hv, List.drop_left' (length_bytes msg)]
  have htake : ∀ sig ∈ votes.map Prod.snd, sig.take 32 = Bytes32.bytes msg := by
    intro sig hmem
    obtain ⟨v, hv, rfl⟩ := List.mem_map.mp hmem
    rw [hsig v hv, List.take_left' (length_bytes msg)]
  have hhead : ((votes.map Prod.snd).headD []).take 32 = Bytes32.bytes msg := by
    cases votes with
    | nil => exact absurd rfl hne
    | cons v votes => exact htake _ List.mem_cons_self
  unfold additive
  dsimp only
  rw [hhead, hdrop, if_pos]
  exact List.all_eq_true.mpr fun sig hmem => by rw [htake sig hmem, beq_self_eq_true]

theorem additive_aggregates : additive.Aggregates where
  rejects_nil := rfl
  complete votes keys msg hne hperm hvalid := by
    rw [additive_aggregate hne fun v hv => (hvalid v hv).2]
    refine ⟨?_, ?_⟩
    · have hmsg : Bytes32.bytes msg ≠ [] := List.ne_nil_of_length_eq_add_one (length_bytes msg)
      simp [additive, hmsg]
    · have hkeys : keys ≠ [] := by
        rintro rfl
        exact hne (List.map_eq_nil_iff.mp hperm.nil_eq.symm)
      have hsum : (keys.map Rlp.beValue).sum = ((votes.map Prod.fst).map Rlp.beValue).sum :=
        (hperm.map Rlp.beValue).sum_nat
      simp [additive, hkeys, hsum]

/-- The epoch state of the committee, at the start. -/
def epochState : EpochState where
  epoch := 1
  startKBlockID := 0
  committee := committee
  inCommittee := true
  index := 0
  qcVoteManager := .new 4
  tcVoteManager := .new 4
  pending := false

/-- Six votes in one round: one that does not verify, one of a member twice,
and the one that completes the quorum, after which one comes too late. -/
def sixVotes : List QCVote :=
  [⟨3, 1, 7, [9]⟩, ⟨2, 1, 7, additive.sign [2] 7⟩, ⟨2, 1, 7, additive.sign [2] 7⟩,
    ⟨0, 1, 7, additive.sign [0] 7⟩, ⟨1, 1, 7, additive.sign [1] 7⟩, ⟨3, 1, 7, additive.sign [3] 7⟩]

open EpochState in
/-- The fifth vote makes the one certificate there is. -/
theorem formed_of_sixVotes :
    (∃ qcs last, epochState.addQCVotes additive sixVotes = .ok (qcs, last)
      ∧ ∀ (n : ℕ) (qc : QuorumCert), qcs[n]? = some (some qc) →
        (∃ w, sixVotes[n]? = some w
          ∧ qc.MadeOf hashes additive epochState (sixVotes.take (n + 1)) w.round w.blockID)
        ∧ ∀ (n' : ℕ) (qc' : QuorumCert), qcs[n']? = some (some qc') → n' ≠ n →
          (qc'.round, qc'.blockID) ≠ (qc.round, qc.blockID))
    ∧ ((epochState.addQCVotes additive sixVotes).toOption.map fun r => r.1.map Option.isSome)
      = some [false, false, false, false, true, false] :=
  ⟨formed_valid_exact_unique additive_aggregates (by decide) (by decide) rfl sixVotes (by decide),
    by decide +kernel⟩

end Testnet

end LoragonBFT
