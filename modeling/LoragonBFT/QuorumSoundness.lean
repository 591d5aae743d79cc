import LoragonBFT.Testnet

/-!
# What a verified certificate proves

A certificate says who signed by setting bits, and `VerifyQC` counts them
twice over: how many bits are set decides whether the quorum is reached, and
which committee members have their bit set decides whose keys the signature
is verified under. The first count runs over the bit array, the second over
the committee, and nothing compares their sizes. Bits past the committee
count towards the quorum and bring no key with them, so one signature can be
passed off as a quorum.

`BuildLastCommitInfo`, later on, does compare the sizes, and faults.

`verifyTC` is the same check for timeout certificates, and has the same gap. It
has one more: a member whose key does not parse is passed over, while its bit
counts. So the members that take part are those with a set bit and a key that
parses (`timeoutSigners`).
-/

namespace LoragonBFT

/-- What is assumed of `FastAggregateVerify`: it rejects an empty list of
keys, and what it accepts is an aggregate of genuine signatures of exactly
the given keys. -/
structure Bls.Genuine (B : Bls) : Prop where
  rejects_nil : ∀ msg sig, B.fastAggregateVerify [] msg sig = false
  accepts_only : ∀ keys msg sig, B.fastAggregateVerify keys msg sig = true →
    sig = B.aggregateSignatures (keys.map (fun key => B.sign key msg))

theorem Testnet.bls_genuine : Testnet.bls.Genuine where
  rejects_nil _ _ := rfl
  accepts_only _ _ _ h := eq_aggregate_of_fastAggregateVerify h

/-- The committee members whose bit is set, with their places: those whose
keys take part in the verified aggregate. -/
def signers (committee : ValidatorSet) (bA : BitArray) : List (Validator × ℕ) :=
  committee.validators.zipIdx.filter (fun v => bA.bit v.2)

/-- The keys of a committee. -/
def ValidatorSet.keys (committee : ValidatorSet) : List Bytes :=
  committee.validators.map (fun v => v.pubKey.bytes)

/-! ## Whose keys are verified -/

/-- The keys of the signers are keys of the committee, each taken once. -/
theorem sublist_keys_signers (committee : ValidatorSet) (bA : BitArray) :
    ((signers committee bA).map (fun v => v.1.pubKey.bytes)).Sublist committee.keys := by
  have hkeys : committee.keys
      = (committee.validators.zipIdx 0).map (fun v => v.1.pubKey.bytes) := by
    rw [ValidatorSet.keys, ← List.zipIdx_map_fst 0 committee.validators, List.map_map,
      List.zipIdx_map_fst]
    rfl
  rw [hkeys]
  exact List.filter_sublist.map _

/-- The keys of a committee's members whose bit is set. Members with another
kind of key are passed over. -/
def collectedKeys (bA : BitArray) (index : ℕ) (vs : List Validator) : List Bytes :=
  ((vs.zipIdx index).filter (fun v => v.1.pubKey.type == KeyType.bls12381 && bA.bit v.2)).map
    (fun v => v.1.pubKey.bytes)

variable {keys : List Bytes} {c : ℕ}

/-- These are the keys `VerifyQC` collects, and each of them parses. -/
theorem signerKeys_spec {B : Bls} {bA : BitArray} (index : ℕ) (vs : List Validator)
    (h : signerKeys B bA index vs = .ok keys) :
    keys = collectedKeys bA index vs ∧ ∀ key ∈ keys, B.validPublicKey key = true := by
  unfold collectedKeys
  induction vs generalizing index keys with
  | nil =>
    rw [← Except.ok.inj h]
    exact ⟨rfl, fun _ hkey => absurd hkey List.not_mem_nil⟩
  | cons v vs ih =>
    unfold signerKeys at h
    rw [List.zipIdx_cons, List.filter_cons]
    by_cases htype : v.pubKey.type = KeyType.bls12381
    · rw [if_pos htype] at h
      obtain ⟨b, hbit, h⟩ := Except.exists_of_bind_eq_ok h
      rw [htype, beq_self_eq_true, Bool.true_and, BitArray.bit_eq_of_getIndex hbit]
      cases b with
      | false => exact ih (index + 1) h
      | true =>
        rw [if_pos rfl] at h
        split at h
        · rename_i hvalid
          obtain ⟨rest, hrest, h⟩ := Except.exists_of_bind_eq_ok h
          obtain ⟨heq, hrestValid⟩ := ih (index + 1) hrest
          rw [← Except.ok.inj h]
          exact ⟨congrArg (v.pubKey.bytes :: ·) heq, List.forall_mem_cons.mpr ⟨hvalid, hrestValid⟩⟩
        · cases h
    · rw [if_neg htype] at h
      rw [beq_false_of_ne htype, Bool.false_and]
      exact ih (index + 1) h

/-- In a committee with BLS keys they are the keys of the signers. -/
theorem collectedKeys_eq {bA : BitArray} (index : ℕ) {vs : List Validator}
    (hbls : ∀ v ∈ vs, v.pubKey.type = KeyType.bls12381) :
    collectedKeys bA index vs
      = ((vs.zipIdx index).filter (fun v => bA.bit v.2)).map (fun v => v.1.pubKey.bytes) := by
  unfold collectedKeys
  congr 1
  refine List.filter_congr fun v hv => ?_
  rw [hbls v.1 (List.fst_mem_of_mem_zipIdx hv), beq_self_eq_true, Bool.true_and]

theorem signerKeys_eq {B : Bls} {bA : BitArray} (index : ℕ) (vs : List Validator)
    (hbls : ∀ v ∈ vs, v.pubKey.type = KeyType.bls12381) (h : signerKeys B bA index vs = .ok keys) :
    keys = ((vs.zipIdx index).filter (fun v => bA.bit v.2)).map (fun v => v.1.pubKey.bytes) :=
  (signerKeys_spec index vs h).1.trans (collectedKeys_eq index hbls)

/-- The keys are collected without a fault, if those of the signers parse and
the bits can be counted. -/
theorem exists_signerKeys {B : Bls} {bA : BitArray} (hcount : bA.count = .ok c) (index : ℕ)
    (vs : List Validator)
    (hvalid : ∀ v ∈ vs.zipIdx index, v.1.pubKey.type = KeyType.bls12381 → bA.bit v.2 = true →
      B.validPublicKey v.1.pubKey.bytes = true) :
    ∃ keys, signerKeys B bA index vs = .ok keys := by
  induction vs generalizing index with
  | nil => exact ⟨[], rfl⟩
  | cons v vs ih =>
    rw [List.zipIdx_cons] at hvalid
    obtain ⟨rest, hrest⟩ := ih (index + 1) fun w hw => hvalid w (List.mem_cons_of_mem _ hw)
    obtain ⟨b, hb⟩ := BitArray.exists_getIndex_of_count hcount index
    unfold signerKeys
    rw [hb, hrest]
    by_cases htype : v.pubKey.type = KeyType.bls12381
    · rw [if_pos htype]
      cases b with
      | false => exact ⟨rest, rfl⟩
      | true =>
        have hkey := hvalid (v, index) List.mem_cons_self htype (BitArray.bit_eq_of_getIndex hb)
        refine ⟨v.pubKey.bytes :: rest, ?_⟩
        simp only [bind, Except.bind, pure, Except.pure, if_true, hkey]
    · rw [if_neg htype]
      exact ⟨rest, rfl⟩

theorem length_le_of_count {bA : BitArray} (h : bA.count = .ok c) : c < 2 ^ 32 := by
  have hle : c ≤ bA.size := by
    rw [BitArray.count_eq h]
    exact (List.length_filter_le _ _).trans_eq List.length_range
  exact lt_of_le_of_lt hle bA.bits.toNat_lt

/-- The majority check on a committee that fits its size field. -/
theorem majority_iff_of_count {bA : BitArray} {n : ℕ} (hcount : bA.count = .ok c)
    (hn : n < 2 ^ 32) :
    majorityTwoThird (UInt32.ofNat c) (UInt32.ofNat n) = true ↔ 0 < n ∧ 2 * n ≤ 3 * c := by
  rw [majorityTwoThird_iff, UInt32.toNat_ofNat_of_lt' hn,
    UInt32.toNat_ofNat_of_lt' (length_le_of_count hcount)]

/-! ## When a quorum is a quorum -/

/-- **Quorum soundness** of the certificates with a given bit array: whoever
presents one, for a block past the first two, two thirds of the committee
took part in it, and its signature is the aggregate of theirs. -/
def QuorumSound (committee : ValidatorSet) (bA : BitArray) : Prop :=
  ∀ (H : Hashes) (B : Bls) (b : Block) (qc : QuorumCert), B.Genuine → 2 ≤ b.number →
    qc.bitArray = bA → b.verifyQC H B qc committee = .ok (true, none) →
    2 * committee.size ≤ 3 * (signers committee bA).length
      ∧ qc.aggSig = B.aggregateSignatures
        ((signers committee bA).map (fun v => B.sign v.1.pubKey.bytes qc.blockID))

/-- A block past the first two, for a certificate to be checked on. -/
def secondBlock : Block where
  header := ⟨1 <<< 224, 0, 0, [], 0, 0, [], [], [], []⟩
  txs := []
  qc := ⟨0, 0, 0, [], .new 0⟩

/-- A certificate whose signature spells out the keys of the members whose
bit is set verifies, if enough bits are set anywhere. -/
theorem verifyQC_of_count {committee : ValidatorSet} {bA : BitArray} (hn : committee.size < 2 ^ 32)
    (hbls : ∀ v ∈ committee.validators, v.pubKey.type = KeyType.bls12381)
    (hcount : bA.count = .ok c) (hmajority : 2 * committee.size ≤ 3 * c)
    (hsigners : signers committee bA ≠ []) :
    ∃ qc, qc.bitArray = bA
      ∧ secondBlock.verifyQC Testnet.hashes Testnet.bls qc committee = .ok (true, none) := by
  obtain ⟨keys, hkeys⟩ := exists_signerKeys (B := Testnet.bls) hcount 0
    committee.validators fun _ _ _ _ => rfl
  have hkeys' := signerKeys_eq 0 _ hbls hkeys
  have hpos : 0 < committee.size := by
    by_contra hzero
    apply hsigners
    have hnil : committee.validators = [] := List.eq_nil_of_length_eq_zero (by
      simpa [ValidatorSet.size] using hzero)
    rw [signers, hnil]
    rfl
  have hne : keys ≠ [] := by
    rw [hkeys']
    exact fun h => hsigners (List.map_eq_nil_iff.mp h)
  refine ⟨⟨0, 0, 0, Bytes32.bytes 0 ++ keys.flatten, bA⟩, rfl, ?_⟩
  refine Block.verifyQC_eq_true_iff.mpr (.inr ⟨c, keys, hcount, ?_, hkeys, rfl, ?_⟩)
  · exact (majority_iff_of_count hcount hn).mpr ⟨hpos, hmajority⟩
  · simp [Testnet.bls, hne]

/-- **Exactly when `VerifyQC` is sound for a bit array**: when the bits past
the committee are not needed to reach the quorum. The bits that matter are
those of committee members; a certificate without any verifies under no key
and is rejected. -/
theorem quorumSound_iff {committee : ValidatorSet} (hn : committee.size < 2 ^ 32)
    (hbls : ∀ v ∈ committee.validators, v.pubKey.type = KeyType.bls12381) (bA : BitArray) :
    QuorumSound committee bA
      ↔ ∀ c, bA.count = .ok c → 2 * committee.size ≤ 3 * c → signers committee bA ≠ [] →
        2 * committee.size ≤ 3 * (signers committee bA).length := by
  constructor
  · intro hsound c hcount hmajority hsigners
    obtain ⟨qc, hqc, hverify⟩ := verifyQC_of_count hn hbls hcount hmajority hsigners
    exact (hsound _ _ _ qc Testnet.bls_genuine (by decide) hqc hverify).1
  · intro hbits H B b qc hgenuine hnumber hqc hverify
    rcases Block.verifyQC_eq_true_iff.mp hverify with ⟨-, hfirst⟩ | hverified
    · exact absurd hnumber (by rcases hfirst with h | h <;> rw [h] <;> decide)
    obtain ⟨c, keys, hcount, hmajority, hkeys, -, hsig⟩ := hverified
    subst hqc
    have hkeys' := signerKeys_eq 0 _ hbls hkeys
    have hne : signers committee qc.bitArray ≠ [] := by
      intro hnil
      rw [hkeys', ← signers, hnil, List.map_nil, hgenuine.rejects_nil] at hsig
      exact nomatch hsig
    refine ⟨hbits c hcount ((majority_iff_of_count hcount hn).mp hmajority).2 hne, ?_⟩
    rw [hgenuine.accepts_only keys _ _ hsig, hkeys', ← signers, List.map_map]
    rfl

open Testnet in
/-- Bits for three of four: the certificates with this bit array are sound. -/
theorem quorumSound_three_of_four : QuorumSound committee ⟨4, [7]⟩ := by
  refine (quorumSound_iff (by decide) (by decide) _).mpr fun c _ _ _ => ?_
  decide

open Testnet in
/-- **One validator of four passes for a quorum**: with its own bit and two
bits past the committee, its signature alone makes a certificate. -/
theorem one_of_four_verifies :
    bls.Genuine ∧ 2 ≤ secondBlock.number
      ∧ secondBlock.verifyQC hashes bls ⟨1, 1, 7, bls.sign [0] 7, ⟨6, [49]⟩⟩ committee
        = .ok (true, none)
      ∧ (signers committee ⟨6, [49]⟩).map Prod.snd = [0]
      ∧ ¬ 2 * committee.size ≤ 3 * (signers committee ⟨6, [49]⟩).length :=
  ⟨bls_genuine, by decide, by decide +kernel, by decide, by decide⟩

/-! ## Timeout certificates -/

/-- The committee members whose keys take part in a timeout certificate: those
whose key parses and whose bit is set. -/
def timeoutSigners (parses : Bytes → Bool) (committee : ValidatorSet) (bA : BitArray) :
    List (Validator × ℕ) :=
  committee.validators.zipIdx.filter (fun v => parses v.1.pubKey.bytes && bA.bit v.2)

section TimeoutKeys

variable {B : Bls} {bA : BitArray}

/-- Theirs are the keys that are collected. -/
theorem timeoutKeys_eq_map (index : ℕ) (vs : List Validator)
    (h : timeoutKeys B bA index vs = .ok keys) :
    keys = ((vs.zipIdx index).filter (fun v =>
      B.validPublicKey v.1.pubKey.bytes && bA.bit v.2)).map (fun v => v.1.pubKey.bytes) := by
  induction vs generalizing index keys with
  | nil => exact (Except.ok.inj h).symm
  | cons v vs ih =>
    unfold timeoutKeys at h
    rw [List.zipIdx_cons, List.filter_cons]
    cases hvalid : B.validPublicKey v.pubKey.bytes with
    | false =>
      rw [hvalid, if_neg Bool.false_ne_true] at h
      rw [Bool.false_and, if_neg Bool.false_ne_true]
      exact ih (index + 1) h
    | true =>
      rw [hvalid, if_pos rfl] at h
      obtain ⟨b, hbit, h⟩ := Except.exists_of_bind_eq_ok h
      rw [Bool.true_and, BitArray.bit_eq_of_getIndex hbit]
      cases b with
      | false => exact ih (index + 1) h
      | true =>
        obtain ⟨rest, hrest, h⟩ := Except.exists_of_bind_eq_ok h
        rw [← Except.ok.inj h, ih (index + 1) hrest]
        rfl

/-- They are collected without a fault if the bits can be counted. -/
theorem exists_timeoutKeys (hcount : bA.count = .ok c) (index : ℕ) (vs : List Validator) :
    ∃ keys, timeoutKeys B bA index vs = .ok keys := by
  induction vs generalizing index with
  | nil => exact ⟨[], rfl⟩
  | cons v vs ih =>
    obtain ⟨rest, hrest⟩ := ih (index + 1)
    obtain ⟨b, hb⟩ := BitArray.exists_getIndex_of_count hcount index
    unfold timeoutKeys
    rw [hb, hrest]
    cases B.validPublicKey v.pubKey.bytes with
    | false => exact ⟨rest, rfl⟩
    | true => cases b <;> exact ⟨_, rfl⟩

/-- **What `verifyTC` checks**, one thing after the other. -/
theorem Pacemaker.verifyTC_eq_true_iff {E : Env} {p : Pacemaker} {tc : TimeoutCert}
    {round : UInt32} :
    p.verifyTC E (some tc) round = .ok true
      ↔ tc.epoch = p.epochState.epoch ∧ tc.round = round
        ∧ tc.msgHash = buildTimeoutVotingHash E.H tc.epoch tc.round
        ∧ ∃ bA c keys, tc.bitArray = some bA ∧ bA.count = .ok c
          ∧ majorityTwoThird (UInt32.ofNat c) p.epochState.committeeSize = true
          ∧ timeoutKeys E.B bA 0 p.epochState.committee.validators = .ok keys
          ∧ E.B.validSignature tc.aggSig = true
          ∧ E.B.fastAggregateVerify keys tc.msgHash tc.aggSig = true := by
  unfold Pacemaker.verifyTC
  dsimp only
  by_cases hnames : tc.epoch = p.epochState.epoch ∧ tc.round = round
  swap
  · rw [if_pos (by tauto)]
    exact ⟨fun h => (by cases h), fun h => absurd ⟨h.1, h.2.1⟩ hnames⟩
  by_cases hhash : tc.msgHash = buildTimeoutVotingHash E.H tc.epoch tc.round
  swap
  · rw [if_neg (by tauto), if_pos hhash]
    exact ⟨fun h => (by cases h), fun h => absurd h.2.2.1 hhash⟩
  rw [if_neg (by tauto), if_neg (not_not.mpr hhash)]
  simp only [hnames, hhash, true_and]
  cases tc.bitArray with
  | none =>
    refine ⟨fun h => (by cases h), ?_⟩
    rintro ⟨_, _, _, h, _⟩
    cases h
  | some bA =>
    simp only [deref, bind, Except.bind, Option.some.injEq, exists_and_left, exists_eq_left']
    cases bA.count with
    | error e =>
      refine ⟨fun h => (by cases h), ?_⟩
      rintro ⟨_, h, _⟩
      cases h
    | ok c =>
      simp only [Except.ok.injEq, exists_eq_left']
      cases majorityTwoThird (UInt32.ofNat c) p.epochState.committeeSize with
      | false => exact ⟨fun h => (by cases h), fun h => by cases h.1⟩
      | true =>
        cases timeoutKeys E.B bA 0 p.epochState.committee.validators with
        | error e =>
          refine ⟨fun h => (by cases h), ?_⟩
          rintro ⟨_, _, h, _⟩
          cases h
        | ok keys => simp [pure, Except.pure]

end TimeoutKeys

/-- **Quorum soundness** of the timeout certificates with a given bit array:
whoever presents one that verifies for a round, it names the epoch and the
round, two thirds of the committee took part in it, and its signature is the
aggregate of theirs on the hash of the epoch and the round. -/
def TimeoutQuorumSound (parses : Bytes → Bool) (committee : ValidatorSet) (bA : BitArray) : Prop :=
  ∀ (E : Env) (p : Pacemaker) (tc : TimeoutCert) (round : UInt32),
    E.B.Genuine → E.B.validPublicKey = parses → p.epochState.committee = committee →
    tc.bitArray = some bA → p.verifyTC E (some tc) round = .ok true →
    tc.epoch = p.epochState.epoch ∧ tc.round = round
      ∧ 2 * committee.size ≤ 3 * (timeoutSigners parses committee bA).length
      ∧ tc.aggSig = E.B.aggregateSignatures ((timeoutSigners parses committee bA).map
        (fun v => E.B.sign v.1.pubKey.bytes
          (buildTimeoutVotingHash E.H p.epochState.epoch round)))

/-- The test network's libraries with another idea of which keys parse. -/
def Testnet.envParsing (parses : Bytes → Bool) : Env :=
  { env with B := { bls with validPublicKey := parses } }

theorem Testnet.envParsing_genuine (parses : Bytes → Bool) : (envParsing parses).B.Genuine where
  rejects_nil _ _ := rfl
  accepts_only _ _ _ h := eq_aggregate_of_fastAggregateVerify h

open Testnet in
/-- A certificate whose signature spells out the keys of the members that take
part verifies, if enough bits are set anywhere. -/
theorem verifyTC_of_count {parses : Bytes → Bool} {committee : ValidatorSet} {bA : BitArray}
    (hn : committee.size < 2 ^ 32) (hcount : bA.count = .ok c)
    (hmajority : 2 * committee.size ≤ 3 * c) (hsigners : timeoutSigners parses committee bA ≠ [])
    {p : Pacemaker} (hp : p.epochState.committee = committee) (round : UInt32) :
    ∃ tc, tc.bitArray = some bA ∧ p.verifyTC (envParsing parses) (some tc) round = .ok true := by
  obtain ⟨keys, hkeys⟩ := exists_timeoutKeys (B := (envParsing parses).B) hcount 0
    committee.validators
  have hkeys' := timeoutKeys_eq_map 0 _ hkeys
  have hne : keys ≠ [] := by
    rw [hkeys']
    exact fun h => hsigners (List.map_eq_nil_iff.mp h)
  have hpos : 0 < committee.size := by
    by_contra hzero
    have hnil : committee.validators = [] :=
      List.eq_nil_of_length_eq_zero (Nat.eq_zero_of_not_pos hzero)
    rw [timeoutSigners, hnil] at hsigners
    exact hsigners rfl
  set hash := buildTimeoutVotingHash hashes p.epochState.epoch round
  refine ⟨⟨p.epochState.epoch, round, some bA, hash, Bytes32.bytes hash ++ keys.flatten⟩, rfl, ?_⟩
  refine Pacemaker.verifyTC_eq_true_iff.mpr
    ⟨rfl, rfl, rfl, bA, c, keys, rfl, hcount, ?_, hp ▸ hkeys, rfl, ?_⟩
  · unfold EpochState.committeeSize
    rw [hp]
    exact (majority_iff_of_count hcount hn).mpr ⟨hpos, hmajority⟩
  · simp [envParsing, bls, hne]

/-- A node with a given committee. -/
theorem exists_committee (committee : ValidatorSet) :
    ∃ p : Pacemaker, p.epochState.committee = committee := by
  obtain ⟨p, -, -⟩ := Testnet.exists_of_start (k := 0) (fun _ => true) (by decide +kernel)
  exact ⟨{ p with epochState := { p.epochState with committee } }, rfl⟩

/-- **Exactly when `verifyTC` is sound for a bit array**: when neither the bits
past the committee nor those of members whose key does not parse are needed to
reach the quorum. -/
theorem timeoutQuorumSound_iff {committee : ValidatorSet} (hn : committee.size < 2 ^ 32)
    (parses : Bytes → Bool) (bA : BitArray) :
    TimeoutQuorumSound parses committee bA
      ↔ ∀ c, bA.count = .ok c → 2 * committee.size ≤ 3 * c →
        timeoutSigners parses committee bA ≠ [] →
        2 * committee.size ≤ 3 * (timeoutSigners parses committee bA).length := by
  constructor
  · intro hsound c hcount hmajority hsigners
    obtain ⟨p, hp⟩ := exists_committee committee
    obtain ⟨tc, htc, hverify⟩ := verifyTC_of_count hn hcount hmajority hsigners hp 1
    exact (hsound _ p tc 1 (Testnet.envParsing_genuine parses) rfl hp htc hverify).2.2.1
  · intro hbits E p tc round hgenuine hparses hp htc hverify
    obtain ⟨hepoch, hround, hhash, bA', c, keys, hbitArray, hcount, hmajority, hkeys, -, hsig⟩ :=
      Pacemaker.verifyTC_eq_true_iff.mp hverify
    obtain rfl : bA' = bA := Option.some.inj (hbitArray.symm.trans htc)
    have hkeys' := timeoutKeys_eq_map 0 _ hkeys
    rw [hp, hparses] at hkeys'
    have hne : timeoutSigners parses committee bA' ≠ [] := by
      intro hnil
      rw [hkeys', ← timeoutSigners, hnil, List.map_nil, hgenuine.rejects_nil] at hsig
      exact nomatch hsig
    unfold EpochState.committeeSize at hmajority
    rw [hp] at hmajority
    refine ⟨hepoch, hround, hbits c hcount ((majority_iff_of_count hcount hn).mp hmajority).2 hne,
      ?_⟩
    rw [hgenuine.accepts_only keys _ _ hsig, hkeys', ← timeoutSigners, List.map_map, hhash, hepoch,
      hround]
    rfl

open Testnet in
/-- Bits for three of four: the timeout certificates with this bit array are
sound. -/
theorem timeoutQuorumSound_three_of_four :
    TimeoutQuorumSound (fun _ => true) committee ⟨4, [7]⟩ := by
  refine (timeoutQuorumSound_iff (by decide) _ _).mpr fun c _ _ _ => ?_
  decide

open Testnet in
/-- **One validator of four ends a round**: with its own bit and two bits past
the committee, its signature alone makes a timeout certificate. -/
theorem one_of_four_times_out :
    bls.Genuine ∧ ∃ p, start 0 = .ok p ∧ p.epochState.committee = committee
      ∧ p.verifyTC env (some ⟨1, 5, some ⟨6, [49]⟩, buildTimeoutVotingHash hashes 1 5,
          bls.sign [0] (buildTimeoutVotingHash hashes 1 5)⟩) 5 = .ok true
      ∧ (timeoutSigners bls.validPublicKey committee ⟨6, [49]⟩).map Prod.snd = [0]
      ∧ ¬ 2 * committee.size
        ≤ 3 * (timeoutSigners bls.validPublicKey committee ⟨6, [49]⟩).length := by
  obtain ⟨p, hstart, htest⟩ := exists_of_start (k := 0) (fun p =>
    p.epochState.committee == committee
      && (p.verifyTC env (some ⟨1, 5, some ⟨6, [49]⟩, buildTimeoutVotingHash hashes 1 5,
        bls.sign [0] (buildTimeoutVotingHash hashes 1 5)⟩) 5).toOption == some true)
    (by decide +kernel)
  obtain ⟨hcommittee, hverify⟩ := Bool.and_eq_true_iff.mp htest
  refine ⟨bls_genuine, p, hstart, eq_of_beq hcommittee, ?_, by decide, by decide⟩
  generalize p.verifyTC env _ 5 = r at hverify ⊢
  cases r with
  | error e => exact nomatch hverify
  | ok b => rw [Option.some.inj (eq_of_beq hverify)]

end LoragonBFT
