import LoragonBFT.Codec
import LoragonBFT.Pacemaker.Acceptance
import LoragonBFT.TimeoutFormation
import Mathlib.Data.ZMod.Basic

/-!
# Certificates and the committee that made them

A certificate names its signers by their places in a committee, and says which
epoch that committee is of. Who checks it, `ValidateQC`, does not read the
epoch: the places are looked up in the committee that is in force where the
certificate is checked. The last blocks before a change of committee are
certified by the old one and checked under the new one, by every node that
does not happen to have the certificate in its cache.

So such a certificate is accepted as far as the two committees look the same
to it: the keys that the new one has at the places that are set are those of
the signers, and the signers are two thirds of the new one as well. Nothing is
assumed for this but that aggregates verify. What `ValidateQC` comes down to
exactly depends on the scheme. The keys of BLS are points that are added up,
and a signature verifies on a message under the keys of one sum (`KeySums`),
so there it is the sums of the keys that have to be equal.
-/

namespace LoragonBFT

open EStateM

variable {E : Env}

/-- How the keys of a scheme are aggregated: those that parse are points of a
group, and an aggregate signature on a message verifies under the keys that
have one sum, and not without keys. -/
structure Bls.KeySums (B : Bls) (κ : Type) [AddCommMonoid κ] where
  point : Bytes → κ
  rejects_nil : ∀ (msg : Bytes32) (sig : Bytes), B.fastAggregateVerify [] msg sig = false
  verify_iff : ∀ (keys keys' : List Bytes) (msg : Bytes32) (sig : Bytes),
    (∀ key ∈ keys, B.validPublicKey key = true) → (∀ key ∈ keys', B.validPublicKey key = true) →
    keys' ≠ [] → B.fastAggregateVerify keys msg sig = true →
    (B.fastAggregateVerify keys' msg sig = true
      ↔ (keys'.map point).sum = (keys.map point).sum)

namespace EpochState

variable {B : Bls} {es : EpochState} {qc : QuorumCert}

theorem committeeSize_of_addQCVote {next : EpochState} {index round : UInt32} {blockID : Bytes32}
    {sig : Bytes} {qc : Option QuorumCert}
    (h : es.addQCVote B index round blockID sig = .ok (qc, next)) :
    next.qcVoteManager.committeeSize = es.qcVoteManager.committeeSize := by
  rcases addQCVote_cases h with ⟨-, rfl⟩ | ⟨-, m, hadd, rfl⟩
  · rfl
  · rcases QCVoteManager.addVote_cases hadd with ⟨-, rfl⟩ | ⟨-, hsize, -⟩
    · rfl
    · exact hsize

/-- The certificate is one that `AddQCVote` returned, in a sequence of calls
on the epoch state. -/
def Forms (B : Bls) (es : EpochState) (qc : QuorumCert) : Prop :=
  ∃ calls qcs last, es.addQCVotes B calls = .ok (qcs, last) ∧ some qc ∈ qcs

theorem addQCVotes_cons {w : QCVote} {ws : List QCVote} {qcs : List (Option QuorumCert)}
    {last : EpochState} (h : es.addQCVotes B (w :: ws) = .ok (qcs, last)) :
    ∃ first next rest, es.addQCVote B w.signerIndex w.round w.blockID w.sig = .ok (first, next)
      ∧ next.addQCVotes B ws = .ok (rest, last) ∧ qcs = first :: rest := by
  unfold addQCVotes at h
  obtain ⟨⟨first, next⟩, hcall, h⟩ := Except.exists_of_bind_eq_ok h
  obtain ⟨⟨rest, last'⟩, hrest, h⟩ := Except.exists_of_bind_eq_ok h
  obtain ⟨rfl, rfl⟩ := Prod.mk.inj (Except.ok.inj h)
  exact ⟨first, next, rest, hcall, hrest, rfl⟩

/-- One of the calls returned it. The calls before have changed the votes and
nothing else. -/
theorem Forms.exists_call (h : es.Forms B qc) :
    ∃ (cur next : EpochState) (w : QCVote), cur.epoch = es.epoch ∧ cur.committee = es.committee
      ∧ cur.qcVoteManager.committeeSize = es.qcVoteManager.committeeSize
      ∧ cur.addQCVote B w.signerIndex w.round w.blockID w.sig = .ok (some qc, next) := by
  obtain ⟨calls, qcs, last, hcalls, hmem⟩ := h
  induction calls generalizing es qcs last with
  | nil =>
    obtain ⟨rfl, -⟩ := Prod.mk.inj (Except.ok.inj hcalls)
    exact absurd hmem List.not_mem_nil
  | cons w ws ih =>
    obtain ⟨first, next, rest, hcall, hrest, rfl⟩ := addQCVotes_cons hcalls
    rcases List.mem_cons.mp hmem with rfl | hmem
    · exact ⟨es, next, w, rfl, rfl, rfl, hcall⟩
    obtain ⟨cur, next', w', hepoch, hcommittee, hsize, hcall'⟩ := ih rest last hrest hmem
    obtain ⟨m, hnext⟩ := addQCVote_eq hcall
    refine ⟨cur, next', w', ?_, ?_, hsize.trans ?_, hcall'⟩
    · rw [hepoch, hnext]
    · rw [hcommittee, hnext]
    · exact committeeSize_of_addQCVote hcall

/-- Calls that do not fault are of members. -/
theorem lt_size_of_addQCVotes {calls : List QCVote} {qcs : List (Option QuorumCert)}
    {last : EpochState} (h : es.addQCVotes B calls = .ok (qcs, last)) :
    ∀ w ∈ calls, w.signerIndex.toNat < es.committee.size := by
  induction calls generalizing es qcs with
  | nil => exact fun w hw => absurd hw List.not_mem_nil
  | cons w ws ih =>
    obtain ⟨first, next, rest, hcall, hrest, rfl⟩ := addQCVotes_cons h
    obtain ⟨m, hnext⟩ := addQCVote_eq hcall
    have hcommittee : next.committee = es.committee := by rw [hnext]
    intro w' hw'
    rcases List.mem_cons.mp hw' with rfl | hw'
    · by_contra hge
      unfold addQCVote verifyVote at hcall
      rw [List.getElem?_eq_none (not_lt.mp hge)] at hcall
      cases hcall
    · exact hcommittee ▸ ih hrest w' hw'

/-- A certificate that is formed is made of votes. -/
theorem Forms.madeOf {H : Hashes} (h : es.Forms B qc) (hB : B.Aggregates)
    (hn : es.committee.size < 2 ^ 32)
    (hbls : ∀ v ∈ es.committee.validators, v.pubKey.type = KeyType.bls12381)
    (hfresh : es.qcVoteManager = .new es.committeeSize) :
    ∃ received, qc.MadeOf H B es received qc.round qc.blockID := by
  obtain ⟨calls, qcs, last, hcalls, hqc⟩ := h
  obtain ⟨n, hqc⟩ := List.mem_iff_getElem?.mp hqc
  have hholds : es.qcVoteManager.Holds B es [] := hfresh ▸ .new B es
  obtain ⟨qcs', last', hcalls', hmade⟩ := addQCVotes_holds (H := H) hB hn hbls calls
    (lt_size_of_addQCVotes hcalls) rfl hholds
  obtain ⟨rfl, rfl⟩ := Prod.mk.inj (Except.ok.inj (hcalls.symm.trans hcalls'))
  obtain ⟨⟨w, -, hqc'⟩, -⟩ := hmade n qc hqc
  exact ⟨_, hqc'.round_eq ▸ hqc'.blockID_eq ▸ hqc'⟩

end EpochState

/-! ## A certificate off the wire -/

theorem BitArray.words_wire (bA : BitArray) : bA.wire.size ≤ 64 * bA.wire.elems.length := by
  obtain ⟨hsize, hwords, -⟩ := foldl_ofText bA.text bA.length_text_lt bA.text.length le_rfl
  show (ofText bA.text).size ≤ 64 * (ofText bA.text).elems.length
  rw [ofText, hsize, hwords]
  omega

/-- As many bits are counted as before. -/
theorem BitArray.count_wire (bA : BitArray) :
    bA.wire.count = .ok ((List.range bA.size).filter bA.bit).length := by
  rw [count_eq_ok bA.words_wire, size_wire]
  congr 2
  exact List.filter_congr fun i _ => bA.bit_wire i

theorem collectedKeys_wire (bA : BitArray) (index : ℕ) (vs : List Validator) :
    collectedKeys bA.wire index vs = collectedKeys bA index vs := by
  unfold collectedKeys
  congr 1
  exact List.filter_congr fun v _ => by rw [bA.bit_wire]

/-- The places that are set are as many as the signers. -/
theorem length_signers (committee : ValidatorSet) {bA : BitArray}
    (hsize : bA.size = committee.size) :
    (signers committee bA).length = ((List.range bA.size).filter bA.bit).length := by
  rw [← places_signers committee hsize, List.length_map]

/-! ## Under another committee -/

/-- **A committee that a certificate survives into**: its size lets the
signers pass for two thirds, and at the places that are set it has the
signers' keys. -/
structure ValidatorSet.Honours (committee' committee : ValidatorSet) (bA : BitArray) : Prop where
  quorum : 2 * committee'.size ≤ 3 * (signers committee bA).length
  keys : (collectedKeys bA 0 committee'.validators).Perm
    (collectedKeys bA 0 committee.validators)

/-- The same for keys that are added up: the keys at the places that are set
parse, there are any, and they have the sum of the signers' keys. -/
structure ValidatorSet.HonoursSum {B : Bls} {κ : Type} [AddCommMonoid κ] (sums : B.KeySums κ)
    (committee' committee : ValidatorSet) (bA : BitArray) : Prop where
  quorum : 2 * committee'.size ≤ 3 * (signers committee bA).length
  valid : ∀ key ∈ collectedKeys bA 0 committee'.validators, B.validPublicKey key = true
  ne_nil : collectedKeys bA 0 committee'.validators ≠ []
  sum_eq : ((collectedKeys bA 0 committee'.validators).map sums.point).sum
    = ((collectedKeys bA 0 committee.validators).map sums.point).sum

/-- The keys that the new committee has at the places that are set verify the
aggregate. -/
structure ValidatorSet.Reverifies (B : Bls) (committee' committee : ValidatorSet)
    (qc : QuorumCert) : Prop where
  quorum : 2 * committee'.size ≤ 3 * (signers committee qc.bitArray).length
  valid : ∀ key ∈ collectedKeys qc.bitArray 0 committee'.validators, B.validPublicKey key = true
  verify : B.fastAggregateVerify (collectedKeys qc.bitArray 0 committee'.validators) qc.blockID
    qc.aggSig = true

section Formed

variable {H : Hashes} {B : Bls} {es : EpochState} {received : List QCVote} {qc : QuorumCert}
  {X : Block} {committee' : ValidatorSet}

/-- Past the first two blocks, the old committee's `VerifyQC` has read the
signature and the keys of the signers, and verified the one under the
others. -/
theorem signed_of_madeOf (hmade : qc.MadeOf H B es received qc.round qc.blockID)
    (hX : X.id H = qc.blockID) (hlater : ¬ (X.number = 0 ∨ X.number = 1)) :
    B.validSignature qc.aggSig = true
      ∧ (∀ key ∈ collectedKeys qc.bitArray 0 es.committee.validators, B.validPublicKey key = true)
      ∧ B.fastAggregateVerify (collectedKeys qc.bitArray 0 es.committee.validators) qc.blockID
        qc.aggSig = true := by
  obtain ⟨c, keys, -, -, hkeys, hsig, hverify⟩ :=
    (Block.verifyQC_eq_true_iff.mp (hmade.verifies X hX)).resolve_left fun h => hlater h.2
  obtain ⟨heq, hvalid⟩ := signerKeys_spec 0 _ hkeys
  rw [← heq]
  exact ⟨hsig, hvalid, hverify⟩

/-- **What `VerifyQC` makes of a certificate under another committee** than
the one that formed it. -/
theorem verifyQC_wire_iff (hmade : qc.MadeOf H B es received qc.round qc.blockID)
    (hX : X.id H = qc.blockID) (hn' : committee'.size < 2 ^ 32) (hpos : 0 < committee'.size) :
    X.verifyQC H B qc.wire committee' = .ok (true, none)
      ↔ X.number = 0 ∨ X.number = 1 ∨ committee'.Reverifies B es.committee qc := by
  rw [Block.verifyQC_eq_true_iff]
  by_cases hfirst : X.number = 0 ∨ X.number = 1
  · constructor
    · exact fun _ => hfirst.imp_right .inl
    · exact fun _ => .inl ⟨hX, hfirst⟩
  have hcount := qc.bitArray.count_wire
  rw [← length_signers es.committee hmade.size_eq] at hcount
  have hcollected : ∀ {keys}, signerKeys B qc.bitArray.wire 0 committee'.validators = .ok keys →
      keys = collectedKeys qc.bitArray 0 committee'.validators := fun h =>
    (signerKeys_spec 0 _ h).1.trans (collectedKeys_wire ..)
  constructor
  · rintro (⟨-, h⟩ | ⟨c, keys, hc, hmajority, hkeys, -, hverify⟩)
    · exact absurd h hfirst
    obtain rfl := Except.ok.inj (hc.symm.trans hcount)
    have hvalid := (signerKeys_spec 0 _ hkeys).2
    rw [hcollected hkeys] at hvalid
    exact .inr (.inr ⟨((majority_iff_of_count hcount hn').mp hmajority).2, hvalid,
      hcollected hkeys ▸ hverify⟩)
  · intro h
    obtain ⟨hquorum, hvalid, hverify⟩ := (h.resolve_left fun h => hfirst (.inl h)).resolve_left
      fun h => hfirst (.inr h)
    obtain ⟨keys, hkeys⟩ := exists_signerKeys (B := B) hcount 0 committee'.validators
      fun v hv htype hbit => by
        rw [← collectedKeys_wire] at hvalid
        refine hvalid _ (List.mem_map.mpr ⟨v, List.mem_filter.mpr ⟨hv, ?_⟩, rfl⟩)
        rw [htype, hbit, beq_self_eq_true, Bool.true_and]
    exact .inr ⟨_, keys, hcount, (majority_iff_of_count hcount hn').mpr ⟨hpos, hquorum⟩, hkeys,
      (signed_of_madeOf hmade hX hfirst).1, hcollected hkeys ▸ hverify⟩

/-- The same keys in another order verify the aggregate. -/
theorem reverifies_of_honours (hmade : qc.MadeOf H B es received qc.round qc.blockID)
    (hX : X.id H = qc.blockID) (hlater : ¬ (X.number = 0 ∨ X.number = 1))
    (hbls : ∀ v ∈ es.committee.validators, v.pubKey.type = KeyType.bls12381)
    (h : committee'.Honours es.committee qc.bitArray) :
    committee'.Reverifies B es.committee qc where
  quorum := h.quorum
  valid key hkey := (signed_of_madeOf hmade hX hlater).2.1 key (h.keys.subset hkey)
  verify := hmade.anyOrder _ (h.keys.trans (.of_eq (collectedKeys_eq 0 hbls)))

/-- Keys with the same sum verify the aggregate, and no others. -/
theorem reverifies_iff_honoursSum {κ : Type} [AddCommMonoid κ] (sums : B.KeySums κ)
    (hmade : qc.MadeOf H B es received qc.round qc.blockID) (hX : X.id H = qc.blockID)
    (hlater : ¬ (X.number = 0 ∨ X.number = 1)) :
    committee'.Reverifies B es.committee qc
      ↔ committee'.HonoursSum sums es.committee qc.bitArray := by
  obtain ⟨-, hvalid, hverify⟩ := signed_of_madeOf hmade hX hlater
  constructor
  · intro h
    have hne : collectedKeys qc.bitArray 0 committee'.validators ≠ [] := by
      intro hnil
      have hrejected := h.verify
      rw [hnil, sums.rejects_nil] at hrejected
      exact nomatch hrejected
    exact ⟨h.quorum, h.valid, hne,
      (sums.verify_iff _ _ _ _ hvalid h.valid hne hverify).mp h.verify⟩
  · exact fun h => ⟨h.quorum, h.valid,
      (sums.verify_iff _ _ _ _ hvalid h.valid h.ne_nil hverify).mpr h.sum_eq⟩

end Formed

theorem validateQC_eq_true_iff (b : Block) (qc : QuorumCert) (p : Pacemaker) :
    (∃ p', validateQC E b qc p = .ok true p') ↔ p.TrustsQC E b qc := by
  have h := validateQC_exact (E := E) b qc p
  unfold Ensures at h
  split at h
  · rename_i r p' heq
    rw [heq, ← h.1]
    constructor
    · rintro ⟨_, h⟩
      exact (EStateM.Result.ok.inj h).1
    · rintro rfl
      exact ⟨p', rfl⟩
  · rename_i fault p' heq
    rw [heq]
    constructor
    · rintro ⟨_, hok⟩
      exact nomatch hok
    · exact fun htrusts => absurd htrusts h

/-- **Which certificates survive a change of committee**, at a node that does
not have them in its cache. Those do whose signers the new committee honours;
and where keys are added up, those whose signers' keys have the sum of the
keys that the new committee has at their places, and no others. -/
theorem survives_iff (hB : E.B.Aggregates) {es : EpochState} (hn : es.committee.size < 2 ^ 32)
    (hbls : ∀ v ∈ es.committee.validators, v.pubKey.type = KeyType.bls12381)
    (hfresh : es.qcVoteManager = .new es.committeeSize) {qc : QuorumCert}
    (hformed : es.Forms E.B qc) {X : Block} (hX : X.id E.H = qc.blockID) {p : Pacemaker}
    (hn' : p.epochState.committee.size < 2 ^ 32) (hcold : qcID E.H qc ∉ p.validQCs) :
    (0 < p.epochState.committee.size
        ∧ (X.number = 0 ∨ X.number = 1
          ∨ p.epochState.committee.Honours es.committee qc.bitArray) →
      ∃ p', validateQC E X qc.wire p = .ok true p')
    ∧ ∀ (κ : Type) [AddCommMonoid κ] (sums : E.B.KeySums κ),
      (∃ p', validateQC E X qc.wire p = .ok true p')
        ↔ 0 < p.epochState.committee.size
          ∧ (X.number = 0 ∨ X.number = 1
            ∨ p.epochState.committee.HonoursSum sums es.committee qc.bitArray) := by
  obtain ⟨received, hmade⟩ := hformed.madeOf (H := E.H) hB hn hbls hfresh
  have hsize : ¬ p.epochState.committeeSize ≤ 0 ↔ 0 < p.epochState.committee.size := by
    rw [UInt32.not_le, UInt32.lt_iff_toNat_lt, EpochState.committeeSize,
      UInt32.toNat_ofNat_of_lt' hn']
    rfl
  have hcold' : qcID E.H qc.wire ∉ p.validQCs := by
    unfold qcID
    rw [QuorumCert.item_wire]
    exact hcold
  have haccepts : (∃ p', validateQC E X qc.wire p = .ok true p')
      ↔ 0 < p.epochState.committee.size ∧ (X.number = 0 ∨ X.number = 1
        ∨ p.epochState.committee.Reverifies E.B es.committee qc) := by
    rw [validateQC_eq_true_iff, Pacemaker.TrustsQC, or_iff_right hcold', hsize]
    exact and_congr_right fun hpos => verifyQC_wire_iff hmade hX hn' hpos
  rw [haccepts]
  by_cases hfirst : X.number = 0 ∨ X.number = 1
  · have hany : ∀ q : Prop, X.number = 0 ∨ X.number = 1 ∨ q := fun _ => hfirst.imp_right .inl
    exact ⟨fun h => ⟨h.1, hany _⟩, fun κ _ sums => and_congr_right fun _ =>
      iff_of_true (hany _) (hany _)⟩
  · constructor
    · rintro ⟨hpos, h⟩
      exact ⟨hpos, h.imp_right fun h =>
        h.imp_right (reverifies_of_honours hmade hX hfirst hbls)⟩
    · intro κ _ sums
      rw [reverifies_iff_honoursSum sums hmade hX hfirst]

namespace Testnet

/-- The keys of the test network are added up as numbers of eight bytes. -/
def additiveSums : additive.KeySums (ZMod (256 ^ 8)) where
  point key := (Rlp.beValue key : ℕ)
  rejects_nil _ _ := rfl
  verify_iff keys keys' msg sig _ _ hne h := by
    have hsum : ∀ keys : List Bytes,
        (keys.map fun key => ((Rlp.beValue key : ℕ) : ZMod (256 ^ 8))).sum
          = ((keys.map Rlp.beValue).sum : ℕ) := fun keys => by
      rw [← Nat.coe_castAddMonoidHom, map_list_sum, List.map_map]
      rfl
    have hne' : (!keys'.isEmpty) = true := by simpa using hne
    simp only [additive, Bool.and_eq_true, beq_iff_eq] at h ⊢
    rw [and_iff_right hne', h.2, hsum, hsum, ZMod.natCast_eq_natCast_iff', List.append_right_inj,
      Rlp.beBytes_eq_iff]
    exact eq_comm

/-! ## A network that changes its committee -/

/-- The block after which another committee takes over. -/
def lastOfEpoch (next : ValidatorSet) : Block := Builder.build hashes
  { parentID := genesis.id hashes, timestamp := 1, nonce := 0,
    validatorsHash := env.validatorSetHash committee,
    nextValidatorsHash := env.validatorSetHash next,
    proposerIndex := 0, lastKBlock := 0, qc := genesisQC, txs := [] }

/-- A chain on which it is committed. -/
def switchingChain (next : ValidatorSet) : Chain :=
  let c := Chain.initializeStore additiveEnv genesis committee next (fun _ => true)
  let blk := lastOfEpoch next
  { c with
    kv := { c.kv with
      blocks := Function.update c.kv.blocks (blk.id hashes) (some blk)
      hashes := Function.update c.kv.hashes 1 (some (blk.id hashes))
      bestBlockID := blk.id hashes
      bestQC := certificate blk 1 }
    bestBlock := blk
    bestQC := certificate blk 1 }

/-- The block after it, which the old committee still votes on. -/
def afterLast (next : ValidatorSet) : Block :=
  block (lastOfEpoch next) 2 (certificate (lastOfEpoch next) 1) []

/-- The votes of the first three validators on it. -/
def votesAfterLast (next : ValidatorSet) : List QCVote :=
  let id := (afterLast next).id hashes
  [0, 1, 2].map (fun k => ⟨k.toUInt32, 2, id, additive.sign [k] id⟩)

/-- The old committee votes on the block after the last one of its epoch, and
a node that has been started since gives a verdict on the certificate. -/
def crossTest (next : ValidatorSet) (verdict : Bool) : Bool :=
  match newEpochState additiveEnv (switchingChain next) genesis [0],
    startPacemaker additiveEnv (switchingChain next) app [0] 1000000000 with
  | .ok (some es), .ok p =>
    match es.addQCVotes additive (votesAfterLast next) with
    | .ok (qcs, _) => match qcs with
      | [none, none, some qc] =>
        decide (es.committee = committee ∧ p.epochState.committee = next
          ∧ (afterLast next).id hashes = qc.blockID ∧ p.validQCs = [])
        && match validateQC additiveEnv (afterLast next) qc.wire p with
          | .ok r _ => r == verdict
          | .error _ _ => false
      | _ => false
    | _ => false
  | _, _ => false

/-- The certificate is formed and checked, with the verdict. -/
structure CrossChecked (next : ValidatorSet) (verdict : Bool) (es : EpochState) (qc : QuorumCert)
    (p p' : Pacemaker) : Prop where
  made : newEpochState additiveEnv (switchingChain next) genesis [0] = .ok (some es)
  started : startPacemaker additiveEnv (switchingChain next) app [0] 1000000000 = .ok p
  committee_eq : es.committee = committee
  next_eq : p.epochState.committee = next
  formed : es.Forms additive qc
  certifies : (afterLast next).id hashes = qc.blockID
  cold : qcID hashes qc ∉ p.validQCs
  checked : validateQC additiveEnv (afterLast next) qc.wire p = .ok verdict p'

theorem exists_of_crossTest (next : ValidatorSet) (verdict : Bool)
    (h : crossTest next verdict = true) : ∃ es qc p p', CrossChecked next verdict es qc p p' := by
  unfold crossTest at h
  split at h
  · rename_i es p hes hp
    split at h
    · rename_i qcs last hcalls
      split at h
      · rename_i qc
        obtain ⟨hprops, hcheck⟩ := Bool.and_eq_true_iff.mp h
        obtain ⟨hcommittee, hnext, hid, hcold⟩ := of_decide_eq_true hprops
        split at hcheck
        · rename_i r p' hvalidate
          obtain rfl := eq_of_beq hcheck
          refine ⟨es, qc, p, p', hes, hp, hcommittee, hnext, ⟨_, _, _, hcalls, by simp⟩, hid, ?_,
            hvalidate⟩
          rw [hcold]
          exact List.not_mem_nil
        · exact nomatch hcheck
      · exact nomatch h
    · exact nomatch h
  · exact nomatch h

/-- The fourth validator is replaced: the certificate of the other three
survives. -/
def fourthReplaced : ValidatorSet :=
  ⟨[0, 1, 2, 9].map (fun k => ⟨[k], ⟨.bls12381, [k]⟩, 1⟩)⟩

/-- A fifth validator takes the first place. -/
def fifthFirst : ValidatorSet :=
  ⟨[9, 0, 1, 2, 3].map (fun k => ⟨[k], ⟨.bls12381, [k]⟩, 1⟩)⟩

/-- A certificate that survives, as its places are the same in both
committees. -/
theorem survives_of_fourthReplaced :
    ∃ es qc p p', CrossChecked fourthReplaced true es qc p p'
      ∧ (0 < p.epochState.committee.size
          ∧ ((afterLast fourthReplaced).number = 0 ∨ (afterLast fourthReplaced).number = 1
            ∨ p.epochState.committee.Honours es.committee qc.bitArray) →
        ∃ p', validateQC additiveEnv (afterLast fourthReplaced) qc.wire p = .ok true p')
      ∧ ((∃ p', validateQC additiveEnv (afterLast fourthReplaced) qc.wire p = .ok true p')
        ↔ 0 < p.epochState.committee.size
          ∧ ((afterLast fourthReplaced).number = 0 ∨ (afterLast fourthReplaced).number = 1
            ∨ p.epochState.committee.HonoursSum additiveSums es.committee qc.bitArray)) := by
  obtain ⟨es, qc, p, p', h⟩ := exists_of_crossTest fourthReplaced true (by decide +kernel)
  have hiff := survives_iff (E := additiveEnv) additive_aggregates
    (by rw [h.committee_eq]; decide) (by rw [h.committee_eq]; decide) (newEpochState_fresh h.made)
    h.formed h.certifies (by rw [h.next_eq]; decide) h.cold
  exact ⟨es, qc, p, p', h, hiff.1, hiff.2 _ additiveSums⟩

/-- **A certificate of the old committee is refused by the new one.** -/
theorem certificate_lost_with_fifthFirst :
    ∃ es qc p p', CrossChecked fifthFirst false es qc p p' :=
  exists_of_crossTest fifthFirst false (by decide +kernel)

end Testnet

end LoragonBFT
