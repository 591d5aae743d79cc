import LoragonBFT.QuorumFormation
import LoragonBFT.Util.TwoChain
import Mathlib.Data.Rat.Floor
import Mathlib.Tactic.Linarith

/-!
# Quorums have members in common

Whether a certificate is formed, by the managers that collect the votes, and
whether one is accepted, by `VerifyQC`, is decided by `MajorityTwoThird`. What
makes a certificate worth anything is that no two of them can do without a
common signer who keeps to the rules. This comes down to counting – two sets of
two thirds of a committee share a third of it – once it is clear that
`MajorityTwoThird` asks for two thirds.

The function computes `math.Ceil(float64(n) * 2 / 3)`. A `uint32` doubled is a
`float64`, but a third of it need not be, so what is rounded up is a quotient
that has been rounded already. A quotient that is an integer is not changed by
that, and any other is a third away from the nearest ones, which is far more
than the rounding can make up for (`ceil_eq_twoThirds`). The threshold is
therefore the same as in exact arithmetic, and is what the model has:
`twoThirds`.
-/

namespace LoragonBFT

/-! ## The threshold -/

/-- `MajorityTwoThird`, given the quotient whose ceiling is the threshold. -/
def majorityTwoThirdOf (quotient : ℚ) (voterNum committeeSize : UInt32) : Bool :=
  if committeeSize < 1 then false else decide ((⌈quotient⌉ : ℚ) ≤ voterNum.toNat)

/-- What dividing `2 * n` by three gives, rounded to the 53 bits of a `float64`:
the quotient itself if it is an integer, and otherwise one that is off by no
more than half a unit in the last place. -/
structure RoundedQuotient (n : ℕ) (q : ℚ) : Prop where
  exact_of_dvd : 3 ∣ 2 * n → q = n * 2 / 3
  near : |q - n * 2 / 3| ≤ n * 2 / 3 / 2 ^ 53

theorem RoundedQuotient.refl (n : ℕ) : RoundedQuotient n (n * 2 / 3) where
  exact_of_dvd _ := rfl
  near := by
    rw [sub_self, abs_zero]
    positivity

/-- **Rounding the quotient does not change the threshold.** -/
theorem ceil_eq_twoThirds {n : UInt32} {q : ℚ} (h : RoundedQuotient n.toNat q) :
    ⌈q⌉ = (twoThirds n : ℤ) := by
  have hn : n.toNat < 2 ^ 32 := n.toNat_lt
  unfold twoThirds
  by_cases hdvd : 3 ∣ 2 * n.toNat
  · obtain ⟨k, hk⟩ := hdvd
    have hthreshold : (n.toNat * 2 + 2) / 3 = k := by omega
    have hq : q = (k : ℤ) := by
      have hcast : (2 : ℚ) * n.toNat = 3 * k := by exact_mod_cast hk
      rw [h.exact_of_dvd ⟨k, hk⟩, Int.cast_natCast]
      linarith
    rw [hthreshold, hq, Int.ceil_intCast]
  · -- the quotient is at least a third away from both its neighbours
    obtain ⟨k, hlow, hhigh⟩ : ∃ k, 3 * k + 1 ≤ 2 * n.toNat ∧ 2 * n.toNat ≤ 3 * k + 2 :=
      ⟨2 * n.toNat / 3, by omega, by omega⟩
    have hthreshold : (n.toNat * 2 + 2) / 3 = k + 1 := by omega
    have hlow' : (3 : ℚ) * k + 1 ≤ 2 * n.toNat := by exact_mod_cast hlow
    have hhigh' : (2 : ℚ) * n.toNat ≤ 3 * k + 2 := by exact_mod_cast hhigh
    have hbound : (n.toNat : ℚ) * 2 / 3 / 2 ^ 53 < 1 / 3 := by
      have hcast : (n.toNat : ℚ) < 2 ^ 32 := by exact_mod_cast hn
      linarith
    obtain ⟨hbelow, habove⟩ := abs_le.mp h.near
    rw [hthreshold, Int.ceil_eq_iff]
    push_cast
    constructor
    · linarith
    · linarith

/-- **`MajorityTwoThird` may be computed with any of these quotients.** -/
theorem majorityTwoThird_eq_of_rounded {voterNum committeeSize : UInt32} {q : ℚ}
    (h : RoundedQuotient committeeSize.toNat q) :
    majorityTwoThird voterNum committeeSize
      = majorityTwoThirdOf q voterNum committeeSize := by
  unfold majorityTwoThird majorityTwoThirdOf
  rw [ceil_eq_twoThirds h]
  norm_cast

/-! ## Sets of members -/

section
variable {P : Type} {committee Q Q' : Finset P} {n : UInt32}

/-- A set of members that is accepted is two thirds of the committee. -/
theorem two_mul_card_le_of_majority (hsize : committee.card = n.toNat) (hQ : Q ⊆ committee)
    (h : majorityTwoThird (UInt32.ofNat Q.card) n = true) :
    2 * committee.card ≤ 3 * Q.card := by
  -- the set is no larger than the committee, so its size is not cut off
  have hlt : Q.card < 2 ^ 32 :=
    lt_of_le_of_lt (Finset.card_le_card hQ) (hsize ▸ n.toNat_lt)
  rw [majorityTwoThird_iff, UInt32.toNat_ofNat_of_lt' hlt, ← hsize] at h
  exact h.2

variable [DecidableEq P]

/-- Two sets of members that are accepted share a third of the committee. -/
theorem card_le_three_mul_card_inter_of_majority (hsize : committee.card = n.toNat)
    (hQ : Q ⊆ committee) (hQ' : Q' ⊆ committee)
    (h : majorityTwoThird (UInt32.ofNat Q.card) n = true)
    (h' : majorityTwoThird (UInt32.ofNat Q'.card) n = true) :
    n.toNat ≤ 3 * (Q ∩ Q').card := by
  rw [← hsize]
  exact TwoChain.card_le_three_mul_card_inter hQ hQ' (two_mul_card_le_of_majority hsize hQ h)
    (two_mul_card_le_of_majority hsize hQ' h')

/-- **Quorum intersection.** For a committee that is not empty
`MajorityTwoThird`, which is what it is in exact arithmetic, asks for two thirds
of the members, and any two sets of members that it accepts share more of them
than can be faulty. -/
theorem quorums_intersect :
    (∀ voterNum committeeSize : UInt32, 1 ≤ committeeSize →
      majorityTwoThird voterNum committeeSize
          = majorityTwoThirdOf (committeeSize.toNat * 2 / 3) voterNum committeeSize
        ∧ (majorityTwoThird voterNum committeeSize = true
          ↔ 3 * voterNum.toNat ≥ 2 * committeeSize.toNat))
    ∧ ∀ (committee Q Q' : Finset P) (n : UInt32), committee.card = n.toNat → 1 ≤ n →
      Q ⊆ committee → Q' ⊆ committee →
      majorityTwoThird (UInt32.ofNat Q.card) n = true →
      majorityTwoThird (UInt32.ofNat Q'.card) n = true →
      ∀ f, 3 * f < n.toNat → f < (Q ∩ Q').card := by
  constructor
  · intro voterNum committeeSize hpos
    have hpos' : 0 < committeeSize.toNat := UInt32.le_iff_toNat_le.mp hpos
    refine ⟨majorityTwoThird_eq_of_rounded (.refl _), ?_⟩
    rw [majorityTwoThird_iff]
    exact ⟨fun h => h.2, fun h => ⟨hpos', h⟩⟩
  · intro committee Q Q' n hsize _ hQ hQ' h h' f hf
    have hthird := card_le_three_mul_card_inter_of_majority hsize hQ hQ' h h'
    omega

/-- Of four members any two quorums share two. -/
theorem three_of_four_intersect :
    majorityTwoThird 3 4 = true
      ∧ 1 < (({0, 1, 2} : Finset ℕ) ∩ {1, 2, 3}).card :=
  ⟨((quorums_intersect (P := ℕ)).1 3 4 (by decide)).2.mpr (by decide),
    (quorums_intersect (P := ℕ)).2 {0, 1, 2, 3} {0, 1, 2} {1, 2, 3} 4 (by decide)
      (by decide) (by decide) (by decide) (by decide) (by decide) 1 (by decide)⟩

end

/-! ## Certificates -/

/-- The places of the members whose keys take part in a certificate. -/
def signerPlaces (committee : ValidatorSet) (bA : BitArray) : Finset ℕ :=
  ((signers committee bA).map Prod.snd).toFinset

/-- The signature is made of those of the members that take part, on the block
that is certified. -/
def QuorumCert.IsSigned (B : Bls) (committee : ValidatorSet) (qc : QuorumCert) : Prop :=
  qc.aggSig = B.aggregateSignatures
    ((signers committee qc.bitArray).map (fun v => B.sign v.1.pubKey.bytes qc.blockID))

theorem signerPlaces_subset {committee : ValidatorSet} {bA : BitArray}
    (hsize : bA.size = committee.size) :
    signerPlaces committee bA ⊆ Finset.range committee.size := by
  intro i hi
  rw [signerPlaces, List.mem_toFinset, places_signers committee hsize, List.mem_filter,
    List.mem_range, hsize] at hi
  exact Finset.mem_range.mpr hi.1

/-- A certificate that is accepted, for a block past the first two, is signed
by two thirds of the committee. -/
theorem isSigned_of_verifyQC {H : Hashes} {B : Bls} (hgenuine : B.Genuine) {b : Block}
    {qc : QuorumCert} {committee : ValidatorSet} (hn : committee.size < 2 ^ 32)
    (hbls : ∀ v ∈ committee.validators, v.pubKey.type = KeyType.bls12381) (hb : 2 ≤ b.number)
    (hsize : qc.bitArray.size = committee.size)
    (hverify : b.verifyQC H B qc committee = .ok (true, none)) :
    qc.IsSigned B committee
      ∧ 2 * committee.size ≤ 3 * (signerPlaces committee qc.bitArray).card := by
  rcases Block.verifyQC_eq_true_iff.mp hverify with ⟨-, hfirst⟩ | hverified
  · rcases hfirst with h | h <;> rw [h] at hb <;> exact absurd hb (by decide)
  obtain ⟨count, keys, hcount, hmajority, hkeys, -, hsig⟩ := hverified
  constructor
  · rw [QuorumCert.IsSigned, hgenuine.accepts_only keys _ _ hsig, signerKeys_eq 0 _ hbls hkeys,
      ← signers, List.map_map]
    rfl
  · have hnodup : ((List.range qc.bitArray.size).filter qc.bitArray.bit).Nodup :=
      List.nodup_range.filter _
    rw [signerPlaces, places_signers committee hsize, List.toFinset_card_of_nodup hnodup,
      ← BitArray.count_eq hcount]
    exact ((majority_iff_of_count hcount hn).mp hmajority).2

/-- **Two certificates that are accepted have signers in common**, more than
can be faulty, whichever blocks past the first two they are for, if their bit
arrays are of the committee's size and the committee has BLS keys: both are
aggregates of signatures of these members on what they certify. -/
theorem certificates_share_signers {H : Hashes} {B : Bls} (hgenuine : B.Genuine) {b b' : Block}
    {qc qc' : QuorumCert} {committee : ValidatorSet} (hn : committee.size < 2 ^ 32)
    (hbls : ∀ v ∈ committee.validators, v.pubKey.type = KeyType.bls12381) (hb : 2 ≤ b.number)
    (hb' : 2 ≤ b'.number) (hsize : qc.bitArray.size = committee.size)
    (hsize' : qc'.bitArray.size = committee.size)
    (hverify : b.verifyQC H B qc committee = .ok (true, none))
    (hverify' : b'.verifyQC H B qc' committee = .ok (true, none)) :
    qc.IsSigned B committee ∧ qc'.IsSigned B committee
      ∧ ∀ f, 3 * f < committee.size →
        f < (signerPlaces committee qc.bitArray ∩ signerPlaces committee qc'.bitArray).card := by
  obtain ⟨hsigned, hmany⟩ := isSigned_of_verifyQC hgenuine hn hbls hb hsize hverify
  obtain ⟨hsigned', hmany'⟩ := isSigned_of_verifyQC hgenuine hn hbls hb' hsize' hverify'
  refine ⟨hsigned, hsigned', fun f hf => ?_⟩
  rw [← Finset.card_range committee.size] at hmany hmany'
  have hthird := TwoChain.card_le_three_mul_card_inter (signerPlaces_subset hsize)
    (signerPlaces_subset hsize') hmany hmany'
  rw [Finset.card_range] at hthird
  omega

/-- Certificates of two blocks on one parent. -/
theorem Testnet.siblings_share_signers :
    let b := block genesis 1 genesisQC []
    let qc := certificate (block b 2 genesisQC []) 1
    let qc' := certificate (block b 3 genesisQC []) 2
    qc.IsSigned bls committee ∧ qc'.IsSigned bls committee
      ∧ ∀ f, 3 * f < committee.size →
        f < (signerPlaces committee qc.bitArray ∩ signerPlaces committee qc'.bitArray).card :=
  certificates_share_signers (H := hashes) bls_genuine (by decide) (by decide)
    (b := block (block genesis 1 genesisQC []) 2 genesisQC [])
    (by decide +kernel) (show 2 ≤ (block (block genesis 1 genesisQC []) 3 genesisQC []).number by
      decide +kernel) rfl rfl (by decide +kernel) (by decide +kernel)

end LoragonBFT
