import LoragonBFT.CommitteeChange
import LoragonBFT.HeaderChecks
import LoragonBFT.SharedValidators

/-!
# Chains that cross a change of committee

A block is certified by the votes of a committee, and the certificate goes
into the next block. Which committee that is depends on the epoch state that
the node which collects the votes has in force, and the node makes a new one
(`NewEpochState`) some time after the last block of an epoch: not with the
next block, but when that block is committed and the pacemaker regulates, a
few blocks later. Between the two the header of every block already speaks of
the new validators.

`CertifiedChain` is such a chain, with the delay left open: for every block
past the first the leaf is given that the epoch state in force was made for.
Two things are read off it. The number of an epoch is one more than the epoch
of the certificate in the block that began it, and so two blocks that end an
epoch get the same number when the second comes before the switch that the
first asks for. And `BuildLastCommitInfo` reads the votes on a block against
the validators in that block's own header, which in the blocks before the
switch are not those who voted.
-/

namespace LoragonBFT

variable {E : Env} {vset nextVSet : ValidatorSet}

/-- The certificate is carried in a block: as it was made, or as it is read
back. -/
def QuorumCert.CarriedAs (qc carried : QuorumCert) : Prop := carried = qc ∨ carried = qc.wire

/-- The first blocks of a chain's trunk. -/
def Chain.HasTrunk (c : Chain) (block : ℕ → Block) (n : ℕ) : Prop :=
  ∀ i ≤ n, c.getTrunkBlock (UInt32.ofNat i) = some (block i)

variable {c : Chain} {es : EpochState} {qc : QuorumCert} {i : ℕ} {bA : BitArray}

theorem Chain.hasTrunk_zero {block : ℕ → Block} (h : c.getTrunkBlock 0 = some (block 0)) :
    c.HasTrunk block 0 := by
  intro i hi
  obtain rfl : i = 0 := Nat.le_zero.mp hi
  exact h

/-- **A chain as consensus makes it**, from a genesis whose validators may be
changed by the application. -/
structure CertifiedChain (E : Env) (vset nextVSet : ValidatorSet) where
  /-- The number of the last block. -/
  height : ℕ
  block : ℕ → Block
  /-- The number of the leaf that the epoch state was made for under which a
  block was voted on. -/
  leaf : ℕ → ℕ
  /-- That epoch state. -/
  inForce : ℕ → EpochState
  size_next : nextVSet.size < 2 ^ 32
  size_inForce : ∀ i, 0 < i → i < height → (inForce i).committee.size < 2 ^ 32
  genesis : ∃ timestamp extraData,
    block 0 = (Genesis.build E timestamp extraData vset nextVSet).block
  number_eq : ∀ i ≤ height, (block i).number.toNat = i
  /-- The headers are what `buildBlock` makes. -/
  fields : ∀ i < height, ∃ registry, ValidatorFields E registry (block i) (block (i + 1)).header
  /-- The first block carries the certificate that comes with the genesis. -/
  first : 0 < height → (genesisEscortQC E.H (block 0) nextVSet.size).CarriedAs (block 1).qc
  leaf_le : ∀ i, 0 < i → i < height → leaf i ≤ i
  made : ∀ i, 0 < i → i < height → ∃ c myPubKey, c.HasTrunk block (leaf i)
    ∧ newEpochState E c (block (leaf i)) myPubKey = .ok (some (inForce i))
  /-- The other blocks carry a certificate of their parent, made under the
  epoch state in force. -/
  formed : ∀ i, 0 < i → i < height → ∃ qc, (inForce i).Forms E.B qc
    ∧ qc.blockID = (block i).id E.H ∧ qc.CarriedAs (block (i + 1)).qc

/-- The committee that a block's certificate is of. On the genesis nobody
votes; its certificate is made for the validators that come next. -/
def CertifiedChain.voters (C : CertifiedChain E vset nextVSet) : ℕ → ValidatorSet
  | 0 => nextVSet
  | i + 1 => (C.inForce (i + 1)).committee

/-! ## Epoch states -/

/-- The epoch follows that of the block which ended the one before. -/
theorem newEpochState_spec {leaf : Block} {myPubKey : Bytes}
    (h : newEpochState E c leaf myPubKey = .ok (some es)) :
    ∃ kblk, epochKBlock c leaf = some kblk ∧ es.epoch = kblk.qc.epoch + 1 := by
  obtain ⟨kblk, vset, hkblk, -, -, hepoch, -⟩ := newEpochState_eq h
  exact ⟨kblk, hkblk, hepoch⟩

theorem QuorumCert.CarriedAs.epoch_eq {carried : QuorumCert} (h : qc.CarriedAs carried) :
    carried.epoch = qc.epoch := by
  rcases h with rfl | rfl <;> rfl

theorem EpochState.Forms.epoch_eq {B : Bls} (h : es.Forms B qc) : qc.epoch = es.epoch := by
  obtain ⟨cur, next, w, hepoch, -, -, hcall⟩ := h.exists_call
  rw [(EpochState.eq_of_addQCVote hcall).2.2, hepoch]

namespace CertifiedChain

variable (C : CertifiedChain E vset nextVSet)

/-- The block with a number ends an epoch. -/
def IsK (k : ℕ) : Prop := (C.block k).isKBlock = true

instance (k : ℕ) : Decidable (C.IsK k) := inferInstanceAs (Decidable (_ = _))

/-- The number of the block that began the epoch a block is in. -/
def epochStart : ℕ → ℕ
  | 0 => 0
  | j + 1 => if C.IsK (j + 1) then j + 1 else epochStart j

variable {j k : ℕ}

theorem epochStart_of_isK (h : C.IsK j) : C.epochStart j = j := by
  cases j with
  | zero => rfl
  | succ j => exact if_pos h

theorem epochStart_succ (h : ¬ C.IsK (j + 1)) : C.epochStart (j + 1) = C.epochStart j :=
  if_neg h

theorem epochStart_le (j : ℕ) : C.epochStart j ≤ j := by
  induction j with
  | zero => exact le_rfl
  | succ j ih =>
    by_cases hk : C.IsK (j + 1)
    · exact (C.epochStart_of_isK hk).le
    · exact (C.epochStart_succ hk).trans_le (ih.trans (Nat.le_succ j))

/-- An epoch begins with a block that ended one, or with the genesis. -/
theorem isK_epochStart (j : ℕ) : C.IsK (C.epochStart j) ∨ C.epochStart j = 0 := by
  induction j with
  | zero => exact .inr rfl
  | succ j ih =>
    by_cases hk : C.IsK (j + 1)
    · exact .inl ((C.epochStart_of_isK hk).symm ▸ hk)
    · rwa [C.epochStart_succ hk]

/-- The epoch begins with the last such block. -/
theorem le_epochStart (hk : C.IsK k) (hle : k ≤ j) : k ≤ C.epochStart j := by
  induction j with
  | zero => exact hle
  | succ j ih =>
    by_cases hlast : C.IsK (j + 1)
    · exact hle.trans (C.epochStart_of_isK hlast).ge
    · rcases Nat.le_succ_iff.mp hle with hle | rfl
      · exact (ih hle).trans (C.epochStart_succ hlast).ge
      · exact absurd hk hlast

/-- Up to a block with nothing in between that ends an epoch, the epoch is
the same. -/
theorem epochStart_eq (hk : C.IsK k) (hle : k ≤ j) (hnone : ∀ i, k < i → i ≤ j → ¬ C.IsK i) :
    C.epochStart j = k := by
  refine le_antisymm ?_ (C.le_epochStart hk hle)
  by_contra hlt
  rcases C.isK_epochStart j with hstart | hzero
  · exact hnone _ (not_le.mp hlt) (C.epochStart_le j) hstart
  · omega

theorem lt_of_le_height (hi : i ≤ C.height) : i < 2 ^ 32 := by
  rw [← C.number_eq i hi]
  exact (C.block i).number.toNat_lt

theorem number_eq_ofNat (hi : i ≤ C.height) : (C.block i).number = UInt32.ofNat i := by
  apply UInt32.toNat.inj
  rw [C.number_eq i hi, UInt32.toNat_ofNat_of_lt' (C.lt_of_le_height hi)]

theorem lastKBlock_genesis : (C.block 0).header.lastKBlock = 0 := by
  obtain ⟨timestamp, extraData, h⟩ := C.genesis
  rw [h]
  rfl

/-- **`LastKBlock` is the block that began the epoch of the parent.** -/
theorem lastKBlock_eq (hj : j < C.height) :
    (C.block (j + 1)).header.lastKBlock = UInt32.ofNat (C.epochStart j) := by
  induction j with
  | zero =>
    obtain ⟨registry, hfields⟩ := C.fields 0 hj
    rw [hfields.lastKBlock, C.lastKBlock_genesis, C.number_eq_ofNat (Nat.zero_le _)]
    split <;> rfl
  | succ j ih =>
    obtain ⟨registry, hfields⟩ := C.fields (j + 1) hj
    rw [hfields.lastKBlock, ih (by omega), C.number_eq_ofNat hj.le]
    split
    · rename_i hk
      rw [C.epochStart_of_isK hk]
    · rename_i hk
      rw [C.epochStart_succ hk]

/-- **`NewEpochState` finds the block that began the epoch.** -/
theorem epochKBlock_eq (hj : j ≤ C.height) (hc : c.HasTrunk C.block j) :
    epochKBlock c (C.block j) = some (C.block (C.epochStart j)) := by
  unfold epochKBlock
  cases j with
  | zero =>
    split
    · rfl
    · rw [C.lastKBlock_genesis]
      exact hc 0 le_rfl
  | succ j =>
    split
    · rename_i hk
      rw [C.epochStart_of_isK hk]
    · rename_i hk
      rw [C.lastKBlock_eq hj, C.epochStart_succ hk]
      exact hc _ ((C.epochStart_le j).trans (Nat.le_succ j))

/-! ## Epoch numbers -/

/-- The epoch of the certificate in a block. -/
def epoch (k : ℕ) : ℕ := (C.block k).qc.epoch.toNat

theorem epoch_zero : C.epoch 0 = 0 := by
  obtain ⟨timestamp, extraData, h⟩ := C.genesis
  unfold epoch
  rw [h]
  rfl

theorem epoch_one (h : 0 < C.height) : C.epoch 1 = 0 := by
  unfold epoch
  rw [(C.first h).epoch_eq]
  rfl

theorem qc_epoch_eq (hpos : 0 < i) (hi : i < C.height) :
    (C.block (i + 1)).qc.epoch = (C.block (C.epochStart (C.leaf i))).qc.epoch + 1 := by
  obtain ⟨c, myPubKey, htrunk, hmade⟩ := C.made i hpos hi
  obtain ⟨kblk, hkblk, hepoch⟩ := newEpochState_spec hmade
  rw [C.epochKBlock_eq ((C.leaf_le i hpos hi).trans hi.le) htrunk] at hkblk
  obtain ⟨qc, hformed, -, hcarried⟩ := C.formed i hpos hi
  rw [hcarried.epoch_eq, hformed.epoch_eq, hepoch, Option.some.inj hkblk]

/-- **Epochs do not wrap**: there are no more of them than blocks. -/
theorem epoch_le (hk : k ≤ C.height) : C.epoch k ≤ k := by
  induction k using Nat.strong_induction_on with
  | _ k ih =>
    match k, hk with
    | 0, _ => exact C.epoch_zero.le
    | 1, hk => exact (C.epoch_one hk).trans_le (Nat.zero_le 1)
    | i + 2, hk =>
      have hpos : 0 < i + 1 := Nat.succ_pos i
      have hstart : C.epochStart (C.leaf (i + 1)) ≤ i + 1 :=
        (C.epochStart_le _).trans (C.leaf_le (i + 1) hpos hk)
      have hle : (C.block (C.epochStart (C.leaf (i + 1)))).qc.epoch.toNat
          ≤ C.epochStart (C.leaf (i + 1)) := ih _ (by omega) (by omega)
      show (C.block (i + 1 + 1)).qc.epoch.toNat ≤ i + 2
      rw [C.qc_epoch_eq hpos hk, UInt64.toNat_add]
      have hsum := Nat.mod_le ((C.block (C.epochStart (C.leaf (i + 1)))).qc.epoch.toNat
        + (1 : UInt64).toNat) (2 ^ 64)
      have hone : (1 : UInt64).toNat = 1 := rfl
      omega

/-- **The epoch of a certificate is one more than that of the certificate in
the block that began the epoch it was made in.** -/
theorem epoch_succ (hpos : 0 < i) (hi : i < C.height) :
    C.epoch (i + 1) = C.epoch (C.epochStart (C.leaf i)) + 1 := by
  have hstart : C.epochStart (C.leaf i) ≤ i := (C.epochStart_le _).trans (C.leaf_le i hpos hi)
  have hle : (C.block (C.epochStart (C.leaf i))).qc.epoch.toNat ≤ _ :=
    C.epoch_le (hstart.trans hi.le)
  have hlt := C.lt_of_le_height hi.le
  have hone : (1 : UInt64).toNat = 1 := rfl
  show (C.block (i + 1)).qc.epoch.toNat = (C.block (C.epochStart (C.leaf i))).qc.epoch.toNat + 1
  rw [C.qc_epoch_eq hpos hi, UInt64.toNat_add, hone, Nat.mod_eq_of_lt (by omega)]

/-- Past the first block, the epoch is not zero. -/
theorem epoch_pos (h : 1 < k) (hk : k ≤ C.height) : 0 < C.epoch k := by
  obtain ⟨i, rfl⟩ : ∃ i, k = i + 1 := ⟨k - 1, by omega⟩
  rw [C.epoch_succ (by omega) hk]
  exact Nat.succ_pos _

/-- **Epoch numbers identify committees**: of any two blocks that end an
epoch, the later one begins an epoch with a larger number. -/
def EpochsIncrease : Prop :=
  ∀ k₁ k₂, k₁ < k₂ → k₂ ≤ C.height → C.IsK k₁ → C.IsK k₂ →
    ∀ c₁ c₂ key₁ key₂ es₁ es₂, newEpochState E c₁ (C.block k₁) key₁ = .ok (some es₁) →
      newEpochState E c₂ (C.block k₂) key₂ = .ok (some es₂) → es₁.epoch < es₂.epoch

/-- **The switches are made in time**: where two blocks that end an epoch
follow each other, the parent of the second is not the genesis, and is voted
on under an epoch state that was made for the first one or a block after it.
For the first block of the chain this is not needed, as its certificate is of
no epoch. -/
def SwitchesInTime : Prop :=
  ∀ k₁ k₂, k₁ < k₂ → k₂ ≤ C.height → C.IsK k₁ → C.IsK k₂ →
    (∀ i, k₁ < i → i < k₂ → ¬ C.IsK i) → 1 < k₂ ∧ (k₁ ≤ 1 ∨ k₁ ≤ C.leaf (k₂ - 1))

/-- The epoch a block begins. -/
theorem epoch_of_newEpochState {key : Bytes} (hk : C.IsK k)
    (h : newEpochState E c (C.block k) key = .ok (some es)) :
    es.epoch = (C.block k).qc.epoch + 1 := by
  obtain ⟨kblk, hkblk, hepoch⟩ := newEpochState_spec h
  have hself : epochKBlock c (C.block k) = some (C.block k) := if_pos hk
  rw [hepoch, Option.some.inj (hkblk.symm.trans hself)]

/-- The numbers of two epochs compare as the certificates do. -/
theorem epoch_lt_iff {k₁ k₂ : ℕ} (h₁ : k₁ ≤ C.height) (h₂ : k₂ ≤ C.height) :
    (C.block k₁).qc.epoch + 1 < (C.block k₂).qc.epoch + 1 ↔ C.epoch k₁ < C.epoch k₂ := by
  have hle₁ : (C.block k₁).qc.epoch.toNat ≤ k₁ := C.epoch_le h₁
  have hle₂ : (C.block k₂).qc.epoch.toNat ≤ k₂ := C.epoch_le h₂
  have hlt₁ := C.lt_of_le_height h₁
  have hlt₂ := C.lt_of_le_height h₂
  have hone : (1 : UInt64).toNat = 1 := rfl
  rw [UInt64.lt_iff_toNat_lt, UInt64.toNat_add, UInt64.toNat_add, hone,
    Nat.mod_eq_of_lt (by omega), Nat.mod_eq_of_lt (by omega)]
  exact Nat.add_lt_add_iff_right

/-- `EpochsIncrease` in numbers, if every block that ends an epoch begins
one. -/
theorem epochsIncrease_iff_epoch
    (hknown : ∀ k ≤ C.height, C.IsK k → ∃ c key es,
      newEpochState E c (C.block k) key = .ok (some es)) :
    C.EpochsIncrease ↔ ∀ k₁ k₂, k₁ < k₂ → k₂ ≤ C.height → C.IsK k₁ → C.IsK k₂ →
      C.epoch k₁ < C.epoch k₂ := by
  constructor
  · intro h k₁ k₂ hlt hle hk₁ hk₂
    obtain ⟨c₁, key₁, es₁, hes₁⟩ := hknown k₁ (hlt.le.trans hle) hk₁
    obtain ⟨c₂, key₂, es₂, hes₂⟩ := hknown k₂ hle hk₂
    have hepoch := h k₁ k₂ hlt hle hk₁ hk₂ c₁ c₂ key₁ key₂ es₁ es₂ hes₁ hes₂
    rw [C.epoch_of_newEpochState hk₁ hes₁, C.epoch_of_newEpochState hk₂ hes₂] at hepoch
    exact (C.epoch_lt_iff (hlt.le.trans hle) hle).mp hepoch
  · intro h k₁ k₂ hlt hle hk₁ hk₂ c₁ c₂ key₁ key₂ es₁ es₂ hes₁ hes₂
    rw [C.epoch_of_newEpochState hk₁ hes₁, C.epoch_of_newEpochState hk₂ hes₂]
    exact (C.epoch_lt_iff (hlt.le.trans hle) hle).mpr (h k₁ k₂ hlt hle hk₁ hk₂)

/-- **A switch in time gives the next epoch a larger number.** -/
theorem SwitchesInTime.epoch_lt_next {C : CertifiedChain E vset nextVSet} (h : C.SwitchesInTime)
    {k₁ k₂ : ℕ} (hlt : k₁ < k₂) (hle : k₂ ≤ C.height) (hk₁ : C.IsK k₁) (hk₂ : C.IsK k₂)
    (hnone : ∀ i, k₁ < i → i < k₂ → ¬ C.IsK i) : C.epoch k₁ < C.epoch k₂ := by
  obtain ⟨hone, hin⟩ := h k₁ k₂ hlt hle hk₁ hk₂ hnone
  rcases hin with hfirst | hleaf
  · have hzero : C.epoch k₁ = 0 := by
      rcases Nat.le_one_iff_eq_zero_or_eq_one.mp hfirst with rfl | rfl
      · exact C.epoch_zero
      · exact C.epoch_one (by omega)
    rw [hzero]
    exact C.epoch_pos hone hle
  · obtain ⟨i, rfl⟩ : ∃ i, k₂ = i + 1 := ⟨k₂ - 1, by omega⟩
    have hi := C.leaf_le i (by omega) hle
    have hstart : C.epochStart (C.leaf i) = k₁ :=
      C.epochStart_eq hk₁ hleaf fun j hj hji => hnone j hj (by omega)
    rw [C.epoch_succ (by omega) hle, hstart]
    exact Nat.lt_succ_self _

/-- **When epoch numbers identify committees.** -/
theorem epochsIncrease_iff_switchesInTime
    (hknown : ∀ k ≤ C.height, C.IsK k → ∃ c key es,
      newEpochState E c (C.block k) key = .ok (some es)) :
    C.EpochsIncrease ↔ C.SwitchesInTime := by
  rw [C.epochsIncrease_iff_epoch hknown]
  constructor
  · intro h k₁ k₂ hlt hle hk₁ hk₂ hnone
    have hinc := h k₁ k₂ hlt hle hk₁ hk₂
    have hone : 1 < k₂ := by
      by_contra hnot
      obtain rfl : k₂ = 1 := by omega
      rw [C.epoch_one hle] at hinc
      exact Nat.not_lt_zero _ hinc
    refine ⟨hone, ?_⟩
    by_contra hlate
    obtain ⟨hpast, hleaf⟩ := not_or.mp hlate
    obtain ⟨i, rfl⟩ : ∃ i, k₂ = i + 1 := ⟨k₂ - 1, by omega⟩
    -- the epoch in force began with a block before the first of the two
    have hstart : C.epochStart (C.leaf i) < k₁ :=
      lt_of_le_of_lt (C.epochStart_le _) (not_le.mp hleaf)
    rw [C.epoch_succ (by omega) hle] at hinc
    have hle₁ : k₁ ≤ C.height := hlt.le.trans hle
    rcases C.isK_epochStart (C.leaf i) with hk₀ | hzero
    · have hinc₀ := h _ k₁ hstart hle₁ hk₀ hk₁
      omega
    · have hpos := C.epoch_pos (not_le.mp hpast) hle₁
      rw [hzero, C.epoch_zero] at hinc
      omega
  · intro h k₁ k₂
    induction k₂ using Nat.strong_induction_on with
    | _ k₂ ih =>
      intro hlt hle hk₁ hk₂
      obtain ⟨j, rfl⟩ : ∃ j, k₂ = j + 1 := ⟨k₂ - 1, by omega⟩
      -- the last block before that ends an epoch
      have hge : k₁ ≤ C.epochStart j := C.le_epochStart hk₁ (Nat.lt_succ_iff.mp hlt)
      have hlast : C.epochStart j < j + 1 := Nat.lt_succ_of_le (C.epochStart_le j)
      have hk : C.IsK (C.epochStart j) := by
        rcases C.isK_epochStart j with hk | hzero
        · exact hk
        · obtain rfl : k₁ = 0 := by omega
          rwa [hzero]
      have hnext : C.epoch (C.epochStart j) < C.epoch (j + 1) :=
        h.epoch_lt_next hlast hle hk hk₂ fun i hi hij hki =>
          absurd (C.le_epochStart hki (Nat.lt_succ_iff.mp hij)) (not_le.mpr hi)
      rcases hge.eq_or_lt with heq | hlt'
      · rwa [heq]
      · exact (ih _ hlast hlt' (hlast.le.trans hle) hk₁ hk).trans hnext

end CertifiedChain

namespace Testnet

/-! ## Chains of the test network -/

/-- The genesis block of a document that names the committee, with the
validators that come next. -/
def genesisBefore (next : ValidatorSet) : Block :=
  (Genesis.build additiveEnv 0 0 committee next).block

/-- The votes of the first three validators on a block. -/
def votesOn (b : Block) : List QCVote :=
  [0, 1, 2].map (fun k => ⟨k.toUInt32, 1, b.id hashes, additive.sign [k] (b.id hashes)⟩)

/-- The certificate they make in the first epoch. -/
def certificateOn (b : Block) : QuorumCert where
  epoch := 1
  round := 1
  blockID := b.id hashes
  aggSig := additive.aggregateSignatures ((votesOn b).map QCVote.sig)
  bitArray := ⟨4, [7]⟩

/-- A block as `buildBlock` makes it, with the validators that come next. -/
def announcing (parent : Block) (next : ValidatorSet) (qc : QuorumCert) : Block :=
  Builder.build hashes
    { parentID := parent.id hashes, timestamp := parent.header.timestamp + 1, nonce := 0,
      validatorsHash := parent.header.nextValidatorsHash,
      nextValidatorsHash := env.validatorSetHash next, proposerIndex := 0,
      lastKBlock := if parent.isKBlock then parent.number else parent.header.lastKBlock,
      qc, txs := [] }

/-- Blocks on top of the genesis that announce the given validators, all
voted on in the first epoch. -/
def line (next : ValidatorSet) (nexts : ℕ → ValidatorSet) : ℕ → Block
  | 0 => genesisBefore next
  | i + 1 =>
    let parent := line next nexts i
    announcing parent (nexts i)
      (if i = 0 then genesisEscortQC hashes parent next.size else certificateOn parent)

/-- The store with the genesis. -/
def storeBefore (next : ValidatorSet) : Chain :=
  Chain.initializeStore additiveEnv (genesisBefore next) committee next (fun _ => true)

/-- The blocks are numbered and, past the genesis, the votes on them make
their certificates. -/
def lineTest (next : ValidatorSet) (nexts : ℕ → ValidatorSet) (height : ℕ) : Bool :=
  match newEpochState additiveEnv (storeBefore next) (genesisBefore next) [0] with
  | .ok (some es) => decide (es.committee = next ∧ next.size < 2 ^ 32)
    && (List.range height).all (fun i => decide ((line next nexts (i + 1)).number.toNat = i + 1)
      && (i == 0 || match es.addQCVotes additive (votesOn (line next nexts i)) with
        | .ok (qcs, _) => qcs.contains (some (certificateOn (line next nexts i)))
        | .error _ => false))
  | _ => false

theorem exists_line (next : ValidatorSet) (nexts : ℕ → ValidatorSet) (height : ℕ)
    (h : lineTest next nexts height = true) :
    ∃ C : CertifiedChain additiveEnv committee next, C.height = height
      ∧ (∀ i, C.block i = line next nexts i) ∧ ∀ i, C.voters i = next := by
  unfold lineTest at h
  split at h
  · rename_i es hes
    obtain ⟨hnext, hall⟩ := Bool.and_eq_true_iff.mp h
    obtain ⟨hcommittee, hsize⟩ := of_decide_eq_true hnext
    have hblock : ∀ i < height, (line next nexts (i + 1)).number.toNat = i + 1
        ∧ (0 < i → es.Forms additive (certificateOn (line next nexts i))) := by
      intro i hi
      obtain ⟨hnumber, hformed⟩ :=
        Bool.and_eq_true_iff.mp (List.all_eq_true.mp hall i (List.mem_range.mpr hi))
      refine ⟨of_decide_eq_true hnumber, fun hpos => ?_⟩
      replace hformed := (Bool.or_eq_true_iff.mp hformed).resolve_left
        fun h => hpos.ne' (eq_of_beq h)
      split at hformed
      · rename_i qcs last hcalls
        exact ⟨_, qcs, last, hcalls, List.contains_iff_mem.mp hformed⟩
      · exact nomatch hformed
    have htrunk : (storeBefore next).HasTrunk (line next nexts) 0 :=
      Chain.hasTrunk_zero (Chain.getTrunkBlock_initializeStore ..)
    refine ⟨{
      height
      block := line next nexts
      leaf := fun _ => 0
      inForce := fun _ => es
      size_next := hsize
      size_inForce := fun _ _ _ => hcommittee ▸ hsize
      genesis := ⟨0, 0, rfl⟩
      number_eq := fun i hi => ?_
      fields := fun i _ => ⟨⟨fun _ => none, fun _ => some (nexts i)⟩, rfl, rfl, rfl⟩
      first := fun _ => .inl rfl
      leaf_le := fun i _ _ => Nat.zero_le i
      made := fun _ _ _ => ⟨_, _, htrunk, hes⟩
      formed := fun i hpos hi => ⟨_, (hblock i hi).2 hpos, rfl, .inl ?_⟩ }, rfl, fun _ => rfl, ?_⟩
    · cases i with
      | zero => exact congrArg UInt32.toNat (Genesis.number_build additiveEnv 0 0 committee next)
      | succ i => exact (hblock i hi).1
    · obtain ⟨j, rfl⟩ : ∃ j, i = j + 1 := ⟨i - 1, by omega⟩
      rfl
    · intro i
      cases i with
      | zero => rfl
      | succ i => exact hcommittee
  · exact nomatch h

/-- A store with the first blocks of a line and the validator sets they name. -/
def storeOfLine (nexts : ℕ → ValidatorSet) (height : ℕ) : Chain :=
  let c := storeBefore committee
  let blocks := (List.range (height + 1)).map (line committee nexts)
  let sets := committee :: (List.range height).map nexts
  { c with kv := { c.kv with
      blocks := fun id => blocks.find? (fun b => b.id hashes == id)
      hashes := fun num => (blocks.find? (fun b => b.number == num)).map (fun b => b.id hashes)
      validators := fun hash => sets.find? (fun s => env.validatorSetHash s == hash) } }

/-- `NewEpochState` on a store gives a block's epoch a number. -/
def beginsEpoch (c : Chain) (b : Block) (epoch : UInt64) : Bool :=
  match newEpochState additiveEnv c b [0] with
  | .ok (some es) => es.epoch == epoch
  | _ => false

theorem exists_of_beginsEpoch (c : Chain) (b : Block) (epoch : UInt64)
    (h : beginsEpoch c b epoch = true) :
    ∃ es, newEpochState additiveEnv c b [0] = .ok (some es) ∧ es.epoch = epoch := by
  unfold beginsEpoch at h
  split at h
  · rename_i es hes
    exact ⟨es, hes, eq_of_beq h⟩
  · exact nomatch h

/-- The first two blocks announce new validators. -/
def twoChanges : ℕ → ValidatorSet
  | 0 => fourthReplaced
  | _ => fifthFirst

/-- The second and the third block announce new validators. -/
def laterChanges : ℕ → ValidatorSet
  | 0 => committee
  | 1 => fourthReplaced
  | _ => fifthFirst

/-- Two changes right after the genesis have different numbers. -/
theorem epochsIncrease_of_twoChanges :
    ∃ C : CertifiedChain additiveEnv committee committee, C.IsK 1 ∧ C.IsK 2 ∧ 2 ≤ C.height
      ∧ (C.EpochsIncrease ↔ C.SwitchesInTime) := by
  obtain ⟨C, hheight, hblock, -⟩ := exists_line committee twoChanges 2 (by decide +kernel)
  have hk : ∀ k, C.IsK k ↔ (line committee twoChanges k).isKBlock = true := fun k => by
    rw [CertifiedChain.IsK, hblock]
  refine ⟨C, (hk 1).mpr (by decide +kernel), (hk 2).mpr (by decide +kernel), hheight.ge,
    C.epochsIncrease_iff_switchesInTime fun k hle hk' => ?_⟩
  rw [hk] at hk'
  rw [hheight] at hle
  obtain ⟨epoch, hepoch⟩ : ∃ epoch,
      beginsEpoch (storeOfLine twoChanges 2) (line committee twoChanges k) epoch = true := by
    rcases Nat.le_succ_iff.mp hle with hle | rfl
    · rcases Nat.le_one_iff_eq_zero_or_eq_one.mp hle with rfl | rfl
      · exact absurd hk' (by decide +kernel)
      · exact ⟨1, by decide +kernel⟩
    · exact ⟨2, by decide +kernel⟩
  obtain ⟨es, hes, -⟩ := exists_of_beginsEpoch _ _ _ hepoch
  exact ⟨_, _, es, hblock k ▸ hes⟩

/-- **Two changes in a row get one number.** The certificates of both blocks
are of the first epoch, which is in force while they are voted on. -/
theorem one_number_for_laterChanges :
    ∃ (C : CertifiedChain additiveEnv committee committee) (c : Chain) (es₁ es₂ : EpochState),
      C.height = 3 ∧ C.IsK 2 ∧ C.IsK 3 ∧ c.HasTrunk C.block 3
      ∧ newEpochState additiveEnv c (C.block 2) [0] = .ok (some es₁)
      ∧ newEpochState additiveEnv c (C.block 3) [0] = .ok (some es₂)
      ∧ ¬ es₁.epoch < es₂.epoch := by
  obtain ⟨C, hheight, hblock, -⟩ := exists_line committee laterChanges 3 (by decide +kernel)
  have hk : ∀ k, C.IsK k ↔ (line committee laterChanges k).isKBlock = true := fun k => by
    rw [CertifiedChain.IsK, hblock]
  obtain ⟨es₁, hes₁, hepoch₁⟩ := exists_of_beginsEpoch (storeOfLine laterChanges 3)
    (line committee laterChanges 2) 2 (by decide +kernel)
  obtain ⟨es₂, hes₂, hepoch₂⟩ := exists_of_beginsEpoch (storeOfLine laterChanges 3)
    (line committee laterChanges 3) 2 (by decide +kernel)
  have htrunk : (storeOfLine laterChanges 3).HasTrunk (line committee laterChanges) 3 := by
    have hall : ∀ i ∈ List.range 4, (storeOfLine laterChanges 3).getTrunkBlock i.toUInt32
        = some (line committee laterChanges i) := by decide +kernel
    exact fun i hi => hall i (List.mem_range.mpr (Nat.lt_succ_of_le hi))
  refine ⟨C, _, es₁, es₂, hheight, (hk 2).mpr (by decide +kernel), (hk 3).mpr (by decide +kernel),
    ?_, hblock 2 ▸ hes₁, hblock 3 ▸ hes₂, ?_⟩
  · rwa [show C.block = line committee laterChanges from funext hblock]
  · rw [hepoch₁, hepoch₂]
    exact UInt64.lt_irrefl _

end Testnet

/-! ## Commit information -/

/-- The entry `BuildLastCommitInfo` makes for a validator that voted. -/
def Validator.voteInfo (v : Validator) : VoteInfo := ⟨v.address, v.votingPower⟩

/-- **The commit information says who voted**: it is built without a fault,
and lists the members of the committee whose bits are set, in their order and
with their powers. -/
def CommitInfoExact (c : Chain) (committee : ValidatorSet) (parent blk : Block) : Prop :=
  c.buildLastCommitInfo parent blk = .ok ⟨(Int32.ofNat blk.qc.round.toNat).toInt,
    (signers committee blk.qc.bitArray).map (fun v => v.1.voteInfo)⟩

/-- **The header of a block names those who voted on it**: the validators
stored under its `ValidatorsHash` are as many as the committee, and have the
committee's members at the places of the votes. For the genesis there need be
none. -/
def RecordsVoters (c : Chain) (committee : ValidatorSet) (parent blk : Block) : Prop :=
  match c.getValidatorsByHash parent.header.validatorsHash with
  | none => parent.number = 0
  | some vset => vset.size = committee.size ∧ ∀ j, blk.qc.bitArray.bit j = true →
      (vset.validators[j]?).map Validator.voteInfo
        = (committee.validators[j]?).map Validator.voteInfo

/-- The loop of `BuildLastCommitInfo`, on a bit array that can be read. -/
theorem commitVotes_eq (hwords : bA.size ≤ 64 * bA.elems.length) (i : ℕ) (vs : List Validator) :
    commitVotes bA i vs
      = .ok (((vs.zipIdx i).filter (fun v => bA.bit v.2)).map (fun v => v.1.voteInfo)) := by
  induction vs generalizing i with
  | nil => rfl
  | cons v vs ih =>
    unfold commitVotes
    rw [BitArray.getIndex_eq_ok hwords, ih (i + 1), List.zipIdx_cons, List.filter_cons]
    cases bA.bit i <;> rfl

/-- Two sets of the size of a bit array have the same signers, as far as a
function of a validator tells, if they have the same members at its places. -/
theorem map_signers_eq_iff {α : Type} (f : Validator → α) {s s' : ValidatorSet}
    (hs : bA.size = s.size) (hs' : bA.size = s'.size) :
    (signers s bA).map (fun v => f v.1) = (signers s' bA).map (fun v => f v.1)
      ↔ ∀ j, bA.bit j = true → (s.validators[j]?).map f = (s'.validators[j]?).map f := by
  have hmap : ∀ (t : ValidatorSet), bA.size = t.size →
      ((signers t bA).map (fun v => f v.1)).map some
        = ((List.range bA.size).filter bA.bit).map (fun j => (t.validators[j]?).map f) := by
    intro t ht
    rw [← places_signers t ht, List.map_map, List.map_map]
    refine List.map_congr_left fun v hv => ?_
    show some (f v.1) = (t.validators[v.2]?).map f
    rw [List.mk_mem_zipIdx_iff_getElem?.mp (List.mem_filter.mp hv).1]
    rfl
  rw [← List.map_inj_right (fun _ _ => Option.some.inj), hmap s hs, hmap s' hs', List.map_inj_left]
  constructor
  · intro h j hbit
    refine h j (List.mem_filter.mpr ⟨List.mem_range.mpr ?_, hbit⟩)
    by_contra hge
    rw [BitArray.bit_of_size_le (not_lt.mp hge)] at hbit
    exact nomatch hbit
  · intro h j hj
    exact h j (List.mem_filter.mp hj).2

/-- **What `BuildLastCommitInfo` makes of a certificate** of a committee's
size. -/
theorem commitInfoExact_iff {committee : ValidatorSet} {parent blk : Block}
    (hsize : blk.qc.bitArray.size = committee.size)
    (hwords : blk.qc.bitArray.size ≤ 64 * blk.qc.bitArray.elems.length) (hnumber : blk.number ≠ 0)
    (hgenesis : parent.number = 0 → ∀ j, blk.qc.bitArray.bit j = false) :
    CommitInfoExact c committee parent blk ↔ RecordsVoters c committee parent blk := by
  unfold CommitInfoExact RecordsVoters Chain.buildLastCommitInfo
  rw [if_neg hnumber]
  cases c.getValidatorsByHash parent.header.validatorsHash with
  | none =>
    dsimp only
    split
    · rename_i hzero
      have hnone : signers committee blk.qc.bitArray = [] := by
        refine List.filter_eq_nil_iff.mpr fun v _ => ?_
        rw [hgenesis hzero]
        exact nofun
      rw [hnone]
      exact ⟨fun _ => hzero, fun _ => rfl⟩
    · rename_i hzero
      exact ⟨fun h => (nomatch h), fun h => absurd h hzero⟩
  | some vset =>
    dsimp only
    split
    · rename_i hne
      rw [hsize] at hne
      exact ⟨fun h => (nomatch h), fun h => absurd h.1 hne⟩
    · rename_i heq
      have heq' : vset.size = blk.qc.bitArray.size := not_not.mp heq
      rw [commitVotes_eq hwords, ← map_signers_eq_iff Validator.voteInfo heq'.symm hsize]
      constructor
      · intro h
        exact ⟨heq'.trans hsize, (CommitInfo.mk.inj (Except.ok.inj h)).2⟩
      · intro h
        rw [← h.2]
        rfl

/-! ## The bits of a certificate -/

/-- Setting a bit changes neither the size nor the number of words. -/
theorem BitArray.size_setIndex {x y : BitArray} {b : Bool} (h : x.setIndex i true = .ok (b, y)) :
    y.size = x.size ∧ y.elems.length = x.elems.length := by
  unfold setIndex at h
  split at h
  · obtain ⟨-, rfl⟩ := Prod.mk.inj (Except.ok.inj h)
    exact ⟨rfl, rfl⟩
  split at h
  · obtain ⟨-, rfl⟩ := Prod.mk.inj (Except.ok.inj h)
    exact ⟨rfl, List.length_set⟩
  · exact nomatch h

theorem VoteMap.size_bitArray {votes : VoteMap} {n : UInt32} (h : votes.bitArray n = .ok bA) :
    bA.size = n.toNat ∧ bA.size ≤ 64 * bA.elems.length := by
  have hloop : ∀ (l : VoteMap) (x : BitArray),
      l.foldlM (fun bA v => do return (← bA.setIndex v.1.toNat true).2) x = .ok bA →
      bA.size = x.size ∧ bA.elems.length = x.elems.length := by
    intro l
    induction l with
    | nil =>
      intro x hx
      rw [← Except.ok.inj hx]
      exact ⟨rfl, rfl⟩
    | cons v l ih =>
      intro x hx
      rw [List.foldlM_cons] at hx
      obtain ⟨y, hone, hx⟩ := Except.exists_of_bind_eq_ok hx
      obtain ⟨r, hset, hy⟩ := Except.exists_of_bind_eq_ok hone
      obtain ⟨hsize, hwords⟩ := ih y hx
      obtain rfl := Except.ok.inj hy
      obtain ⟨hsize', hwords'⟩ := BitArray.size_setIndex hset
      exact ⟨hsize.trans hsize', hwords.trans hwords'⟩
  obtain ⟨hsize, hwords⟩ := hloop votes _ h
  have hnew : (BitArray.new n.toNat).size = n.toNat := by
    show (UInt32.ofNat n.toNat).toNat = n.toNat
    rw [UInt32.ofNat_toNat]
  have helems : (BitArray.new n.toNat).elems.length = (n.toNat + 63) / 64 := List.length_replicate
  rw [hnew] at hsize
  rw [helems] at hwords
  exact ⟨hsize, by omega⟩

theorem QCVoteManager.bitArray_of_addVote {B : Bls} {m m' : QCVoteManager} {index : UInt32}
    {epoch : UInt64} {round : UInt32} {blockID : Bytes32} {sig : Bytes}
    (h : m.addVote B index epoch round blockID sig = .ok (some qc, m')) :
    ∃ votes : VoteMap, votes.bitArray m.committeeSize = .ok qc.bitArray := by
  unfold addVote at h
  split at h
  · exact nomatch h
  split at h
  · exact nomatch h
  split at h
  · exact nomatch h
  simp only at h
  split at h
  · unfold aggregate at h
    simp only [bind, Except.bind, pure, Except.pure] at h
    split at h
    · exact nomatch h
    · rename_i qc' hqc'
      split at hqc'
      · exact nomatch hqc'
      · rename_i bA hbA
        obtain ⟨hqc, -⟩ := Prod.mk.inj (Except.ok.inj h)
        rw [← Option.some.inj hqc, ← Except.ok.inj hqc']
        exact ⟨_, hbA⟩
  · exact nomatch h

/-- **The bit array of a certificate has the size of the committee.** -/
theorem EpochState.Forms.size_eq {B : Bls} (h : es.Forms B qc)
    (hfresh : es.qcVoteManager = .new es.committeeSize) (hn : es.committee.size < 2 ^ 32) :
    qc.bitArray.size = es.committee.size
      ∧ qc.bitArray.size ≤ 64 * qc.bitArray.elems.length := by
  obtain ⟨cur, next, w, -, -, hsize, hcall⟩ := h.exists_call
  rcases EpochState.addQCVote_cases hcall with ⟨hnone, -⟩ | ⟨-, m, hadd, -⟩
  · exact nomatch hnone
  obtain ⟨votes, hvotes⟩ := QCVoteManager.bitArray_of_addVote hadd
  obtain ⟨hbits, hwords⟩ := VoteMap.size_bitArray hvotes
  refine ⟨?_, hwords⟩
  rw [hbits, hsize, hfresh]
  exact UInt32.toNat_ofNat_of_lt' hn

theorem QuorumCert.CarriedAs.bits {carried : QuorumCert} (h : qc.CarriedAs carried)
    (hwords : qc.bitArray.size ≤ 64 * qc.bitArray.elems.length) :
    carried.bitArray.size = qc.bitArray.size
      ∧ carried.bitArray.size ≤ 64 * carried.bitArray.elems.length
      ∧ ∀ j, carried.bitArray.bit j = qc.bitArray.bit j := by
  rcases h with rfl | rfl
  · exact ⟨rfl, hwords, fun _ => rfl⟩
  · exact ⟨qc.bitArray.size_wire, qc.bitArray.words_wire, qc.bitArray.bit_wire⟩

namespace CertifiedChain

variable (C : CertifiedChain E vset nextVSet)

/-- **Every certificate of the chain has the size of its committee.** -/
theorem bits (hi : i < C.height) :
    (C.block (i + 1)).qc.bitArray.size = (C.voters i).size
      ∧ (C.block (i + 1)).qc.bitArray.size ≤ 64 * (C.block (i + 1)).qc.bitArray.elems.length := by
  cases i with
  | zero =>
    have hnew : (BitArray.new nextVSet.size).size = nextVSet.size :=
      UInt32.toNat_ofNat_of_lt' C.size_next
    have hwords : (BitArray.new nextVSet.size).size
        ≤ 64 * (BitArray.new nextVSet.size).elems.length := by
      rw [hnew]
      show _ ≤ 64 * (List.replicate ((nextVSet.size + 63) / 64) (0 : UInt64)).length
      rw [List.length_replicate]
      omega
    obtain ⟨hsize, hcovered, -⟩ := (C.first hi).bits hwords
    exact ⟨hsize.trans hnew, hcovered⟩
  | succ i =>
    obtain ⟨qc, hformed, -, hcarried⟩ := C.formed (i + 1) (Nat.succ_pos i) hi
    obtain ⟨c, myPubKey, -, hmade⟩ := C.made (i + 1) (Nat.succ_pos i) hi
    obtain ⟨hsize, hwords⟩ := hformed.size_eq (newEpochState_fresh hmade)
      (C.size_inForce (i + 1) (Nat.succ_pos i) hi)
    obtain ⟨hsize', hcovered, -⟩ := hcarried.bits hwords
    exact ⟨hsize'.trans hsize, hcovered⟩

/-- The certificate of the genesis has no votes. -/
theorem bit_first (h : 0 < C.height) (j : ℕ) : (C.block 1).qc.bitArray.bit j = false := by
  rcases C.first h with hqc | hqc
  · rw [hqc]
    exact BitArray.bit_new _ _
  · rw [hqc]
    exact (BitArray.bit_wire _ _).trans (BitArray.bit_new _ _)

/-- **When the commit information says who voted**: when the header of the
block that was voted on names the committee that was in force. -/
theorem commitInfo_exact_iff_recordsVoters (c : Chain) {i : ℕ} (hi : i < C.height) :
    CommitInfoExact c (C.voters i) (C.block i) (C.block (i + 1))
      ↔ RecordsVoters c (C.voters i) (C.block i) (C.block (i + 1)) := by
  obtain ⟨hsize, hwords⟩ := C.bits hi
  refine commitInfoExact_iff hsize hwords ?_ ?_
  · intro hzero
    have hnumber := C.number_eq (i + 1) hi
    rw [hzero] at hnumber
    exact absurd hnumber nofun
  · intro hzero
    have hnumber := C.number_eq i hi.le
    rw [hzero] at hnumber
    obtain rfl : i = 0 := hnumber.symm
    exact C.bit_first hi

end CertifiedChain

namespace Testnet

/-- The commit information of the second block, where nothing changes. -/
theorem commitInfo_of_second_block :
    ∃ C : CertifiedChain additiveEnv committee committee, 1 < C.height
      ∧ (CommitInfoExact (storeBefore committee) (C.voters 1) (C.block 1) (C.block 2)
        ↔ RecordsVoters (storeBefore committee) (C.voters 1) (C.block 1) (C.block 2)) := by
  obtain ⟨C, hheight, -⟩ := exists_line committee (fun _ => committee) 2 (by decide +kernel)
  have hlt : 1 < C.height := hheight.symm ▸ Nat.one_lt_two
  exact ⟨C, hlt, C.commitInfo_exact_iff_recordsVoters _ hlt⟩

/-- **The first block faults** on a genesis after which a fifth validator
joins. -/
theorem commitInfo_faults_after_genesis :
    applyUpdatesInPlace sortingEnv keyLibrary id committee joining 5 = some (.ok joined, committee)
    ∧ ∃ C : CertifiedChain additiveEnv committee joined, 0 < C.height
      ∧ (storeBefore joined).buildLastCommitInfo (C.block 0) (C.block 1)
        = .error (.explicit "committee size doesn't match with votes size") := by
  obtain ⟨C, hheight, hblock, -⟩ := exists_line joined (fun _ => joined) 1 (by decide +kernel)
  refine ⟨rfl, C, hheight.symm ▸ Nat.one_pos, ?_⟩
  rw [hblock, hblock]
  decide +kernel

end Testnet

end LoragonBFT
