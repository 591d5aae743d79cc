import LoragonBFT.Adapter
import LoragonBFT.AppliedUpdates
import Mathlib.Data.List.Pairwise

/-!
# The order of a committee

The committee of an epoch is to be shuffled: `SortWithNonce` puts the
validators in the order of the Keccak digests of their keys with the nonce of
the block that ended the last epoch, and the proposers take turns in that
order.

`NewEpochState` calls it and drops the set it returns. The committee is made
from the adapter, which `SortWithNonce` leaves as it was, and so it is sorted
by voting power and address, as `NewValidatorSet` does, whatever the nonce
(`newEpochState_committee`). It is in the order of the digests exactly if that
happens to be the order of powers and addresses (`orderedByNonce_iff`).
-/

namespace LoragonBFT

/-- The order `NewValidatorSet` sorts by: the higher power first, and of the
same power the smaller address. -/
def Validator.Before (v w : Validator) : Prop :=
  w.votingPower < v.votingPower ∨ v.votingPower = w.votingPower ∧ v.address < w.address

instance : DecidableRel Validator.Before := fun _ _ =>
  inferInstanceAs (Decidable (_ < _ ∨ _ = _ ∧ _ < _))

/-- What is relied on of CometBFT: `NewValidatorSet` accepts the lists it
should, and sorts them. No address is there twice, so no two validators of a
set are as good as each other. -/
structure Resorting (E : Env) : Prop where
  accepts : ∀ vals, (E.newValidatorSet vals).isSome = true ↔ Acceptable vals
  perm : ∀ vals vset, E.newValidatorSet vals = some vset → vset.validators.Perm vals
  sorted : ∀ vals vset, E.newValidatorSet vals = some vset →
    vset.validators.Pairwise Validator.Before

/-- **The committee follows the nonce**: it is a permutation of the set, in
ascending order of the digests. -/
def OrderedByNonce (E : Env) (nonce : UInt64) (vset committee : ValidatorSet) : Prop :=
  committee.validators.Perm vset.validators
    ∧ committee.validators.Pairwise (fun v w => v.sortKey E nonce ≤ w.sortKey E nonce)

variable {E : Env} {c : Chain} {leaf kblk : Block} {vset : ValidatorSet} {myPubKey : Bytes}
  {es : EpochState} {nonce : UInt64} {vals : List Validator}

/-! ## The committee of an epoch -/

theorem Chain.getNextValidatorSet_eq {num : UInt32} {blk : Block}
    (h : c.getTrunkBlock num = some blk) :
    c.getNextValidatorSet num = c.kv.validators blk.header.nextValidatorsHash := by
  unfold getNextValidatorSet
  rw [h]
  rfl

/-- **Where the committee comes from**: the stored set, and nothing else. -/
theorem newEpochState_committee (hkblk : epochKBlock c leaf = some kblk)
    (hvset : c.getNextValidatorSet kblk.number = some vset)
    (hes : newEpochState E c leaf myPubKey = .ok (some es)) :
    E.newValidatorSet vset.validators = some es.committee := by
  obtain ⟨kblk', vset', hkblk', hvset', hcommittee, -⟩ := newEpochState_eq hes
  obtain rfl := Option.some.inj (hkblk.symm.trans hkblk')
  obtain rfl := Option.some.inj (hvset.symm.trans hvset')
  exact hcommittee

/-! ## Sorting does not fail -/

/-- The validators in the order of their sort keys are the validators. -/
theorem perm_foldl_orderedInsert (le : Validator → Validator → Prop) [DecidableRel le]
    (sorted vals : List Validator) :
    (vals.foldl (fun sorted v => sorted.orderedInsert le v) sorted).Perm (sorted ++ vals) := by
  induction vals generalizing sorted with
  | nil => exact .of_eq (List.append_nil sorted).symm
  | cons v vals ih =>
    rw [List.foldl_cons]
    refine (ih _).trans (((List.perm_orderedInsert le v sorted).append_right vals).trans ?_)
    exact List.perm_middle.symm

/-- Of distinct keys, a validator is found under its own. -/
theorem getByPubkey_of_mem (hkeys : (vals.map Validator.key).Nodup) {v : Validator}
    (hv : v ∈ vals) : getByPubkey vals v.key = some v := by
  induction vals with
  | nil => exact nomatch hv
  | cons w vals ih =>
    rw [List.map_cons, List.nodup_cons] at hkeys
    rw [AdapterState.getByPubkey_cons]
    rcases List.mem_cons.mp hv with rfl | hv
    · exact if_pos rfl
    · have hne : w.key ≠ v.key := fun heq => hkeys.1 (heq ▸ List.mem_map_of_mem hv)
      rw [if_neg hne]
      exact ih hkeys.2 hv

/-- Whether a list is acceptable does not depend on its order. -/
theorem Acceptable.of_perm {vals' : List Validator} (h : Acceptable vals)
    (hperm : vals'.Perm vals) : Acceptable vals' where
  addresses := (hperm.map _).nodup_iff.mpr h.addresses
  powers v hv := h.powers v (hperm.mem_iff.mp hv)
  total := (hperm.map _).sum_eq.trans_le h.total

/-- **`SortWithNonce` does not panic** on validators with distinct keys that
make a set. -/
theorem sortWithNonce_isSome (hlib : Resorting E) (hvals : Acceptable vals)
    (hkeys : (vals.map Validator.key).Nodup) (nonce : UInt64) :
    (sortWithNonce E vals nonce).isSome = true := by
  unfold sortWithNonce
  refine (hlib.accepts _).mpr (hvals.of_perm ?_)
  have hperm := perm_foldl_orderedInsert
    (fun v w => v.sortKey E nonce ≤ w.sortKey E nonce) [] vals
  refine (List.Perm.of_eq ?_).trans hperm
  refine (List.filterMap_congr fun v hv => ?_).trans List.filterMap_some
  exact getByPubkey_of_mem hkeys (hperm.mem_iff.mp hv)

/-- **An epoch can begin** with every such set. -/
theorem exists_newEpochState (hlib : Resorting E) (hkblk : epochKBlock c leaf = some kblk)
    (hvset : c.getNextValidatorSet kblk.number = some vset) (hvals : Acceptable vset.validators)
    (hkeys : (vset.validators.map Validator.key).Nodup) (myPubKey : Bytes) :
    ∃ es, newEpochState E c leaf myPubKey = .ok (some es) := by
  obtain ⟨sorted, hsorted⟩ := Option.isSome_iff_exists.mp
    (sortWithNonce_isSome hlib hvals hkeys kblk.header.nonce)
  obtain ⟨committee, hcommittee⟩ := Option.isSome_iff_exists.mp ((hlib.accepts _).mpr hvals)
  unfold newEpochState
  rw [hkblk]
  simp only [hvset, hsorted, hcommittee]
  exact ⟨_, rfl⟩

/-! ## The order -/

theorem Validator.Before.asymm {v w : Validator} (h : v.Before w) : ¬ w.Before v := by
  rintro (hpower | ⟨hpower, haddress⟩) <;> rcases h with hpower' | ⟨hpower', haddress'⟩
  · exact lt_asymm hpower hpower'
  · exact hpower.ne hpower'
  · exact hpower'.ne hpower
  · exact List.lt_asymm haddress haddress'

/-- **The committee of an epoch is in the order of the digests exactly if the
digests ascend along the order of powers and addresses**: of any two
validators of the set, the one with more power, or with the same power and the
smaller address, has not the larger digest. -/
theorem orderedByNonce_iff (hlib : Resorting E) (hkblk : epochKBlock c leaf = some kblk)
    (hvset : c.getNextValidatorSet kblk.number = some vset)
    (hes : newEpochState E c leaf myPubKey = .ok (some es)) :
    OrderedByNonce E kblk.header.nonce vset es.committee
      ↔ ∀ v ∈ vset.validators, ∀ w ∈ vset.validators, v.Before w →
        v.sortKey E kblk.header.nonce ≤ w.sortKey E kblk.header.nonce := by
  have hcommittee := newEpochState_committee hkblk hvset hes
  have hperm := hlib.perm _ _ hcommittee
  have hsorted := hlib.sorted _ _ hcommittee
  constructor
  · rintro ⟨-, hascending⟩ v hv w hw
    -- The one that is before the other stands first, so only one way round counts.
    have hfirst : es.committee.validators.Pairwise fun v w => v.Before w →
        v.sortKey E kblk.header.nonce ≤ w.sortKey E kblk.header.nonce :=
      hascending.imp (by exact fun h _ => h)
    have hback : es.committee.validators.Pairwise (flip fun v w => v.Before w →
        v.sortKey E kblk.header.nonce ≤ w.sortKey E kblk.header.nonce) :=
      hsorted.imp fun h h' => absurd h' h.asymm
    exact hfirst.forall_of_forall_of_flip (fun v _ h => absurd h h.asymm) hback
      (hperm.mem_iff.mpr hv) (hperm.mem_iff.mpr hw)
  · intro h
    refine ⟨hperm, hsorted.imp_of_mem fun hv hw hbefore => ?_⟩
    exact h _ (hperm.mem_iff.mp hv) _ (hperm.mem_iff.mp hw) hbefore

namespace Testnet

/-- The Keccak digests of the four keys with the nonce of the genesis
block. -/
def digests : List (Bytes × Bytes) :=
  [(0, 0x4d61f4a95d32747b99648625c6ee2b541773f288b531c431d11612281af594a6),
    (1, 0xb9f5030bf03fd99c5fe71c5dbdeb7d97a932be938f342abbb58beab4b476279b),
    (2, 0x2975132af57ef81617cff88c46d67cef3114f69d244d458432f913702bdc96af),
    (3, 0x83f6109e69c1c621b07e051d6d9ace7afec402cfcc9a11e7ed4a7a04829fe3a7)].map
    fun (key, digest) => ([key, 0xe9, 7, 0, 0, 0, 0, 0, 0, 0, 0], Rlp.beBytes 32 digest)

/-- The libraries with these digests, and validator sets that are sorted. -/
def keccakEnv : Env := { sortingEnv with keccak256 := fun bs => (digests.lookup bs).getD [] }

/-- The order of `sortingEnv`, which leaves it open how equals are put. -/
def notAfter (v w : Validator) : Prop :=
  w.votingPower < v.votingPower ∨ v.votingPower = w.votingPower ∧ v.address ≤ w.address

instance : DecidableRel notAfter := fun _ _ =>
  inferInstanceAs (Decidable (_ < _ ∨ _ = _ ∧ _ ≤ _))

instance : Std.Total notAfter where
  total v w := by
    rcases lt_trichotomy v.votingPower w.votingPower with hlt | heq | hgt
    · exact .inr (.inl hlt)
    · exact (List.le_total v.address w.address).imp (.inr ⟨heq, ·⟩) (.inr ⟨heq.symm, ·⟩)
    · exact .inl (.inl hgt)

instance : IsTrans Validator notAfter where
  trans u v w := by
    rintro (h | ⟨h, ha⟩) (h' | ⟨h', ha'⟩)
    · exact .inl (h'.trans h)
    · exact .inl (h' ▸ h)
    · exact .inl (h ▸ h')
    · exact .inr ⟨h.trans h', List.le_trans ha ha'⟩

/-- A set has no address twice, so of two validators one is before the
other. -/
theorem pairwise_before {vals : List Validator} {vset : ValidatorSet}
    (h : sortingEnv.newValidatorSet vals = some vset) :
    vset.validators.Pairwise Validator.Before := by
  change (if _ then _ else none : Option ValidatorSet) = some vset at h
  split at h
  · rename_i hvals
    obtain rfl := Option.some.inj h
    have hsorted := List.pairwise_insertionSort notAfter vals
    have haddresses : ((vals.insertionSort notAfter).map (·.address)).Nodup :=
      ((List.perm_insertionSort notAfter vals).map _).nodup_iff.mpr hvals.1
    refine (hsorted.and (List.pairwise_map.mp haddresses)).imp ?_
    rintro v w ⟨hpower | ⟨hpower, haddress⟩, hne⟩
    · exact .inl hpower
    · exact .inr ⟨hpower, List.not_le.mp fun hback => hne (List.le_antisymm haddress hback)⟩
  · exact nomatch h

theorem newValidatorSet_keccakEnv : keccakEnv.newValidatorSet = sortingEnv.newValidatorSet := rfl

theorem resorting : Resorting keccakEnv where
  accepts := by
    rw [newValidatorSet_keccakEnv]
    exact setLibrary.accepts
  perm := by
    rw [newValidatorSet_keccakEnv]
    exact setLibrary.perm
  sorted := by
    rw [newValidatorSet_keccakEnv]
    exact fun _ _ => pairwise_before

theorem sortKey_genesis (v : Validator) :
    v.sortKey keccakEnv 1001
      = (digests.lookup (v.key ++ [0xe9, 7, 0, 0, 0, 0, 0, 0, 0, 0])).getD [] := by
  have hnonce : (1001 : UInt64).toNat = 1001 := rfl
  unfold Validator.sortKey nonceBytes
  rw [hnonce, Tagged.uvarint, if_neg (by decide), Tagged.uvarint, if_pos (by decide)]
  rfl

/-- The test committee with other powers. -/
def powered (powers : List ℤ) : ValidatorSet :=
  ⟨([0, 1, 2, 3].zip powers).map fun (k, power) => ⟨[k], ⟨.bls12381, [k]⟩, power⟩⟩

/-- A genesis block for a validator set. -/
def genesisOf (vset : ValidatorSet) : Block := Builder.build hashes
  { parentID := 0xffffffff <<< 224, timestamp := 0, nonce := 1001,
    validatorsHash := keccakEnv.validatorSetHash vset,
    nextValidatorsHash := keccakEnv.validatorSetHash vset,
    proposerIndex := 0, lastKBlock := 0, qc := ⟨0, 0, 0, [], .new 4⟩, txs := [] }

/-- A chain that starts with it. -/
def chainOf (vset : ValidatorSet) : Chain :=
  .initializeStore keccakEnv (genesisOf vset) vset vset fun _ => true

theorem epochKBlock_chainOf (vset : ValidatorSet) :
    epochKBlock (chainOf vset) (genesisOf vset) = some (genesisOf vset) := by
  have hk : (genesisOf vset).isKBlock = false := bne_self_eq_false _
  unfold epochKBlock
  rw [hk]
  exact Chain.getTrunkBlock_initializeStore _ _

theorem getNextValidatorSet_chainOf (vset : ValidatorSet) :
    (chainOf vset).getNextValidatorSet (genesisOf vset).number = some vset := by
  have hparent : (genesisOf vset).header.parentID = 0xffffffff <<< 224 := rfl
  have hnumber : (genesisOf vset).number = 0 := by
    unfold Block.number Header.number
    rw [hparent]
    decide
  have hblock : (chainOf vset).getTrunkBlock 0 = some (genesisOf vset) :=
    Chain.getTrunkBlock_initializeStore _ _
  have hhash : (genesisOf vset).header.nextValidatorsHash = keccakEnv.validatorSetHash vset := rfl
  have hvset : (chainOf vset).kv.validators (keccakEnv.validatorSetHash vset) = some vset := by
    simp only [chainOf, Chain.initializeStore, if_true]
  rw [hnumber, Chain.getNextValidatorSet_eq hblock, hhash, hvset]

/-- **Powers that follow the digests**: the committee is in their order. -/
theorem powered_orderedByNonce :
    ∃ es, newEpochState keccakEnv (chainOf (powered [3, 1, 4, 2]))
        (genesisOf (powered [3, 1, 4, 2])) [0] = .ok (some es)
      ∧ OrderedByNonce keccakEnv 1001 (powered [3, 1, 4, 2]) es.committee := by
  have hvals : Acceptable (powered [3, 1, 4, 2]).validators := ⟨by decide, by decide, by decide⟩
  obtain ⟨es, hes⟩ := exists_newEpochState resorting (epochKBlock_chainOf _)
    (getNextValidatorSet_chainOf _) hvals (by decide) [0]
  have hiff := orderedByNonce_iff resorting (epochKBlock_chainOf _)
    (getNextValidatorSet_chainOf _) hes
  have hnonce : (genesisOf (powered [3, 1, 4, 2])).header.nonce = 1001 := rfl
  simp only [hnonce, sortKey_genesis] at hiff
  exact ⟨es, hes, hiff.mpr (by decide)⟩

/-- **The committee of the genesis block**: all have the same power, so the
addresses decide, and the first validator comes first although its digest is
larger than that of the third. -/
theorem genesis_committee_not_ordered :
    ∃ es, newEpochState keccakEnv (chainOf committee) (genesisOf committee) [0] = .ok (some es)
      ∧ es.committee = committee ∧ ¬ OrderedByNonce keccakEnv 1001 committee es.committee := by
  have hvals : Acceptable committee.validators := ⟨by decide, by decide, by decide⟩
  obtain ⟨es, hes⟩ := exists_newEpochState resorting (epochKBlock_chainOf _)
    (getNextValidatorSet_chainOf _) hvals (by decide) [0]
  have hcommittee : keccakEnv.newValidatorSet committee.validators = some committee := by decide
  have hmade := newEpochState_committee (epochKBlock_chainOf _) (getNextValidatorSet_chainOf _) hes
  have heq : es.committee = committee := Option.some.inj (hmade.symm.trans hcommittee)
  refine ⟨es, hes, heq, fun h => ?_⟩
  have hascending := h.2
  rw [heq] at hascending
  simp only [sortKey_genesis] at hascending
  exact absurd hascending (by decide)

end Testnet

end LoragonBFT
