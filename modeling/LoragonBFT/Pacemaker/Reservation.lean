import LoragonBFT.Pacemaker.Refinement
import LoragonBFT.Testnet

/-!
# Transactions of a proposal that failed

`PrepareProposal` offers the application the transactions of the pool that it
has not offered before, and to know them again it enters each into a cache,
under the height of the block to be. Entries leave the cache when a block of
that height is executed, or a block with the transaction itself.

They are entered before the application is asked, and before `CreateLeaf`
looks at the round. Both may end the call with an error, and neither way out
takes the entries back. So the transactions stay reserved for a block that
does not exist, and the next call on the same parent offers none of them: a
call that fails leaves the cache as it was only if it had nothing to offer
(`reservesNothing_iff`).
-/

namespace LoragonBFT

open EStateM

namespace Pacemaker

/-- **A failed proposal reserves nothing**: if `CreateLeaf` returns an error,
the cache is what it was, and the same transactions are offered next. -/
def ReservesNothing (E : Env) (p : Pacemaker) (parent : DraftBlock) (justify : DraftQC)
    (round : UInt32) : Prop :=
  ∀ e p', createLeaf E parent justify round p = .ok (.error e) p' →
    p'.txCache = p.txCache ∧ p'.filteredTxs E = p.filteredTxs E

/-- The cache once the transactions at hand are entered into it. -/
def reserved (E : Env) (p : Pacemaker) (parent : DraftBlock) : Bytes32 → Option UInt32 :=
  fun h => if ((p.filteredTxs E).map E.H.sha256).contains h then some (parent.height + 1)
    else p.txCache h

/-- What the application is asked. -/
def leafRequest (E : Env) (p : Pacemaker) (parent : DraftBlock) (vset : ValidatorSet) :
    PrepareProposalRequest where
  maxTxBytes := E.maxDataBytes vset.size
  height := parent.height.toNat + 1
  time := p.clock
  nextValidatorsHash := parent.proposedBlock.header.nextValidatorsHash
  proposerAddress := if p.epochState.index < 0 then []
    else (vset.getByIndex p.epochState.index).elim [] Validator.address
  txs := p.filteredTxs E

/-- A round `CreateLeaf` does not propose in. -/
def InvalidRound (p : Pacemaker) (parent : DraftBlock) (justify : DraftQC) (round : UInt32) :
    Prop :=
  p.epochState.epoch ≠ 0 ∧ round ≠ 0 ∧ (round ≤ justify.qc.round ∨ round ≤ parent.round)

variable {E : Env} {p : Pacemaker} {parent : DraftBlock} {justify : DraftQC} {round : UInt32}

/-! ## The cache -/

/-- A transaction that is offered is not in the cache yet. -/
theorem txCache_of_mem_filteredTxs {tx : Bytes} (h : tx ∈ p.filteredTxs E) :
    p.txCache (E.H.sha256 tx) = none :=
  Option.isNone_iff_eq_none.mp (List.mem_filter.mp h).2

/-- **Every transaction of the pool is in the cache afterwards.** -/
theorem filteredTxs_reserved {trace : List Event} :
    filteredTxs E { p with txCache := p.reserved E parent, trace } = [] := by
  refine List.filter_eq_nil_iff.mpr fun tx htx hnone => ?_
  have hnone : p.reserved E parent (E.H.sha256 tx) = none := Option.isNone_iff_eq_none.mp hnone
  unfold reserved at hnone
  split at hnone
  next => exact nomatch hnone
  next hnot =>
    -- it was not in the cache before, so it was offered
    refine hnot (List.contains_iff_mem.mpr (List.mem_map_of_mem ?_))
    exact List.mem_filter.mpr ⟨htx, Option.isNone_iff_eq_none.mpr hnone⟩

/-- **The cache stays as it is exactly if nothing is offered.** -/
theorem reserved_eq_iff : p.reserved E parent = p.txCache ↔ p.filteredTxs E = [] := by
  constructor
  · intro heq
    refine List.eq_nil_iff_forall_not_mem.mpr fun tx htx => ?_
    have hentry : p.reserved E parent (E.H.sha256 tx) = some (parent.height + 1) :=
      if_pos (List.contains_iff_mem.mpr (List.mem_map_of_mem htx))
    rw [heq, txCache_of_mem_filteredTxs htx] at hentry
    exact nomatch hentry
  · intro hnil
    funext h
    unfold reserved
    rw [hnil]
    rfl

/-! ## What is left behind -/

/-- The address of a known validator set's proposer. -/
theorem proposerAddress_some (vset : ValidatorSet) (index : ℤ) :
    proposerAddress (some vset) index
      = .ok (if index < 0 then [] else (vset.getByIndex index).elim [] Validator.address) := by
  unfold proposerAddress
  split <;> rfl

/-- **`PrepareProposal` enters the transactions whatever the application
answers.** It panics if the validators of the next block are not known. -/
theorem prepareProposal_reserves (parent : DraftBlock) (p : Pacemaker) :
    Ensures (prepareProposal E parent) p
      (fun r p' => (∃ trace, p' = { p with txCache := p.reserved E parent, trace })
        ∧ ∃ vset, p.chain.getValidatorsByHash parent.proposedBlock.header.nextValidatorsHash
            = some vset
          ∧ r.toOption = p.app.prepareProposal (abciCalls p.trace) (p.leafRequest E parent vset))
      (fun _ => p.chain.getValidatorsByHash parent.proposedBlock.header.nextValidatorsHash
        = none) := by
  unfold prepareProposal
  simp only [ensures_bind, ensures_get, ensures_set, ensures_ofExcept, ensures_record]
  cases hvset : p.chain.getValidatorsByHash parent.proposedBlock.header.nextValidatorsHash with
  | none => exact ⟨fun _ h => (by cases h), fun _ _ => rfl⟩
  | some vset =>
    refine ⟨fun vset' h => ?_, fun _ h => by cases h⟩
    obtain rfl := Except.ok.inj h
    rw [proposerAddress_some]
    refine ⟨fun addr h => ?_, fun _ h => by cases h⟩
    obtain rfl := Except.ok.inj h
    split
    next hanswer => exact ⟨⟨_, rfl⟩, vset, rfl, hanswer.symm⟩
    next res hanswer => exact ⟨⟨_, rfl⟩, vset, rfl, hanswer.symm⟩

/-- The two tests of `CreateLeaf`. -/
theorem invalidRound_iff : p.InvalidRound parent justify round
    ↔ (p.epochState.epoch != 0 && round != 0 && decide (round ≤ justify.qc.round)) = true
      ∨ (p.epochState.epoch != 0 && round != 0 && decide (round ≤ parent.round)) = true := by
  unfold InvalidRound
  simp only [Bool.and_eq_true, bne_iff_ne, decide_eq_true_eq, and_assoc, ← and_or_left]

/-- **How `CreateLeaf` ends.** It returns an error exactly if the application
does or the round is invalid, and the transactions are entered by then. -/
theorem createLeaf_reserves (parent : DraftBlock) (justify : DraftQC) (round : UInt32)
    (p : Pacemaker) :
    Ensures (createLeaf E parent justify round) p
      (fun r p' => ∃ vset,
        p.chain.getValidatorsByHash parent.proposedBlock.header.nextValidatorsHash = some vset
          ∧ (r.toOption.isSome
            ↔ (p.app.prepareProposal (abciCalls p.trace) (p.leafRequest E parent vset)).isSome
              ∧ ¬ p.InvalidRound parent justify round)
          ∧ (r.toOption = none → ∃ trace, p' = { p with txCache := p.reserved E parent, trace }))
      (fun _ => p.chain.getValidatorsByHash parent.proposedBlock.header.nextValidatorsHash
        = none) := by
  unfold createLeaf
  rw [ensures_bind]
  refine (prepareProposal_reserves parent p).imp (fun r p₁ h => ?_) (fun _ h => h)
  obtain ⟨⟨trace, rfl⟩, vset, hvset, hanswer⟩ := h
  split
  next e =>
    refine ⟨vset, hvset, ?_, fun _ => ⟨trace, rfl⟩⟩
    rw [← hanswer]
    exact ⟨fun h => (by cases h), fun h => by cases h.1⟩
  next txs =>
    have hanswered : (p.app.prepareProposal (abciCalls p.trace)
        (p.leafRequest E parent vset)).isSome = true := by
      rw [← hanswer]
      rfl
    simp only [ensures_bind, ensures_get]
    split
    next hround =>
      have hround : p.InvalidRound parent justify round := invalidRound_iff.mpr (.inl hround)
      exact ⟨vset, hvset, ⟨fun h => (by cases h), fun hok => absurd hround hok.2⟩,
        fun _ => ⟨trace, rfl⟩⟩
    next hjustify =>
    split
    next hround =>
      have hround : p.InvalidRound parent justify round := invalidRound_iff.mpr (.inr hround)
      exact ⟨vset, hvset, ⟨fun h => (by cases h), fun hok => absurd hround hok.2⟩,
        fun _ => ⟨trace, rfl⟩⟩
    next hparent =>
      have hround : ¬ p.InvalidRound parent justify round := fun h =>
        (invalidRound_iff.mp h).elim hjustify hparent
      exact ⟨vset, hvset, ⟨fun _ => ⟨hanswered, hround⟩, fun _ => rfl⟩, fun h => by cases h⟩

end Pacemaker

/-- **A failed proposal reserves nothing exactly if there was nothing to
reserve.** That is, if the pool has no transaction that was not offered yet;
or the call does not fail, because the application answers and the round is
valid, or panics before it asks. -/
theorem reservesNothing_iff (E : Env) (p : Pacemaker) (parent : DraftBlock) (justify : DraftQC)
    (round : UInt32) :
    p.ReservesNothing E parent justify round
      ↔ p.filteredTxs E = []
        ∨ ∀ vset,
          p.chain.getValidatorsByHash parent.proposedBlock.header.nextValidatorsHash = some vset →
            (p.app.prepareProposal (abciCalls p.trace) (p.leafRequest E parent vset)).isSome
              ∧ ¬ p.InvalidRound parent justify round := by
  have hspec := Pacemaker.createLeaf_reserves (E := E) parent justify round p
  constructor
  · intro hnothing
    by_cases hfresh : p.filteredTxs E = []
    · exact .inl hfresh
    refine .inr fun vset hvset => ?_
    cases hleaf : createLeaf E parent justify round p with
    | error fault p' =>
      unfold Ensures at hspec
      rw [hleaf] at hspec
      exact nomatch hvset.symm.trans hspec
    | ok r p' =>
      obtain ⟨vset', hvset', hends, hleft⟩ := hspec.of_ok hleaf
      obtain rfl := Option.some.inj (hvset.symm.trans hvset')
      cases r with
      | ok d => exact hends.mp rfl
      | error e =>
        -- the error left the transactions in the cache
        obtain ⟨trace, rfl⟩ := hleft rfl
        exact absurd (Pacemaker.reserved_eq_iff.mp (hnothing e _ hleaf).1) hfresh
  · intro hcond e p' hleaf
    obtain ⟨vset, hvset, hends, hleft⟩ := hspec.of_ok hleaf
    obtain ⟨trace, rfl⟩ := hleft rfl
    rcases hcond with hnil | hok
    · exact ⟨Pacemaker.reserved_eq_iff.mpr hnil, Pacemaker.filteredTxs_reserved.trans hnil.symm⟩
    · exact nomatch hends.mpr (hok vset hvset)

namespace Testnet

/-- A node whose application cannot prepare a proposal. -/
def startRefusing : Except Panic Pacemaker :=
  startPacemaker env chain { app with prepareProposal := fun _ _ => none } [1] 1000000000

/-- A proposal on the highest certificate fails and leaves a transaction in
the cache. -/
def proposesInVain (p : Pacemaker) : Bool :=
  decide (p.filteredTxs env = [[7]])
    && (p.chain.getDraftByEscortQC p.qcHigh.qc).any fun parent =>
      match createLeaf env parent p.qcHigh 1 p with
      | .ok (.error e) p' => decide (e = .application ∧ p'.txCache (hashes.sha256 [7]) = some 1
          ∧ p'.filteredTxs env = [])
      | _ => false

/-- **The application returns an error, and the transaction stays reserved**
for the block of height one. It is the only one of the pool, and the next call
offers none. -/
theorem failed_leaf_keeps_tx :
    ∃ p₀ p parent p', startRefusing = .ok p₀ ∧ p = p₀.step env (.pool [[7]])
      ∧ p.chain.getDraftByEscortQC p.qcHigh.qc = some parent
      ∧ createLeaf env parent p.qcHigh 1 p = .ok (.error .application) p'
      ∧ p.filteredTxs env = [[7]] ∧ p'.txCache (hashes.sha256 [7]) = some 1
      ∧ p'.filteredTxs env = []
      ∧ ¬ p.ReservesNothing env parent p.qcHigh 1 := by
  obtain ⟨p₀, hp₀, h⟩ := exists_of_ok (x := startRefusing)
    (fun p₀ => proposesInVain (p₀.step env (.pool [[7]]))) (by decide +kernel)
  obtain ⟨hpool, h⟩ := Bool.and_eq_true_iff.mp h
  have hpool := of_decide_eq_true hpool
  obtain ⟨parent, hparent, h⟩ := (Option.any_eq_true _ _).mp h
  split at h
  next e p' hleaf =>
    obtain ⟨rfl, hcache, hnone⟩ := of_decide_eq_true h
    refine ⟨p₀, _, parent, p', hp₀, rfl, hparent, hleaf, hpool, hcache, hnone, ?_⟩
    intro hnothing
    have hsame := (hnothing _ p' hleaf).2
    rw [hnone, hpool] at hsame
    exact nomatch hsame
  next => exact nomatch h

end Testnet

end LoragonBFT
