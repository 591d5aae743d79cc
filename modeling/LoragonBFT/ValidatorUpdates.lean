import LoragonBFT.Pacemaker.CommitOutcome
import Mathlib.Data.List.Nodup
import LoragonBFT.TrunkIndex

/-!
# Changing the validators

The application asks for changes of the validator set when it has executed a
block: a list of keys with their new powers, zero for a validator that goes.
The set these make of the old one is to be registered for a height a few
blocks on, and from the block of that height on it is in force.

`calcNewValidatorSet` works the changes into a copy of the old set and then
returns a named result it never assigned. So no change takes effect, whatever
the application asks for.

A set that is registered lives in memory only. A restarted node rebuilds its
registry from the best block alone, and the second half of the module says
which histories of commits that is right for: those whose pending sets are
what the best block tells.
-/

namespace LoragonBFT

/-! ## Working the changes in -/

/-- **The updates are applied**: a key with power zero is gone, any other
updated key stands there once with its power, and the other validators are
what they were. -/
structure Applied (old : List Validator) (updates : List ValidatorUpdate) (new : List Validator) :
    Prop where
  removed : ∀ u ∈ updates, u.power = 0 → ∀ v ∈ new, v.pubKey.bytes ≠ u.pubKeyBytes
  updated : ∀ u ∈ updates, u.power ≠ 0 →
    ∃ v, new.filter (fun v => v.pubKey.bytes = u.pubKeyBytes) = [v] ∧ v.votingPower = u.power
  others : (new.filter (fun v => v.pubKey.bytes ∉ updates.map ValidatorUpdate.pubKeyBytes)).Perm
    (old.filter (fun v => v.pubKey.bytes ∉ updates.map ValidatorUpdate.pubKeyBytes))

/-- **The updates take effect**: `calcNewValidatorSet` returns a set in which
they are applied. -/
def TakesEffect (B : Bls) (vset : ValidatorSet) (updates : List ValidatorUpdate) : Prop :=
  ∃ nxtVSet, calcNewValidatorSet B (some vset) updates = .ok (some nxtVSet)
    ∧ Applied vset.validators updates nxtVSet.validators

/-- **No update ever takes effect**: what is returned is nil. -/
theorem not_takesEffect (B : Bls) (vset : ValidatorSet) (updates : List ValidatorUpdate) :
    ¬ TakesEffect B vset updates := by
  rintro ⟨nxtVSet, hcalc, -⟩
  exact nomatch calcNewValidatorSet_eq_none hcalc

/-- **A new validator is ignored.** The application asks for a fifth validator
with a key that parses, and nil is returned. -/
theorem Testnet.new_validator_ignored :
    calcNewValidatorSet bls (some committee) [⟨[4], 1⟩] = .ok none
      ∧ ¬ TakesEffect bls committee [⟨[4], 1⟩] := by
  refine ⟨rfl, ?_⟩
  rintro ⟨nxtVSet, hcalc, -⟩
  exact nomatch calcNewValidatorSet_eq_none hcalc

/-! ## Registered sets and restarts -/

section Restart

open EStateM

variable {E : Env}

/-- A committed block, with the set its execution asked to register. -/
structure Committed where
  blk : Block
  nxtVSet : Option ValidatorSet

/-- **A sequence of commits.** Each block is above the best one, `CommitBlock`
goes on from what the executor answered, and returns without an error. -/
inductive CommitRun (E : Env) (p₀ : Pacemaker) : List Committed → Pacemaker → Prop
  | start : CommitRun E p₀ [] p₀
  | commit {history : List Committed} {p p' : Pacemaker} (blk : Block)
      (escortQC : Option QuorumCert) (appHash : Bytes) (nxtVSet : Option ValidatorSet)
      (run : CommitRun E p₀ history p) (unknown : p.isKnown blk = false)
      (committed : commitExecuted E blk escortQC (.ok (appHash, nxtVSet)) p = .ok (.ok ()) p') :
      CommitRun E p₀ (history ++ [⟨blk, nxtVSet⟩]) p'

/-- A commit registers a set for a block: the third one on. -/
def Committed.Registers (cm : Committed) (n : UInt32) (nxtVSet : ValidatorSet) : Prop :=
  cm.nxtVSet = some nxtVSet ∧ n = cm.blk.number + 3

/-- **The best block announces a set**: it is a KBlock other than the genesis,
and the third block on is above it. -/
def Chain.Announces (c : Chain) : Prop :=
  c.bestBlock.isKBlock = true ∧ c.bestBlock.number ≠ 0
    ∧ c.bestBlock.number < c.bestBlock.number + 3

/-- **The best block tells of a set for a block**: the third one on, and the set
is the one stored under its `NextValidatorsHash`. -/
def Chain.Tells (c : Chain) (n : UInt32) (nxtVSet : ValidatorSet) : Prop :=
  c.Announces ∧ n = c.bestBlock.number + 3
    ∧ c.getValidatorsByHash c.bestBlock.header.nextValidatorsHash = some nxtVSet

/-- **The registry survives a restart**: the one made from the chain answers
`GetNext` like the one in memory, for every block above the best one. -/
def Pacemaker.RegistrySurvives (p : Pacemaker) : Prop :=
  ∃ registry, newValidatorSetRegistry p.chain = .ok registry
    ∧ ∀ n, p.chain.bestBlock.number < n →
        registry.nextVSet n = p.validatorSetRegistry.nextVSet n

/-- **The best block tells all**: the set it names is stored, and the sets
registered for a block above it, by the commits since the start or at the start
itself, are the ones it tells of. -/
structure TellsAll (before : Chain) (history : List Committed) (c : Chain) : Prop where
  stored : c.Announces →
    (c.getValidatorsByHash c.bestBlock.header.nextValidatorsHash).isSome = true
  told : ∀ n nxtVSet, c.bestBlock.number < n →
    ((before.Tells n nxtVSet ∨ ∃ cm ∈ history, cm.Registers n nxtVSet) ↔ c.Tells n nxtVSet)

theorem add_four_sub_one (n : UInt32) : n + 4 - 1 = n + 3 := by
  grind

/-- **What a restarted node reads off its best block**: the set it tells of, if
that is stored, and nothing else. -/
theorem Chain.newValidatorSetRegistry_eq (c : Chain) [Decidable c.Announces] :
    newValidatorSetRegistry c
      = if c.Announces then
          match c.getValidatorsByHash c.bestBlock.header.nextValidatorsHash with
          | none => .error (.explicit "next validator set could not be empty")
          | some nxtVSet => .ok
            ⟨fun num => if num = c.bestBlock.number + 3
                then c.getValidatorsByHash c.bestBlock.header.validatorsHash else none,
              fun num => if num = c.bestBlock.number + 3 then some nxtVSet else none⟩
        else .ok ⟨fun _ => none, fun _ => none⟩ := by
  unfold newValidatorSetRegistry Chain.Announces
  by_cases hzero : c.bestBlock.number = 0
  · simp [hzero]
  · simp only [hzero, if_false, add_four_sub_one, ne_eq, not_false_eq_true, true_and]
    by_cases hlt : c.bestBlock.number < c.bestBlock.number + 3
    · cases c.bestBlock.isKBlock <;>
        cases c.getValidatorsByHash c.bestBlock.header.nextValidatorsHash <;>
        simp [hlt, UInt32.not_le.mpr hlt]
    · simp [hlt, UInt32.not_lt.mp hlt]

theorem Chain.newValidatorSetRegistry_iff {c : Chain} {f : UInt32 → Option ValidatorSet} :
    (∃ registry, newValidatorSetRegistry c = .ok registry
        ∧ ∀ n, c.bestBlock.number < n → registry.nextVSet n = f n)
      ↔ (c.Announces →
          (c.getValidatorsByHash c.bestBlock.header.nextValidatorsHash).isSome = true)
        ∧ ∀ n nxtVSet, c.bestBlock.number < n → (f n = some nxtVSet ↔ c.Tells n nxtVSet) := by
  classical
  rw [c.newValidatorSetRegistry_eq]
  by_cases hannounces : c.Announces
  · rw [if_pos hannounces]
    cases hstored : c.getValidatorsByHash c.bestBlock.header.nextValidatorsHash with
    | none =>
      refine ⟨?_, fun ⟨h, _⟩ => nomatch h hannounces⟩
      rintro ⟨registry, hregistry, -⟩
      exact nomatch hregistry
    | some stored =>
      have htells : ∀ n nxtVSet, c.Tells n nxtVSet
          ↔ (if n = c.bestBlock.number + 3 then some stored else none) = some nxtVSet := by
        intro n nxtVSet
        unfold Tells
        rw [hstored]
        split <;> simp [*]
      constructor
      · rintro ⟨registry, hregistry, hf⟩
        obtain rfl := Except.ok.inj hregistry
        refine ⟨fun _ => rfl, fun n nxtVSet hn => ?_⟩
        rw [htells, ← hf n hn]
      · rintro ⟨-, hf⟩
        refine ⟨_, rfl, fun n hn => (Option.ext fun nxtVSet => ?_).symm⟩
        rw [hf n nxtVSet hn, htells]
  · rw [if_neg hannounces]
    have htells : ∀ n nxtVSet, ¬ c.Tells n nxtVSet := fun n nxtVSet h => hannounces h.1
    constructor
    · rintro ⟨registry, hregistry, hf⟩
      obtain rfl := Except.ok.inj hregistry
      refine ⟨fun h => absurd h hannounces, fun n nxtVSet hn => ?_⟩
      rw [← hf n hn]
      exact ⟨fun h => (nomatch h), fun h => absurd h (htells n nxtVSet)⟩
    · rintro ⟨-, hf⟩
      refine ⟨_, rfl, fun n hn => (Option.eq_none_iff_forall_ne_some.mpr fun nxtVSet h => ?_).symm⟩
      exact htells n nxtVSet ((hf n nxtVSet hn).mp h)

/-- `Regulate` leaves the registry, the store and the best block alone. -/
theorem regulate_registry (t : Pacemaker) :
    Ensures (regulate E) t
      (fun _ t' => t'.validatorSetRegistry = t.validatorSetRegistry
        ∧ t'.chain.kv = t.chain.kv ∧ t'.chain.bestBlock = t.chain.bestBlock)
      (fun _ => True) := by
  unfold regulate
  simp only [ensures_bind, ensures_get, ensures_getDraftByEscortQC, ensures_ofExcept]
  refine ⟨fun bestNode _ => ?_, fun _ _ => trivial⟩
  refine (updateEpochState_spec _ t.bump).imp (fun _ t₁ h => ?_) (fun _ _ => trivial)
  obtain ⟨es, rfl, -⟩ := h
  unfold resetPacemaker enterRound scheduleOnBeat
  simp only [ensures_bind, ensures_modify, ensures_get]
  split
  · exact ⟨rfl, rfl, rfl⟩
  split <;> exact ⟨rfl, rfl, rfl⟩

/-- **A started node has the registry its chain gives.** -/
theorem newValidatorSetRegistry_of_start {chain : Chain} {app : App} {myPubKey : Bytes}
    {now : Time} {p : Pacemaker} (h : startPacemaker E chain app myPubKey now = .ok p) :
    newValidatorSetRegistry p.chain = .ok p.validatorSetRegistry := by
  obtain ⟨registry, bestNode, es, hregistry, -, -, hreg⟩ := startPacemaker_eq h
  obtain ⟨hkept, hkv, hbest⟩ := Ensures.of_ok (regulate_registry _) hreg
  rw [hkept]
  unfold newValidatorSetRegistry Chain.getValidatorsByHash at hregistry ⊢
  rw [hkv, hbest]
  exact hregistry

/-- What `registerNext` does to the registry: a set is registered for the
third block on, unless that is not above the best block. -/
theorem registerNext_registry (blk : Block) (nxtVSet : Option ValidatorSet) (p : Pacemaker)
    (hne : blk.number ≠ 0) :
    Ensures (registerNext E blk nxtVSet) p
      (fun _ p' => p'.chain.bestBlock = p.chain.bestBlock
        ∧ ∀ n, p.chain.bestBlock.number < n → p'.validatorSetRegistry.nextVSet n
          = if nxtVSet.isSome = true ∧ n = blk.number + 3 then nxtVSet
            else p.validatorSetRegistry.nextVSet n)
      (fun _ => True) := by
  cases nxtVSet with
  | none => exact ⟨rfl, fun n _ => rfl⟩
  | some nxtVSet =>
    unfold registerNext registerNewValidatorSet
    simp only [ensures_bind, ensures_get, ensures_set, newPendingEpochState, ensures_modify,
      ensures_pure, if_neg hne, add_four_sub_one]
    by_cases hlate : blk.number + 3 ≤ p.chain.bestBlock.number
    · simp only [if_pos hlate, true_and]
      intro n hn
      rw [if_neg]
      rintro ⟨-, rfl⟩
      exact absurd hn (UInt32.not_lt.mpr hlate)
    · simp only [if_neg hlate, true_and]
      intro n _
      rw [Function.update_apply]
      simp

/-- **A commit that returns makes its block the best one**, and leaves the
registry alone. -/
theorem addCommitted_registry (blk : Block) (qc : Option QuorumCert) (p : Pacemaker)
    (habove : p.chain.bestBlock.number < blk.number) :
    Ensures (addCommitted E blk qc) p
      (fun result p' => p'.validatorSetRegistry = p.validatorSetRegistry
        ∧ (result = .ok () → p'.chain.bestBlock = blk))
      (fun _ => True) := by
  refine (addCommitted_adds blk qc p).imp (fun r p' h => ?_) (fun _ _ => trivial)
  obtain ⟨result, hadd, hok, lastCommitted, cmdCh, hp'⟩ := h
  refine ⟨by rw [hp'], fun hr => ?_⟩
  obtain ⟨fork, rfl, -⟩ := hok.mp hr
  have htrunk : p.chain.isTrunk E.H blk.header = true := Chain.isTrunk_of_lt E.H habove
  generalize p'.chain = c' at hadd ⊢
  cases Chain.addBlock_cases hadd with
  | extended => rfl
  | branched fork reached hbeside => exact absurd (htrunk.symm.trans hbeside) (by decide)

/-- What one commit does to the registry and to the best block. -/
theorem commitExecuted_registry {blk : Block} {qc : Option QuorumCert} {appHash : Bytes}
    {nxtVSet : Option ValidatorSet} {p p' : Pacemaker} (hunknown : p.isKnown blk = false)
    (hcommit : commitExecuted E blk qc (.ok (appHash, nxtVSet)) p = .ok (.ok ()) p') :
    p.chain.bestBlock.number < blk.number ∧ p'.chain.bestBlock.number = blk.number
      ∧ ∀ n, p.chain.bestBlock.number < n → p'.validatorSetRegistry.nextVSet n
        = if nxtVSet.isSome = true ∧ n = blk.number + 3 then nxtVSet
          else p.validatorSetRegistry.nextVSet n := by
  have habove : p.chain.bestBlock.number < blk.number :=
    UInt32.not_le.mp (of_decide_eq_false hunknown)
  have hne : blk.number ≠ 0 := fun h => by
    rw [h] at habove
    exact absurd habove (UInt32.not_lt.mpr UInt32.zero_le)
  have hspec : Ensures (commitExecuted E blk qc (.ok (appHash, nxtVSet))) p
      (fun result p' => result = .ok () → p'.chain.bestBlock.number = blk.number
        ∧ ∀ n, p.chain.bestBlock.number < n → p'.validatorSetRegistry.nextVSet n
          = if nxtVSet.isSome = true ∧ n = blk.number + 3 then nxtVSet
            else p.validatorSetRegistry.nextVSet n)
      (fun _ => True) := by
    unfold commitExecuted
    refine (ensures_bind _ _ _ _ _).mpr ((registerNext_registry blk nxtVSet p hne).imp ?_
      (fun _ h => h))
    rintro (e | ⟨⟩) t ⟨hbest, hregistry⟩
    · exact fun h => nomatch h
    · refine (addCommitted_registry (blk.withAppHash appHash) qc t ?_).imp ?_ (fun _ h => h)
      · rw [hbest]
        exact habove
      · rintro result t' ⟨hkept, hbest'⟩ hok
        rw [hkept, hbest' hok]
        exact ⟨rfl, hregistry⟩
  exact ⟨habove, Ensures.of_ok hspec hcommit rfl⟩

/-- **The best block is above the start and every commit.** -/
theorem CommitRun.le_best {p₀ p : Pacemaker} {history : List Committed}
    (run : CommitRun E p₀ history p) :
    p₀.chain.bestBlock.number ≤ p.chain.bestBlock.number
      ∧ ∀ cm ∈ history, cm.blk.number ≤ p.chain.bestBlock.number := by
  induction run with
  | start => exact ⟨UInt32.le_refl _, fun _ h => absurd h List.not_mem_nil⟩
  | commit blk qc appHash nxtVSet run unknown committed ih =>
    obtain ⟨habove, hbest, -⟩ := commitExecuted_registry unknown committed
    rw [hbest]
    have hle := UInt32.le_of_lt habove
    refine ⟨UInt32.le_trans ih.1 hle, fun cm hcm => ?_⟩
    rcases List.mem_append.mp hcm with hcm | hcm
    · exact UInt32.le_trans (ih.2 cm hcm) hle
    · rw [List.mem_singleton.mp hcm]
      exact UInt32.le_refl _

/-- **What a running node has registered for a block above its best one** is
what its start told of and what the commits since have registered. -/
theorem CommitRun.nextVSet_eq_some_iff {p₀ p : Pacemaker} {history : List Committed}
    (run : CommitRun E p₀ history p)
    (hstart : newValidatorSetRegistry p₀.chain = .ok p₀.validatorSetRegistry)
    {n : UInt32} (hn : p.chain.bestBlock.number < n) (nxtVSet : ValidatorSet) :
    p.validatorSetRegistry.nextVSet n = some nxtVSet
      ↔ p₀.chain.Tells n nxtVSet ∨ ∃ cm ∈ history, cm.Registers n nxtVSet := by
  induction run with
  | start =>
    have htold := (Chain.newValidatorSetRegistry_iff.mp ⟨_, hstart, fun _ _ => rfl⟩).2 n nxtVSet hn
    rw [htold]
    simp
  | @commit history p p' blk qc appHash made run unknown committed ih =>
    obtain ⟨habove, hbest, hregistry⟩ := commitExecuted_registry unknown committed
    rw [hbest] at hn
    have hn' := UInt32.lt_trans habove hn
    rw [hregistry n hn']
    have hlast : (∃ cm ∈ history ++ [⟨blk, made⟩], cm.Registers n nxtVSet)
        ↔ (∃ cm ∈ history, cm.Registers n nxtVSet) ∨ Committed.Registers ⟨blk, made⟩ n nxtVSet := by
      simp only [List.mem_append, List.mem_singleton, or_and_right, exists_or, exists_eq_left]
    rw [hlast, ← or_assoc]
    by_cases hmade : made.isSome = true ∧ n = blk.number + 3
    · -- no earlier block has this number
      rw [if_pos hmade]
      have hfresh : ∀ m : UInt32, m ≤ p.chain.bestBlock.number → n ≠ m + 3 := by
        intro m hm heq
        rw [hmade.2, UInt32.add_left_inj] at heq
        exact absurd habove (UInt32.not_lt.mpr (heq ▸ hm))
      refine ⟨fun h => .inr ⟨h, hmade.2⟩, ?_⟩
      rintro ((htold | ⟨cm, hcm, hreg⟩) | hreg)
      · exact absurd htold.2.1 (hfresh _ run.le_best.1)
      · exact absurd hreg.2 (hfresh _ (run.le_best.2 cm hcm))
      · exact hreg.1
    · rw [if_neg hmade, ih hn']
      refine ⟨.inl, fun h => h.elim id fun hreg => absurd ⟨?_, hreg.2⟩ hmade⟩
      rw [show made = some nxtVSet from hreg.1]
      rfl

/-- **Which restarts keep the pending sets.** A node that was started and has
committed since has the same registry after a restart exactly if its best block
tells all. -/
theorem registrySurvives_iff_tellsAll {chain : Chain} {app : App} {myPubKey : Bytes} {now : Time}
    {p₀ p : Pacemaker} {history : List Committed}
    (hstart : startPacemaker E chain app myPubKey now = .ok p₀) (run : CommitRun E p₀ history p) :
    p.RegistrySurvives ↔ TellsAll p₀.chain history p.chain := by
  have hstart := newValidatorSetRegistry_of_start hstart
  unfold Pacemaker.RegistrySurvives
  rw [Chain.newValidatorSetRegistry_iff]
  constructor
  · rintro ⟨hstored, htold⟩
    refine ⟨hstored, fun n nxtVSet hn => ?_⟩
    rw [← htold n nxtVSet hn, run.nextVSet_eq_some_iff hstart hn]
  · rintro ⟨hstored, htold⟩
    refine ⟨hstored, fun n nxtVSet hn => ?_⟩
    rw [run.nextVSet_eq_some_iff hstart hn, htold n nxtVSet hn]

end Restart

namespace Testnet

open EStateM

/-- The first block after the genesis. -/
def firstBlock : Block := block genesis 1 genesisQC []

/-- The committee with a fifth validator. -/
def enlarged : ValidatorSet := ⟨committee.validators ++ [⟨[4], ⟨.bls12381, [4]⟩, 1⟩]⟩

/-- The first block, if it announces this set. -/
def announcingBlock : Block :=
  { firstBlock with
    header := { firstBlock.header with nextValidatorsHash := env.validatorSetHash enlarged } }

/-- Whether a started node can commit a block, with a set to register, and
ends in a state that passes a test. -/
def commitsFirst (blk : Block) (nxtVSet : Option ValidatorSet) (test : Pacemaker → Bool) : Bool :=
  (start 1).toOption.any fun p₀ =>
    !p₀.isKnown blk && !p₀.chain.bestBlock.isKBlock
      && match commitExecuted env blk (some (certificate blk 1)) (.ok ([], nxtVSet)) p₀ with
        | .ok (.ok ()) p => test p
        | _ => false

theorem exists_commitRun (blk : Block) (nxtVSet : Option ValidatorSet) (test : Pacemaker → Bool)
    (h : commitsFirst blk nxtVSet test = true) :
    ∃ p₀ p, start 1 = .ok p₀ ∧ CommitRun env p₀ [⟨blk, nxtVSet⟩] p
      ∧ p₀.chain.bestBlock.isKBlock = false ∧ test p = true := by
  obtain ⟨p₀, hstart, h⟩ := exists_of_start _ h
  rw [Bool.and_eq_true, Bool.and_eq_true, Bool.not_eq_true', Bool.not_eq_true'] at h
  obtain ⟨⟨hunknown, hk⟩, h⟩ := h
  split at h
  · rename_i p hcommit
    exact ⟨p₀, p, hstart, .commit _ _ _ _ .start hunknown hcommit, hk, h⟩
  · exact nomatch h

/-- **A block that announces the set its commit registers can be followed by a
restart.** -/
theorem registrySurvives_of_announced :
    ∃ p₀ p, start 1 = .ok p₀ ∧ CommitRun env p₀ [⟨announcingBlock, some enlarged⟩] p
      ∧ p.chain.Tells 4 enlarged ∧ p.RegistrySurvives := by
  obtain ⟨p₀, p, hstart, run, hk₀, h⟩ := exists_commitRun announcingBlock (some enlarged)
    (fun p => decide (p.chain.bestBlock.number = 1 ∧ p.chain.bestBlock.isKBlock = true
      ∧ p.chain.getValidatorsByHash p.chain.bestBlock.header.nextValidatorsHash = some enlarged))
    (by decide +kernel)
  obtain ⟨hnumber, hk, hstored⟩ := of_decide_eq_true h
  have hannounces : p.chain.Announces := by
    refine ⟨hk, ?_, ?_⟩ <;> rw [hnumber] <;> decide
  have hfirst : announcingBlock.number = p.chain.bestBlock.number := by
    rw [hnumber]
    decide +kernel
  have hquiet : ∀ n nxtVSet, ¬ p₀.chain.Tells n nxtVSet := by
    rintro n nxtVSet ⟨⟨hk, -⟩, -⟩
    rw [hk₀] at hk
    cases hk
  refine ⟨p₀, p, hstart, run, ⟨hannounces, by rw [hnumber]; rfl, hstored⟩,
    (registrySurvives_iff_tellsAll hstart run).mpr
      ⟨fun _ => by rw [hstored]; rfl, fun n nxtVSet _ => ⟨?_, ?_⟩⟩⟩
  · rintro (htold | ⟨cm, hcm, hset, hn⟩)
    · exact absurd htold (hquiet n nxtVSet)
    · rw [List.mem_singleton.mp hcm] at hset hn
      exact ⟨hannounces, hn.trans (congrArg (· + 3) hfirst), hstored.trans hset⟩
  · rintro ⟨-, hn, hset⟩
    exact .inr ⟨⟨announcingBlock, some enlarged⟩, List.mem_singleton_self _,
      hstored.symm.trans hset, hn.trans (congrArg (· + 3) hfirst.symm)⟩

/-- **A registered set is lost.** The commit of the first block registers a set
for the fourth one. The node is restarted before that one is built, and its
best block is no KBlock: nothing is registered any more. -/
theorem registered_set_lost :
    ∃ p₀ p, start 1 = .ok p₀ ∧ CommitRun env p₀ [⟨firstBlock, some enlarged⟩] p
      ∧ p.validatorSetRegistry.nextVSet 4 = some enlarged
      ∧ (∃ registry, newValidatorSetRegistry p.chain = .ok registry ∧ registry.nextVSet 4 = none)
      ∧ ¬ p.RegistrySurvives := by
  obtain ⟨p₀, p, hstart, run, -, h⟩ := exists_commitRun firstBlock (some enlarged)
    (fun p => decide (p.validatorSetRegistry.nextVSet 4 = some enlarged)
      && decide (p.chain.bestBlock.number < 4)
      && (newValidatorSetRegistry p.chain).toOption.any (fun r => (r.nextVSet 4).isNone))
    (by decide +kernel)
  rw [Bool.and_eq_true, Bool.and_eq_true, decide_eq_true_eq, decide_eq_true_eq] at h
  obtain ⟨⟨hregistered, habove⟩, hrebuilt⟩ := h
  cases hregistry : newValidatorSetRegistry p.chain with
  | error fault => rw [hregistry] at hrebuilt; exact nomatch hrebuilt
  | ok registry =>
    rw [hregistry] at hrebuilt
    have hnone : registry.nextVSet 4 = none := Option.isNone_iff_eq_none.mp hrebuilt
    refine ⟨p₀, p, hstart, run, hregistered, ⟨registry, hregistry, hnone⟩, ?_⟩
    rintro ⟨registry', hregistry', hsame⟩
    obtain rfl := Except.ok.inj (hregistry.symm.trans hregistry')
    have hlost := hsame 4 habove
    rw [hnone, hregistered] at hlost
    exact nomatch hlost

end Testnet

end LoragonBFT
