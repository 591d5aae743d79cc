import LoragonBFT.Pacemaker.Core

/-!
# A step of a node is a sequence of actions

One lemma a function: what the function does to the core, as a sequence of
the actions of `CoreStep`, whether it returns or faults. The functions below
`Update` also leave the round and the epoch state alone and only add to the
trace (`CommitMove`); of the others only the sequence is kept (`Follows`).

The last theorem of the file, `Pacemaker.step_refines`, is what the rest of
the development uses: an invariant that every action preserves is preserved
by every step, and so holds in every state a run reaches
(`Pacemaker.step_invariant`, `Run.core_invariant`).
-/

namespace LoragonBFT

open EStateM

variable {E : Env} {s : Pacemaker} {i : Input}

/-! ## Committing -/

@[simp] theorem Block.id_withAppHash (H : Hashes) (blk : Block) (appHash : Bytes) :
    (blk.withAppHash appHash).id H = blk.id H := rfl

theorem eq_some_of_deref {α : Type} {x : Option α} {a : α} (h : deref x = .ok a) : x = some a := by
  cases x with
  | none => exact nomatch h
  | some b => rw [Except.ok.inj h]

/-- Part of a step: the core moves by actions, and what `OnCommit` must not
touch stays. -/
structure CommitMove (E : Env) (s : Pacemaker) (i : Input) (t t' : Pacemaker) : Prop where
  steps : CoreSteps E s i t.core t'.core
  round_eq : t'.currentRound = t.currentRound
  epochState_eq : t'.epochState = t.epochState
  grows : t.trace <+: t'.trace

namespace CommitMove

theorem refl (t : Pacemaker) : CommitMove E s i t t := ⟨.refl, rfl, rfl, List.prefix_refl _⟩

theorem trans {t t' t'' : Pacemaker} (h : CommitMove E s i t t') (h' : CommitMove E s i t' t'') :
    CommitMove E s i t t'' :=
  ⟨h.steps.trans h'.steps, h'.round_eq.trans h.round_eq, h'.epochState_eq.trans h.epochState_eq,
    h.grows.trans h'.grows⟩

/-- Bookkeeping is no move of the core. -/
theorem of_core {t t' : Pacemaker} (h : t'.core = t.core) : CommitMove E s i t t' where
  steps := h ▸ .refl
  round_eq := congrArg Core.currentRound h
  epochState_eq := congrArg Core.epochState h
  grows := by
    have htrace : t'.trace = t.trace := congrArg Core.trace h
    exact htrace ▸ List.prefix_refl _

theorem record {t : Pacemaker} {e : Event} (h : e.isQuiet = true) :
    CommitMove E s i t { t with trace := t.trace ++ [e] } :=
  ⟨.single (.record t.core e h), rfl, rfl, List.prefix_append _ _⟩

/-- Moving on from where an earlier move led. -/
theorem andThen {α : Type} {x : PM α} {t t' : Pacemaker} (h : CommitMove E s i t t')
    (hx : Ensures x t' (fun _ => CommitMove E s i t') (CommitMove E s i t')) :
    Ensures x t' (fun _ => CommitMove E s i t) (CommitMove E s i t) :=
  hx.imp (fun _ _ h' => h.trans h') (fun _ h' => h.trans h')

end CommitMove

theorem afterFinalize_spec (blk : Block) (response : FinalizeBlockResponse) (t : Pacemaker) :
    Ensures (afterFinalize E blk response) t
      (fun r t' => (t'.core = t.core ∧ t'.chain = t.chain) ∧ ∀ a n, r = .ok (a, n) → n = none)
      (fun t' => t'.core = t.core) := by
  unfold afterFinalize
  split
  · exact ⟨⟨rfl, rfl⟩, nofun⟩
  · rw [ensures_bind]
    show Ensures _ _ _ _
    simp only [ensures_bind, ensures_get, ensures_ofExcept, ensures_pure]
    refine ⟨fun n hn => ⟨⟨rfl, rfl⟩, ?_⟩, fun _ _ => rfl⟩
    rintro a n' h
    cases h
    exact calcNewValidatorSet_eq_none hn

theorem applyBlock_spec (blk : Block) (syncingToHeight : ℤ) (t : Pacemaker) :
    Ensures (applyBlock E blk syncingToHeight) t
      (fun r t' => (CommitMove E s i t t' ∧ t'.chain = t.chain)
        ∧ ∀ a n, r = .ok (a, n) → n = none)
      (CommitMove E s i t) := by
  unfold applyBlock
  simp only [ensures_bind, ensures_get]
  split
  · exact ⟨⟨.refl t, rfl⟩, fun _ _ h => by cases h⟩
  · simp only [ensures_bind, ensures_ofExcept, ensures_record]
    refine ⟨fun req _ => ?_, fun _ _ => .refl t⟩
    have hrec : CommitMove E s i t
        { t with trace := t.trace ++ [.abci (.finalizeBlock req)] } := .record rfl
    split
    · exact ⟨⟨hrec, rfl⟩, fun _ _ h => by cases h⟩
    · refine (afterFinalize_spec blk _ _).imp (fun r t' h => ?_) (fun t' h => ?_)
      · exact ⟨⟨hrec.trans (.of_core h.1.1), h.1.2⟩, h.2⟩
      · exact hrec.trans (.of_core h)

theorem finishCommit_spec (blk : Block) (fork : Fork) (t : Pacemaker)
    (hstored : t.chain.kv.blocks (blk.id E.H) = some blk) :
    Ensures (finishCommit blk fork) t (fun _ => CommitMove E s i t) (CommitMove E s i t) := by
  have hcommit : CommitMove E s i t { t with lastCommitted := blk } :=
    ⟨.single (.commit t.core blk hstored), rfl, rfl, List.prefix_refl _⟩
  unfold finishCommit
  split
  · exact .of_core rfl
  · simp only [ensures_bind, ensures_modify]
    split
    · exact hcommit.trans (.of_core rfl)
    · exact hcommit

theorem addCommitted_spec (blk : Block) (appHash : Bytes) (escortQC : Option QuorumCert)
    (t : Pacemaker) (hsource : CommitSource i t.core blk)
    (hhigher : t.chain.bestBlock.number < blk.number) :
    Ensures (addCommitted E (blk.withAppHash appHash) escortQC) t
      (fun _ => CommitMove E s i t) (CommitMove E s i t) := by
  unfold addCommitted
  simp only [ensures_bind, ensures_get, ensures_ofExcept, ensures_modify]
  refine ⟨?_, fun _ _ => .refl t⟩
  rintro ⟨result, chain⟩ h
  have hspec := Chain.addBlock_spec h
  have hadd : CommitMove E s i t { t with chain } := by
    refine ⟨.single ?_, rfl, rfl, List.prefix_refl _⟩
    have hstep := CoreStep.addBlock (E := E) (s := s) t.core blk appHash chain.kv chain.bestBlock
      hsource hhigher hspec.kv_cases hspec.best_cases
    convert hstep using 1
    simp only [Pacemaker.core, hspec.proposals_eq, hspec.committedRefs_eq]
  split
  · exact hadd
  · rename_i fork hfork
    exact hadd.andThen (finishCommit_spec _ fork _ (hspec.stored fork hfork))

theorem commitBlock_spec (blk : Block) (escortQC : Option QuorumCert) (t : Pacemaker)
    (hsource : ∀ t' : Pacemaker, t.trace <+: t'.trace → CommitSource i t'.core blk) :
    Ensures (commitBlock E blk escortQC) t (fun _ => CommitMove E s i t) (CommitMove E s i t) := by
  unfold commitBlock
  simp only [ensures_bind, ensures_get]
  split
  · exact .refl t
  rename_i hknown
  have hhigher : t.chain.bestBlock.number < blk.number := by
    simpa [Pacemaker.isKnown] using hknown
  rw [ensures_bind]
  refine (applyBlock_spec blk _ t).imp (fun r t' h => ?_) (fun _ h => h)
  obtain ⟨⟨hmove, hchain⟩, hnone⟩ := h
  unfold commitExecuted
  split
  · exact hmove
  · rename_i appHash nxtVSet
    obtain rfl := hnone appHash nxtVSet rfl
    rw [← hchain] at hhigher
    exact hmove.andThen (addCommitted_spec blk appHash escortQC t' (hsource t' hmove.grows) hhigher)

/-- **The loop of `OnCommit` moves a node as its commits do**, each with the
pruning that follows it. -/
theorem onCommitLoop_moves {R : Pacemaker → Pacemaker → Prop} (hrefl : ∀ t, R t t)
    (htrans : ∀ {t t' t''}, R t t' → R t' t'' → R t t'') (l : List CommitReadyBlock)
    (hcommit : ∀ b ∈ l, ∀ d, b.block = some d → ∀ t,
      Ensures (commitBlock E d.proposedBlock b.escortQC) t
        (fun _ t' => R t { t' with chain := t'.chain.pruneDraftsUpTo E.H d }) (R t))
    (lastCommitted : Block) (t : Pacemaker) :
    Ensures (onCommitLoop E l lastCommitted) t (fun _ => R t) (R t) := by
  induction l generalizing lastCommitted t with
  | nil => exact hrefl t
  | cons b rest ih =>
    have hone : Ensures (onCommitOne E b lastCommitted) t (fun _ => R t) (R t) := by
      unfold onCommitOne
      split
      · exact hrefl t
      rename_i d hd
      split
      · exact hrefl t
      split
      · exact hrefl t
      rw [ensures_bind]
      refine (hcommit b List.mem_cons_self d hd t).imp (fun err t' h => ?_) (fun _ h => h)
      rw [ensures_bind, ensures_modify]
      split <;> exact h
    unfold onCommitLoop
    refine hone.bind fun r t' h => ?_
    exact (ih (fun b' hb' => hcommit b' (List.mem_cons_of_mem _ hb')) r t').imp
      (fun _ _ h' => htrans h h') (fun _ h' => htrans h h')

theorem onCommitLoop_spec (last : Block) (commitReady : List CommitReadyBlock)
    (lastCommitted : Block) (t : Pacemaker) (hevent : Event.onCommit last commitReady ∈ t.trace) :
    Ensures (onCommitLoop E commitReady lastCommitted) t
      (fun _ => CommitMove E s i t) (CommitMove E s i t) := by
  -- the list stays on record from one block to the next
  refine (onCommitLoop_moves (R := fun t t' => Event.onCommit last commitReady ∈ t.trace →
    CommitMove E s i t t') (fun t _ => .refl t)
    (fun h h' hmem => (h hmem).trans (h' ((h hmem).grows.subset hmem))) commitReady
    (fun b hb d hd t => ?_) lastCommitted t).imp (fun _ _ h => h hevent) (fun _ h => h hevent)
  by_cases hmem : Event.onCommit last commitReady ∈ t.trace
  · have hsource : ∀ t' : Pacemaker, t.trace <+: t'.trace →
        CommitSource i t'.core d.proposedBlock := fun t' hgrows =>
      .inl ⟨last, commitReady, b, d, hgrows.subset hmem, hb, hd, rfl⟩
    exact (commitBlock_spec d.proposedBlock b.escortQC t hsource).imp
      (fun _ t' h _ => h.trans ⟨.single (.prune t'.core d _), rfl, rfl, List.prefix_refl _⟩)
      (fun _ h _ => h)
  · exact ensures_of_forall (fun _ _ h => absurd h hmem) (fun _ h => absurd h hmem)

theorem onCommit_spec (commitReady : List CommitReadyBlock) (t : Pacemaker)
    (hlist : CoreStep E s i t.core
      { t.core with trace := t.trace ++ [.onCommit t.lastCommitted commitReady] }) :
    Ensures (onCommit E commitReady) t (fun _ => CommitMove E s i t) (CommitMove E s i t) := by
  unfold onCommit
  simp only [ensures_bind, ensures_get, ensures_record]
  have hrec : CommitMove E s i t
      { t with trace := t.trace ++ [.onCommit t.lastCommitted commitReady] } :=
    ⟨.single hlist, rfl, rfl, List.prefix_append _ _⟩
  split
  · exact hrec
  · simp only [ensures_bind, ensures_ofExcept, ensures_pure]
    refine ⟨fun blk _ => ?_, fun _ _ => hrec⟩
    exact hrec.andThen (onCommitLoop_spec t.lastCommitted _ _ _ (by simp))

/-! ## Update -/

/-- The condition of `UpdateQCHigh`: a known block with a higher number, or
the number of the current node and a later round. -/
def DraftQC.Replaces (q q₀ : DraftQC) : Prop :=
  q.qcNode.isSome ∧ q₀.qc.number < q.qc.number
    ∨ ∃ node, q₀.qcNode = some node ∧ q.qc.number = node.height ∧ node.round < q.qc.round

/-- **What `UpdateQCHigh` does.** Without a node it faults as soon as it has
to look at it. -/
theorem updateQCHigh_cases (q : DraftQC) (t : Pacemaker) :
    Ensures (updateQCHigh q) t
      (fun changed t' => changed = true ∧ q.Replaces t.qcHigh ∧ t' = { t with qcHigh := q }
        ∨ changed = false ∧ ¬ q.Replaces t.qcHigh ∧ t' = t)
      (fun t' => t' = t ∧ t.qcHigh.qcNode = none) := by
  unfold updateQCHigh
  rw [ensures_bind, ensures_get]
  split
  · rename_i hhigher
    obtain ⟨hnode, hnumber⟩ := Bool.and_eq_true_iff.mp hhigher
    exact .inl ⟨rfl, .inl ⟨hnode, of_decide_eq_true hnumber⟩, rfl⟩
  rename_i hhigher
  rw [ensures_bind, ensures_ofExcept]
  refine ⟨fun node hnode => ?_, fun _ hfault => ⟨rfl, ?_⟩⟩
  · have hnode' := eq_some_of_deref hnode
    split
    · rename_i hlater
      obtain ⟨hnumber, hround⟩ := Bool.and_eq_true_iff.mp hlater
      exact .inl ⟨rfl, .inr ⟨node, hnode', eq_of_beq hnumber, of_decide_eq_true hround⟩, rfl⟩
    · rename_i hlater
      refine .inr ⟨rfl, ?_, rfl⟩
      rintro (⟨hsome, hnumber⟩ | ⟨node', hnode'', hnumber, hround⟩)
      · exact hhigher (Bool.and_eq_true_iff.mpr ⟨hsome, decide_eq_true hnumber⟩)
      · obtain rfl := Option.some.inj (hnode'.symm.trans hnode'')
        exact hlater (Bool.and_eq_true_iff.mpr
          ⟨beq_iff_eq.mpr hnumber, decide_eq_true hround⟩)
  · cases hcur : t.qcHigh.qcNode with
    | none => rfl
    | some node => rw [hcur] at hfault; exact nomatch hfault

theorem updateQCHigh_spec (q : DraftQC) (t : Pacemaker) :
    Ensures (updateQCHigh q) t (fun _ t' => ∃ q', t' = { t with qcHigh := q' })
      (fun t' => t' = t) := by
  refine (updateQCHigh_cases q t).imp (fun _ t' h => ?_) (fun _ h => h.1)
  rcases h with ⟨-, -, rfl⟩ | ⟨-, -, rfl⟩
  · exact ⟨q, rfl⟩
  · exact ⟨t'.qcHigh, rfl⟩

theorem isEscortDraft_of_lookup {t : Pacemaker} {qc : QuorumCert} {d : DraftBlock}
    (h : t.chain.getDraftByEscortQC qc = some d) : t.core.IsEscortDraft qc d := by
  unfold Chain.getDraftByEscortQC at h
  split at h
  · rename_i d' hd'
    obtain rfl := Option.some.inj h
    obtain ⟨hmem, hround⟩ := Option.filter_eq_some_iff.mp hd'
    exact .inl ⟨hmem, by simpa using hround⟩
  · rename_i hnone
    obtain ⟨blk, hblk, rfl⟩ := Option.map_eq_some_iff.mp h
    refine .inr ⟨fun d' hd' hround => ?_, blk, _, hblk, rfl⟩
    have hd'' : t.chain.proposals qc.blockID = some d' := hd'
    rw [hd''] at hnone
    simp [Option.filter, hround] at hnone

theorem isDraft_of_lookup {t : Pacemaker} {id : Bytes32} {d : DraftBlock}
    (h : t.chain.getDraft id = some d) : t.core.IsDraft id d := by
  unfold Chain.getDraft at h
  split at h
  · rename_i d' hd'
    obtain rfl := Option.some.inj h
    exact .inl hd'
  · rename_i hnone
    obtain ⟨blk, hblk, rfl⟩ := Option.map_eq_some_iff.mp h
    exact .inr ⟨hnone, blk, _, hblk, rfl⟩

/-- Hand out a pointer. -/
def Pacemaker.bump (t : Pacemaker) : Pacemaker :=
  { t with chain := { t.chain with nextRef := t.chain.nextRef + 1 } }

@[simp] theorem ensures_getDraft (id : Bytes32) (t : Pacemaker)
    (Q : Option DraftBlock → Pacemaker → Prop) (Q' : Pacemaker → Prop) :
    Ensures (getDraft id) t Q Q' ↔ Q (t.chain.getDraft id) t.bump := Iff.rfl

@[simp] theorem ensures_getDraftByEscortQC (qc : QuorumCert) (t : Pacemaker)
    (Q : Option DraftBlock → Pacemaker → Prop) (Q' : Pacemaker → Prop) :
    Ensures (getDraftByEscortQC qc) t Q Q' ↔ Q (t.chain.getDraftByEscortQC qc) t.bump := Iff.rfl

/-- **How `Update` ends**: it does nothing, or the certificate is offered with
its uncommitted draft and the list walked up from there is committed. -/
theorem ensures_update {Q : Option Block → Pacemaker → Prop} {Q' : Pacemaker → Prop}
    (qc : QuorumCert) (t : Pacemaker) (hstill : Q none t.bump ∧ Q' t.bump)
    (hoffered : ∀ bPrime t₁, t.chain.getDraftByEscortQC qc = some bPrime →
      bPrime.committed = false →
      ((⟨some bPrime, qc⟩ : DraftQC).Replaces t.qcHigh
          ∧ t₁ = { t.bump with qcHigh := ⟨some bPrime, qc⟩ }
        ∨ ¬ (⟨some bPrime, qc⟩ : DraftQC).Replaces t.qcHigh ∧ t₁ = t.bump) →
      Q none t₁ ∧ Q' t₁ ∧ ∀ l, commitReadyBlocks t.lastCommitted.number bPrime.toDraftInfo
        bPrime.ancestors [] = .ok l → Ensures (onCommit E l) t₁ Q Q') :
    Ensures (update E qc) t Q Q' := by
  unfold update
  simp only [ensures_bind, ensures_getDraftByEscortQC]
  split
  · exact hstill.1
  rename_i bPrime hlookup
  simp only [ensures_bind, ensures_get]
  split
  · exact hstill.1
  rename_i huncommitted
  have huncommitted' : bPrime.committed = false := by
    simp only [Chain.isCommitted, Bool.or_eq_true, not_or, Bool.not_eq_true] at huncommitted
    exact huncommitted.1
  unfold updateFrom
  simp only [ensures_bind, ensures_ofExcept]
  refine ⟨fun justify _ => ⟨fun b _ => ?_, fun _ _ => hstill.2⟩, fun _ _ => hstill.2⟩
  refine (updateQCHigh_cases _ t.bump).imp (fun _ t₁ h => ?_) (fun _ h => h.1 ▸ hstill.2)
  have hlast : t₁.lastCommitted = t.lastCommitted := by
    rcases h with ⟨-, -, rfl⟩ | ⟨-, -, rfl⟩ <;> rfl
  obtain ⟨hnone, hfault, hcommit⟩ := hoffered bPrime t₁ hlookup huncommitted'
    (h.imp And.right And.right)
  refine ⟨fun parent _ => ?_, fun _ _ => hfault⟩
  split
  · exact hnone
  simp only [ensures_bind, ensures_get, ensures_ofExcept, hlast]
  exact ⟨fun l hwalk => hcommit l hwalk, fun _ _ => hfault⟩

theorem update_spec (qc : QuorumCert) (t : Pacemaker) (hsource : UpdateSource E s i t.core qc) :
    Ensures (update E qc) t (fun _ => CommitMove E s i t) (CommitMove E s i t) := by
  refine ensures_update qc t ⟨.of_core rfl, .of_core rfl⟩
    fun bPrime t₁ hlookup huncommitted h => ?_
  have hcore : t₁.core = t.core ∧ t₁.lastCommitted = t.lastCommitted ∧ t₁.trace = t.trace := by
    rcases h with ⟨-, rfl⟩ | ⟨-, rfl⟩ <;> exact ⟨rfl, rfl, rfl⟩
  have hmove : CommitMove E s i t t₁ := .of_core hcore.1
  refine ⟨hmove, hmove, fun l hwalk => hmove.andThen (onCommit_spec l t₁ ?_)⟩
  rw [hcore.1, hcore.2.1, hcore.2.2]
  exact .commitList t.core qc bPrime l hsource (isEscortDraft_of_lookup hlookup) huncommitted hwalk

/-! ## Proposals -/

/-- A computation that moves the core by actions, whether it returns or
faults. -/
def Follows (E : Env) (s : Pacemaker) (i : Input) {α : Type} (x : PM α) (t : Pacemaker) : Prop :=
  Ensures x t (fun _ t' => CoreSteps E s i t.core t'.core)
    (fun t' => CoreSteps E s i t.core t'.core)

theorem Follows.andThen {α : Type} {x : PM α} {t t' : Pacemaker}
    (h : CoreSteps E s i t.core t'.core) (hx : Follows E s i x t') :
    Ensures x t' (fun _ t'' => CoreSteps E s i t.core t''.core)
      (fun t'' => CoreSteps E s i t.core t''.core) :=
  hx.imp (fun _ _ h' => h.trans h') (fun _ h' => h.trans h')

/-- **Sequencing.** -/
theorem Follows.bind {α β : Type} {x : PM α} {f : α → PM β} {t : Pacemaker}
    (hx : Follows E s i x t) (hf : ∀ a t', Follows E s i (f a) t') :
    Follows E s i (x >>= f) t := by
  unfold Follows
  rw [ensures_bind]
  exact hx.imp (fun a t' h => Follows.andThen h (hf a t')) (fun _ h => h)

/-- A computation that leaves the core as it is. -/
theorem Follows.of_core {α : Type} {x : PM α} {t : Pacemaker}
    (hx : Ensures x t (fun _ t' => t'.core = t.core) (fun t' => t'.core = t.core)) :
    Follows E s i x t :=
  hx.imp (fun _ _ h => h ▸ .refl) (fun _ h => h ▸ .refl)

theorem Follows.get (t : Pacemaker) : Follows E s i (get : PM Pacemaker) t := .of_core rfl

theorem Follows.scheduleOnBeat (epoch : UInt64) (round : UInt32) (t : Pacemaker) :
    Follows E s i (scheduleOnBeat epoch round) t := .of_core rfl

theorem enterRound_spec (round : UInt32) (rtype : RoundType) (t : Pacemaker) :
    Ensures (enterRound round rtype) t
      (fun _ t' => t' = t ∨ (round > 0 → t.currentRound ≤ round) ∧ t.epochState.inCommittee = true
        ∧ t'.core = { t.core with currentRound := round })
      (fun _ => False) := by
  unfold enterRound
  simp only [ensures_bind, ensures_get]
  split
  · exact .inl rfl
  rename_i hlower
  split
  · exact .inl rfl
  rename_i hmember
  refine .inr ⟨fun h => ?_, by simpa using hmember, rfl⟩
  simp only [Bool.and_eq_true, decide_eq_true_eq, not_and, UInt32.not_lt] at hlower
  exact hlower h

/-- A member of the committee that does not go back enters the round. -/
theorem enterRound_core (round : UInt32) (rtype : RoundType) (t : Pacemaker)
    (hmember : t.epochState.inCommittee = true) :
    Ensures (enterRound round rtype) t
      (fun _ t' => t'.core = { t.core with
        currentRound := if round > 0 && round < t.currentRound then t.currentRound else round })
      (fun _ => False) := by
  unfold enterRound
  simp only [ensures_bind, ensures_get]
  split
  · rfl
  · rw [if_neg (by simp [hmember])]
    rfl

theorem broadcast_spec (msg : ConsensusMessage) (t : Pacemaker) :
    Ensures (broadcast msg) t
      (fun _ t' => t' = { t with trace := t.trace ++ [.broadcast msg] }
        ∧ t.epochState.inCommittee = true)
      (fun t' => t' = t) := by
  unfold broadcast
  simp only [ensures_bind, ensures_get, ensures_ofExcept, ensures_record]
  refine ⟨fun me hme => ⟨fun _ _ => ⟨trivial, ?_⟩, fun _ _ => trivial⟩, fun _ _ => trivial⟩
  unfold EpochState.getMyself at hme
  split at hme
  · assumption
  · cases hme

/-- **A vote can be given in the state `t`**: the proposal was accepted, its
certificate checked, its draft is in place and extends what is committed. -/
structure Votable (E : Env) (s : Pacemaker) (i : Input) (msg : PMProposalMessage) (blk : Block)
    (parent bnew : DraftBlock) (t : Pacemaker) : Prop where
  accepted : Accepted E s i msg blk parent bnew
  valid : qcID E.H blk.qc ∈ t.validQCs
  extended : t.core.Extends E bnew
  kv_eq : t.chain.kv = s.chain.kv
  drafts : t.chain.proposals = s.chain.proposals
    ∨ s.chain.proposals (blk.id E.H) = none
      ∧ t.chain.proposals = Function.update s.chain.proposals (blk.id E.H) (some bnew)
  height : s.lastVotingHeight ≤ blk.number

section Voting

variable {msg : PMProposalMessage} {blk : Block} {parent bnew : DraftBlock} {t : Pacemaker}

theorem Accepted.proposedBlock_eq (h : Accepted E s i msg blk parent bnew) :
    bnew.proposedBlock = blk := by
  obtain ⟨ref, hbnew⟩ := h.bnew_eq
  rw [hbnew]
  rfl

/-- **How a vote is given**: it is built, its message is signed, and the
certificate of the block is brought to `Update`. -/
theorem Votable.ensures_voteFor {Q : Unit → Pacemaker → Prop} {Q' : Pacemaker → Prop}
    (h : Votable E s i msg blk parent bnew t)
    (hrest : ∀ (v : PMVoteMessage) hash, v.voteRound = msg.round →
      CoreSteps E s i t.core { t.core with trace := t.trace ++ [.voted bnew v] ++ [.signed hash] } →
      UpdateSource E s i
        { t.core with trace := t.trace ++ [.voted bnew v] ++ [.signed hash] } blk.qc →
      Ensures (do
        let lastCommitted ← update E blk.qc
        modify (fun p => { p with lastVoteMsg := some v, lastVotingHeight := number v.voteBlockID })
        if lastCommitted.any Block.isKBlock then return ()
        else
          broadcast (.vote v)
          let _ ← enterRound (v.voteRound + 1) .regular)
        { t with trace := t.trace ++ [.voted bnew v] ++ [.signed hash] } Q Q') :
    Ensures (voteFor E msg bnew) t Q Q' := by
  unfold voteFor
  rw [h.accepted.proposedBlock_eq, ensures_bind, ensures_get]
  obtain ⟨v, hv⟩ : ∃ v, v = buildVoteMessage E t msg blk := ⟨_, rfl⟩
  rw [← hv, ensures_bind, ensures_record, ensures_bind, ensures_record]
  have hid : v.voteBlockID = blk.id E.H := by rw [hv, voteBlockID_buildVoteMessage]
  exact hrest v _ (by rw [hv, voteRound_buildVoteMessage])
    (.tail (.single (.vote t.core msg blk parent bnew v h.accepted h.valid h.extended hid h.height))
      (.record _ _ rfl))
    (.proposal msg blk parent bnew h.accepted rfl h.valid h.extended h.kv_eq h.drafts)

theorem voteFor_spec (h : Votable E s i msg blk parent bnew t)
    (hround : t.currentRound = s.currentRound) : Follows E s i (voteFor E msg bnew) t := by
  refine h.ensures_voteFor fun v hash hvoteRound hvoted hsource => ?_
  rw [ensures_bind]
  refine (update_spec blk.qc _ hsource).imp (fun last t' hmove => ?_)
    (fun t' hmove => hvoted.trans hmove.steps)
  have hsteps := hvoted.trans hmove.steps
  simp only [ensures_bind, ensures_modify]
  split
  · exact hsteps
  simp only [ensures_bind]
  refine (broadcast_spec _ _).imp (fun _ t'' hsent => ?_) (fun t'' ht'' => ht'' ▸ hsteps)
  obtain ⟨rfl, hmember⟩ := hsent
  refine (enterRound_core _ _ _ ?_).imp (fun _ t₃ hround' => ?_) (fun _ h => h.elim)
  · exact hmember
  rw [ensures_pure, hround', hvoteRound]
  exact hsteps.tail (.sendVote t'.core msg v h.accepted.handles hvoteRound hmember
    (hmove.round_eq.trans hround))

end Voting

theorem validateQC_spec (b : Block) (qc : QuorumCert) (t : Pacemaker) :
    Ensures (validateQC E b qc) t
      (fun r t' => (t' = t ∨ b.verifyQC E.H E.B qc t.epochState.committee = .ok (true, none)
          ∧ t' = { t with validQCs := lruAdd 256 t.validQCs (qcID E.H qc) })
        ∧ (r = true → qcID E.H qc ∈ t'.validQCs))
      (fun t' => t' = t) := by
  unfold validateQC
  simp only [ensures_bind, ensures_get]
  split
  · rename_i hcached
    exact ⟨.inl rfl, fun _ => by simpa using hcached⟩
  split
  · exact ⟨.inl rfl, fun h => by cases h⟩
  · simp only [ensures_bind, ensures_ofExcept]
    refine ⟨?_, fun _ _ => trivial⟩
    rintro ⟨valid, err⟩ hverify
    split
    · rename_i hvalid
      obtain ⟨rfl, herr⟩ : valid = true ∧ err = none := by simpa using hvalid
      exact ⟨.inr ⟨herr ▸ hverify, rfl⟩, fun _ => mem_lruAdd _ _ _⟩
    · exact ⟨.inl rfl, fun h => by cases h⟩

/-- Nothing happened to the chain since the step began but that pointers
were handed out, and the round and the height of the last vote are the
same. -/
structure Unchanged (s t : Pacemaker) : Prop where
  chain_eq : ∃ n, t.chain = { s.chain with nextRef := n }
  round_eq : t.currentRound = s.currentRound
  votingHeight_eq : t.lastVotingHeight = s.lastVotingHeight

theorem Chain.parentBlock_nextRef (c : Chain) (n : Ref) (blk : Block) :
    ({ c with nextRef := n } : Chain).parentBlock blk = c.parentBlock blk := by
  unfold Chain.parentBlock Chain.getDraft Chain.getBlock
  cases c.kv.blocks blk.parentID with
  | some b => rfl
  | none => cases c.proposals blk.parentID <;> rfl

theorem processProposal_spec (blk : Block) (t : Pacemaker) :
    Ensures (processProposal E blk) t
      (fun _ t' => (∃ call, t' = { t with trace := t.trace ++ [.abci call] })
        ∧ ∃ parentBlock info, t.chain.parentBlock blk = some parentBlock
          ∧ t.chain.buildLastCommitInfo parentBlock blk = .ok info)
      (fun t' => t' = t ∨ ∃ call, t' = { t with trace := t.trace ++ [.abci call] }) := by
  unfold processProposal
  simp only [ensures_bind, ensures_get, ensures_ofExcept, ensures_record]
  refine ⟨fun req hreq => ?_, fun _ _ => .inl trivial⟩
  have hinfo : ∃ parentBlock info, t.chain.parentBlock blk = some parentBlock
      ∧ t.chain.buildLastCommitInfo parentBlock blk = .ok info := by
    unfold processProposalRequest at hreq
    cases hparent : t.chain.parentBlock blk with
    | none => rw [hparent] at hreq; cases hreq
    | some parentBlock =>
      rw [hparent] at hreq
      simp only [deref, bind, Except.bind] at hreq
      split at hreq
      · cases hreq
      split at hreq
      · cases hreq
      · rename_i info hinfo
        exact ⟨parentBlock, info, rfl, hinfo⟩
  split
  · exact ⟨⟨_, rfl⟩, hinfo⟩
  · exact .inr ⟨_, rfl⟩
  · exact ⟨⟨_, rfl⟩, hinfo⟩
  · exact ⟨⟨_, rfl⟩, hinfo⟩

theorem validateProposal_spec (b parent : DraftBlock) (t : Pacemaker) :
    Ensures (validateProposal E b parent) t
      (fun r t' => (t' = t ∨ ∃ call, t' = { t with trace := t.trace ++ [.abci call] })
        ∧ ∀ b', r = .ok b' → b' = { b with successProcessed := true, processError := none }
          ∧ ∃ parentBlock info, t.chain.parentBlock b.proposedBlock = some parentBlock
            ∧ t.chain.buildLastCommitInfo parentBlock b.proposedBlock = .ok info)
      (fun t' => t' = t ∨ ∃ call, t' = { t with trace := t.trace ++ [.abci call] }) := by
  unfold validateProposal
  simp only [ensures_bind, ensures_get, ensures_ofExcept]
  refine ⟨fun known _ => ?_, fun _ _ => .inl trivial⟩
  split
  · rw [ensures_pure]
    exact ⟨.inl rfl, fun _ h => by cases h⟩
  rw [ensures_bind]
  refine (processProposal_spec b.proposedBlock t).imp (fun r t' h => ?_) (fun _ h => h)
  obtain ⟨hcall, hinfo⟩ := h
  rcases r with e | _ | _ <;> simp only [ensures_pure]
  · exact ⟨.inr hcall, fun _ h => by cases h⟩
  · exact ⟨.inr hcall, fun _ h => by cases h⟩
  · exact ⟨.inr hcall, fun b' hb' => ⟨(Except.ok.inj hb').symm, hinfo⟩⟩

theorem extends_of_extendedFromLastCommitted {t : Pacemaker} {b : DraftBlock}
    (h : t.extendedFromLastCommitted E b = true) : t.core.Extends E b := by
  obtain ⟨tmp, hmem, heq⟩ := List.any_eq_true.mp h
  exact ⟨tmp, hmem, eq_of_beq heq⟩

@[simp] theorem ensures_addDraft (H : Hashes) (d : DraftBlock) (t : Pacemaker)
    (Q : Unit → Pacemaker → Prop) (Q' : Pacemaker → Prop) :
    Ensures (addDraft H d) t Q Q' ↔ Q () { t with chain := t.chain.addDraft H d } := Iff.rfl

section Accepting

variable {msg : PMProposalMessage} {blk : Block} {parent bnew : DraftBlock} {t : Pacemaker}

/-- Between `t` and `t'` at most a draft was accepted. -/
structure Drafted (E : Env) (s : Pacemaker) (i : Input) (t t' : Pacemaker) : Prop where
  steps : CoreSteps E s i t.core t'.core
  state_eq : ∃ proposals, t' = { t with chain := { t.chain with proposals } }

/-- **How a proposal that passed every check ends**: its draft is kept, and
it may be voted for. -/
theorem ensures_acceptProposal {Q : Unit → Pacemaker → Prop} {Q' : Pacemaker → Prop}
    (haccepted : Accepted E s i msg blk parent bnew) (hvalid : qcID E.H blk.qc ∈ t.validQCs)
    (hunchanged : Unchanged s t) (hdone : ∀ t', Drafted E s i t t' → Q () t')
    (hvote : ∀ t', Drafted E s i t t' → Votable E s i msg blk parent bnew t' →
      Ensures (voteFor E msg bnew) t' Q Q') :
    Ensures (acceptProposal E msg bnew) t Q Q' := by
  obtain ⟨⟨n, hchain⟩, -, hvoting⟩ := hunchanged
  have hblk := haccepted.proposedBlock_eq
  have hvotable : bnew.height ≥ t.lastVotingHeight → s.lastVotingHeight ≤ blk.number := by
    obtain ⟨ref, hbnew⟩ := haccepted.bnew_eq
    rw [hbnew, hvoting]
    exact fun h => h
  have hkv : t.chain.kv = s.chain.kv := by rw [hchain]
  have hproposals : t.chain.proposals = s.chain.proposals := by rw [hchain]
  unfold acceptProposal
  simp only [ensures_bind, ensures_get]
  split
  · -- the block is new, and becomes a draft
    rename_i hnew
    have hfresh : t.chain.proposals (blk.id E.H) = none := by
      rw [hblk] at hnew
      simpa [Chain.hasDraft] using hnew
    have hadd : Drafted E s i t { t with chain := t.chain.addDraft E.H bnew } :=
      ⟨.single (.accept t.core msg blk parent bnew haccepted hfresh hvalid), _, rfl⟩
    simp only [ensures_bind, ensures_addDraft, ensures_get]
    split
    · rename_i hheight
      obtain ⟨hheight, hextended⟩ := Bool.and_eq_true_iff.mp hheight
      refine hvote _ hadd ⟨haccepted, hvalid, extends_of_extendedFromLastCommitted hextended, hkv,
        .inr ⟨hproposals ▸ hfresh, ?_⟩, hvotable (of_decide_eq_true hheight)⟩
      show Function.update t.chain.proposals (bnew.proposedBlock.id E.H) (some bnew) = _
      rw [hblk, hproposals]
    · exact hdone _ hadd
  · have hkept : Drafted E s i t t := ⟨.refl, t.chain.proposals, rfl⟩
    simp only [ensures_bind, ensures_get]
    split
    · rename_i hheight
      obtain ⟨hheight, hextended⟩ := Bool.and_eq_true_iff.mp hheight
      exact hvote _ hkept ⟨haccepted, hvalid, extends_of_extendedFromLastCommitted hextended, hkv,
        .inl hproposals, hvotable (of_decide_eq_true hheight)⟩
    · exact hdone _ hkept

theorem acceptProposal_spec (haccepted : Accepted E s i msg blk parent bnew)
    (hvalid : qcID E.H blk.qc ∈ t.validQCs) (hunchanged : Unchanged s t) :
    Follows E s i (acceptProposal E msg bnew) t := by
  refine ensures_acceptProposal haccepted hvalid hunchanged (fun t' h => h.steps)
    fun t' h hvotable => Follows.andThen h.steps (voteFor_spec hvotable ?_)
  obtain ⟨proposals, rfl⟩ := h.state_eq
  exact hunchanged.round_eq

end Accepting

theorem parentMissing_spec (mi : IncomingMsg) (blk : Block) (t : Pacemaker)
    (hhandles : s.Handles i mi.msg) : Follows E s i (parentMissing E mi blk) t := by
  have hback : ∀ t' : Pacemaker, CoreSteps E s i t.core t'.core → CoreSteps E s i t.core
      { t' with delayed := t'.delayed ++ [{ mi with processCount := mi.processCount + 1 }] }.core :=
    fun t' h => h.tail (.putBack t'.core _ hhandles)
  unfold Follows parentMissing
  simp only [ensures_bind, ensures_get]
  split
  · split
    · simp only [ensures_bind, ensures_record]
      refine (broadcast_spec _ _).imp (fun _ t' h => ?_) (fun t' h => ?_)
      · obtain ⟨rfl, -⟩ := h
        exact hback _ (.tail (.single (.record t.core _ rfl)) (.record _ _ rfl))
      · obtain rfl := h
        exact .single (.record t.core _ rfl)
    · exact hback t .refl
  · exact .refl

/-- **What the checks leave behind.** A draft they return is of an accepted
proposal, whose certificate is known to be valid. -/
structure ProposalChecked (E : Env) (s : Pacemaker) (i : Input) (msg : PMProposalMessage)
    (r : Option DraftBlock) (t t' : Pacemaker) : Prop where
  steps : CoreSteps E s i t.core t'.core
  passed : ∀ bnew, r = some bnew → Unchanged s t' ∧ t'.lastCommitted = t.lastCommitted
    ∧ ∃ blk parent, Accepted E s i msg blk parent bnew ∧ qcID E.H blk.qc ∈ t'.validQCs

theorem ProposalChecked.none {msg : PMProposalMessage} {t t' : Pacemaker}
    (h : CoreSteps E s i t.core t'.core) : ProposalChecked E s i msg none t t' :=
  ⟨h, fun _ h => by cases h⟩

theorem passChecks_spec (msg : PMProposalMessage) (blk : Block) (parent : DraftBlock)
    (t : Pacemaker) (hhandles : s.Handles i (.proposal msg))
    (hdecoded : msg.decodedBlock = some blk)
    (hparent : s.core.IsDraft blk.parentID parent) (hunchanged : Unchanged s t) :
    Ensures (passChecks E msg blk parent) t (fun r => ProposalChecked E s i msg r t)
      (fun t' => CoreSteps E s i t.core t'.core) := by
  obtain ⟨⟨n, hchain⟩, hround, hvoting⟩ := hunchanged
  unfold passChecks
  rw [ensures_bind]
  refine (validateQC_spec parent.proposedBlock blk.qc t).imp (fun valid t₁ h => ?_)
    (fun t' h => h ▸ .refl)
  obtain ⟨hcases, hvalid⟩ := h
  have hcached : CoreSteps E s i t.core t₁.core := by
    rcases hcases with rfl | ⟨hverify, rfl⟩
    · exact .refl
    · exact .single (.cacheQC t.core parent.proposedBlock blk.qc hverify
        (.inl ⟨msg, blk, hhandles, hdecoded, rfl⟩))
  obtain ⟨hchain₁, hround₁, hvoting₁, hlast₁⟩ : t₁.chain = { s.chain with nextRef := n }
      ∧ t₁.currentRound = s.currentRound ∧ t₁.lastVotingHeight = s.lastVotingHeight
      ∧ t₁.lastCommitted = t.lastCommitted := by
    rcases hcases with rfl | ⟨-, rfl⟩ <;> exact ⟨hchain, hround, hvoting, rfl⟩
  split
  · exact .none hcached
  rename_i hvalid'
  have hmem : qcID E.H blk.qc ∈ t₁.validQCs := hvalid (by simpa using hvalid')
  simp only [ensures_bind, ensures_get, ensures_ofExcept]
  refine ⟨fun allowed _ => ?_, fun _ _ => hcached⟩
  split
  · exact .none hcached
  simp only [ensures_bind, ensures_set]
  refine (validateProposal_spec _ parent _).imp (fun r t₂ h => ?_) (fun t₂ h => ?_)
  · obtain ⟨hcases₂, hr⟩ := h
    have hsteps : CoreSteps E s i t.core t₂.core := by
      rcases hcases₂ with rfl | ⟨call, rfl⟩
      · exact hcached
      · exact hcached.tail (.record _ _ rfl)
    split
    · exact .none hsteps
    rename_i bnew
    obtain ⟨hbnew, parentBlock, info, hpb, hinfo⟩ := hr bnew rfl
    have haccepted : Accepted E s i msg blk parent bnew := by
      refine ⟨hhandles, hdecoded, hparent, ⟨parentBlock, info, ?_, ?_⟩, ⟨_, hbnew⟩⟩
      · rw [← hpb, hchain₁]
        exact (Chain.parentBlock_nextRef s.chain _ blk).symm
      · rw [← hinfo, hchain₁]
        rfl
    refine ⟨hsteps, fun b hb => ?_⟩
    obtain rfl := Option.some.inj hb
    rcases hcases₂ with rfl | ⟨call, rfl⟩ <;>
      exact ⟨⟨⟨t₁.chain.nextRef + 1, by simp [hchain₁]⟩, hround₁, hvoting₁⟩, hlast₁, blk, parent,
        haccepted, hmem⟩
  · rcases h with rfl | ⟨call, rfl⟩
    · exact hcached
    · exact hcached.tail (.record _ _ rfl)

theorem passProposal_spec (mi : IncomingMsg) (msg : PMProposalMessage) (t : Pacemaker)
    (hmi : mi.msg = .proposal msg) (hhandles : s.Handles i mi.msg) (hunchanged : Unchanged s t) :
    Ensures (passProposal E mi msg) t (fun r => ProposalChecked E s i msg r t)
      (fun t' => CoreSteps E s i t.core t'.core) := by
  obtain ⟨⟨n, hchain⟩, hround, hvoting⟩ := hunchanged
  unfold passProposal
  simp only [ensures_bind, ensures_ofExcept, ensures_get]
  refine ⟨fun blk hdecoded => ?_, fun _ _ => .refl⟩
  split
  · exact .none .refl
  simp only [ensures_bind, ensures_getDraft]
  split
  · rw [ensures_bind]
    exact (parentMissing_spec mi blk t.bump hhandles).imp (fun _ _ h => .none h) (fun _ h => h)
  rename_i parent hparent
  have hdecoded' : msg.decodedBlock = some blk := eq_some_of_deref hdecoded
  have hparent' : s.core.IsDraft blk.parentID parent := by
    have h := isDraft_of_lookup hparent
    simpa only [Core.IsDraft, Pacemaker.core, hchain] using h
  refine (passChecks_spec msg blk parent t.bump (hmi ▸ hhandles) hdecoded' hparent'
    ⟨?_, hround, hvoting⟩).imp (fun _ _ h => ⟨h.steps, h.passed⟩) (fun _ h => h)
  exact ⟨t.chain.nextRef + 1, by rw [Pacemaker.bump, hchain]⟩

theorem onReceiveProposal_spec (mi : IncomingMsg) (msg : PMProposalMessage) (t : Pacemaker)
    (hmi : mi.msg = .proposal msg) (hhandles : s.Handles i mi.msg) (hunchanged : Unchanged s t) :
    Follows E s i (onReceiveProposal E mi msg) t := by
  unfold Follows
  rw [onReceiveProposal, ensures_bind]
  refine (passProposal_spec mi msg t hmi hhandles hunchanged).imp (fun r t' h => ?_) (fun _ h => h)
  cases r with
  | none => exact h.steps
  | some bnew =>
    obtain ⟨hunchanged', -, blk, parent, haccepted, hvalid⟩ := h.passed bnew rfl
    exact Follows.andThen h.steps
      (acceptProposal_spec haccepted hvalid hunchanged')

/-! ## Votes and timeouts -/

theorem addQCVote_spec (signerIndex round : UInt32) (blockID : Bytes32) (sig : Bytes)
    (t : Pacemaker) :
    Ensures (addQCVote E signerIndex round blockID sig) t
      (fun qc t' => ∃ es, t.epochState.addQCVote E.B signerIndex round blockID sig = .ok (qc, es)
        ∧ t' = { t with epochState := es })
      (fun t' => t' = t) := by
  unfold addQCVote
  simp only [ensures_bind, ensures_get, ensures_ofExcept, ensures_set, ensures_pure]
  exact ⟨fun result h => ⟨result.2, h, rfl⟩, fun _ _ => trivial⟩

theorem addTCVote_spec (signerIndex round : UInt32) (sig : Bytes) (hash : Bytes32)
    (t : Pacemaker) :
    Ensures (addTCVote E signerIndex round sig hash) t
      (fun tc t' => ∃ es, t.epochState.addTCVote E.B signerIndex round sig hash = .ok (tc, es)
        ∧ t' = { t with epochState := es })
      (fun t' => t' = t) := by
  unfold addTCVote
  simp only [ensures_bind, ensures_get, ensures_ofExcept, ensures_set, ensures_pure]
  exact ⟨fun result h => ⟨result.2, h, rfl⟩, fun _ _ => trivial⟩

/-- Entering a round that a certificate or a timeout leads to. -/
theorem enterRound_follows (round : UInt32) (rtype : RoundType) (t : Pacemaker)
    (hsource : RoundSource s i round) : Follows E s i (enterRound round rtype) t := by
  refine (enterRound_spec round rtype t).imp (fun _ t' h => ?_) (fun _ h => h.elim)
  rcases h with rfl | ⟨hlater, hmember, hcore⟩
  · exact .refl
  · rw [hcore]
    exact .single (.enterRound t.core round hsource hlater hmember)

theorem countVote_spec (msg : PMVoteMessage) (b : DraftBlock) (t : Pacemaker)
    (hhandles : s.Handles i (.vote msg)) : Follows E s i (countVote E msg b) t := by
  unfold Follows countVote
  split
  · exact .refl
  rw [ensures_bind]
  refine (addQCVote_spec _ _ _ _ t).imp (fun qc t₁ h => ?_) (fun _ h => h ▸ .refl)
  obtain ⟨es, hcount, rfl⟩ := h
  have hcounted : CoreSteps E s i t.core { t with epochState := es }.core :=
    .single (.countQCVote t.core (.vote msg) _ _ _ _ qc es hhandles
      (by simp [ConsensusMessage.signatures]) hcount)
  split
  · exact hcounted
  rw [ensures_bind]
  refine (updateQCHigh_spec _ _).imp (fun changed t₂ h => ?_) (fun _ h => h ▸ hcounted)
  obtain ⟨q, rfl⟩ := h
  refine Follows.andThen hcounted ?_
  split
  · exact (Follows.get _).bind fun _ _ => (Follows.scheduleOnBeat _ _ _).bind fun _ _ =>
      (enterRound_follows _ _ _ (.inl ⟨msg, hhandles, rfl⟩)).bind fun _ _ => .of_core rfl
  · exact .of_core rfl

theorem onReceiveVote_spec (mi : IncomingMsg) (msg : PMVoteMessage) (t : Pacemaker)
    (hmi : mi.msg = .vote msg) (hhandles : s.Handles i mi.msg) :
    Follows E s i (onReceiveVote E mi msg) t := by
  unfold Follows onReceiveVote
  simp only [ensures_bind, ensures_get]
  split
  · exact .refl
  split
  · exact .refl
  simp only [ensures_bind, ensures_getDraft]
  split
  · exact .single (.putBack t.core _ hhandles)
  · rename_i b _
    exact countVote_spec msg b t.bump (hmi ▸ hhandles)

theorem updateQCHigh_follows (q : DraftQC) (t : Pacemaker) : Follows E s i (updateQCHigh q) t :=
  .of_core ((updateQCHigh_spec q t).imp (fun _ _ ⟨_, h⟩ => h ▸ rfl) (fun _ h => h ▸ rfl))

theorem collectLastVote_spec (msg : PMTimeoutMessage) (t : Pacemaker)
    (hhandles : s.Handles i (.timeout msg)) (hes : t.epochState = s.epochState)
    (hdrafts : t.chain.proposals = s.chain.proposals) (hlast : t.lastCommitted = s.lastCommitted) :
    Follows E s i (collectLastVote E msg) t := by
  unfold Follows collectLastVote
  rw [ensures_bind]
  refine (addQCVote_spec _ _ _ _ t).imp (fun qc t₁ h => ?_) (fun _ h => h ▸ .refl)
  obtain ⟨es, hcount, rfl⟩ := h
  have hcounted : CoreSteps E s i t.core { t with epochState := es }.core :=
    .single (.countQCVote t.core (.timeout msg) _ _ _ _ qc es hhandles
      (by simp [ConsensusMessage.signatures]) hcount)
  split
  · exact hcounted
  rename_i newQC
  simp only [ensures_bind, ensures_getDraftByEscortQC]
  refine (updateQCHigh_spec _ _).imp (fun _ t₂ h => ?_) (fun _ h => h ▸ hcounted)
  obtain ⟨q, rfl⟩ := h
  refine (update_spec (E := E) (s := s) (i := i) newQC _ (.timeout msg hhandles ?_ ?_ ?_)).imp
    (fun _ _ h => hcounted.trans h.steps) (fun _ h => hcounted.trans h.steps)
  · rw [← hes]
    exact hcount
  · exact hdrafts
  · exact hlast

theorem adoptQCHigh_spec (msg : PMTimeoutMessage) (t : Pacemaker) :
    Follows E s i (adoptQCHigh msg) t := by
  unfold Follows adoptQCHigh
  simp only [ensures_bind, ensures_ofExcept, ensures_getDraftByEscortQC]
  refine ⟨fun qc _ => ?_, fun _ _ => .refl⟩
  exact updateQCHigh_follows _ t.bump

theorem onReceiveTimeout_spec (msg : PMTimeoutMessage) (t : Pacemaker)
    (hhandles : s.Handles i (.timeout msg)) (hes : t.epochState = s.epochState)
    (hdrafts : t.chain.proposals = s.chain.proposals) (hlast : t.lastCommitted = s.lastCommitted) :
    Follows E s i (onReceiveTimeout E msg) t := by
  unfold onReceiveTimeout
  refine (ensures_bind _ _ _ _ _).mpr ?_
  rw [ensures_get]
  split
  · exact .refl
  refine (collectLastVote_spec msg t hhandles hes hdrafts hlast).bind fun _ t₁ => ?_
  refine (adoptQCHigh_spec msg t₁).bind fun _ t₂ => ?_
  unfold Follows
  rw [ensures_bind]
  refine (addTCVote_spec _ _ _ _ t₂).imp (fun tc t₃ h => ?_) (fun _ h => h ▸ .refl)
  obtain ⟨es, hcount, rfl⟩ := h
  have hcounted : CoreSteps E s i t₂.core { t₂ with epochState := es }.core :=
    .single (.countTCVote t₂.core _ _ _ _ tc es hcount)
  split
  · exact hcounted
  · exact hcounted

theorem broadcast_follows (m : ConsensusMessage) (t : Pacemaker)
    (hquiet : (Event.broadcast m).isQuiet = true) : Follows E s i (broadcast m) t := by
  refine (broadcast_spec m t).imp (fun _ t' h => ?_) (fun _ h => h ▸ .refl)
  obtain ⟨rfl, -⟩ := h
  exact .single (.record t.core _ hquiet)

/-- **A loop follows the actions as soon as its body does.** -/
theorem Follows.forM {γ : Type} {body : γ → PM PUnit} (l : List γ)
    (hbody : ∀ c t, Follows E s i (body c) t) (t : Pacemaker) : Follows E s i (l.forM body) t := by
  induction l generalizing t with
  | nil => exact .of_core rfl
  | cons c l ih => exact (hbody c t).bind fun _ t' => ih t'

theorem onReceiveQuery_spec (msg : PMQueryMessage) (t : Pacemaker) :
    Follows E s i (onReceiveQuery E msg) t := by
  unfold onReceiveQuery
  refine (Follows.get t).bind fun p t => Follows.forM _ (fun proposal t => ?_) t
  unfold Follows
  simp only [ensures_bind, ensures_ofExcept]
  exact ⟨fun m _ => broadcast_follows (.proposal m) t rfl, fun _ _ => .refl⟩

/-! ## Proposing -/

theorem prepareProposal_spec (parent : DraftBlock) (t : Pacemaker) :
    Ensures (prepareProposal E parent) t
      (fun _ t' => CoreSteps E s i t.core t'.core ∧ t'.qcHigh = t.qcHigh)
      (fun t' => CoreSteps E s i t.core t'.core) := by
  unfold prepareProposal
  simp only [ensures_bind, ensures_get, ensures_set, ensures_ofExcept, ensures_record]
  refine ⟨fun vset _ => ⟨fun addr _ => ?_, fun _ _ => .refl⟩, fun _ _ => .refl⟩
  split
  · exact ⟨.single (.record t.core _ rfl), rfl⟩
  · exact ⟨.single (.record t.core _ rfl), rfl⟩

theorem createLeaf_spec (parent : DraftBlock) (justify : DraftQC) (round : UInt32)
    (t : Pacemaker) :
    Ensures (createLeaf E parent justify round) t
      (fun r t' => CoreSteps E s i t.core t'.core ∧ ∀ d, r = .ok d →
        ∃ p timestamp txs, d = buildBlock E p timestamp parent justify round txs)
      (fun t' => CoreSteps E s i t.core t'.core) := by
  unfold createLeaf
  rw [ensures_bind]
  refine (prepareProposal_spec parent t).imp (fun r t₁ h => ?_) (fun _ h => h)
  obtain ⟨hsteps, -⟩ := h
  split
  · exact ⟨hsteps, fun _ h => by cases h⟩
  simp only [ensures_bind, ensures_get]
  split
  · exact ⟨hsteps, fun _ h => by cases h⟩
  split
  · exact ⟨hsteps, fun _ h => by cases h⟩
  simp only [ensures_bind, ensures_set, ensures_pure]
  exact ⟨hsteps, fun d hd => ⟨_, _, _, (Except.ok.inj hd).symm⟩⟩

theorem onPropose_spec (qc : DraftQC) (round : UInt32) (t : Pacemaker) :
    Ensures (onPropose E qc round) t
      (fun r t' => CoreSteps E s i t.core t'.core ∧ ∀ d, r = some d →
        ∃ parent, t.chain.getDraftByEscortQC qc.qc = some parent ∧ ∃ p timestamp txs msg,
          d = { buildBlock E p timestamp parent qc round txs with msg := msg })
      (fun t' => CoreSteps E s i t.core t'.core) := by
  unfold onPropose
  simp only [ensures_bind, ensures_getDraftByEscortQC, ensures_ofExcept]
  refine ⟨fun parent hparent => ?_, fun _ _ => .refl⟩
  have hlookup := eq_some_of_deref hparent
  refine (createLeaf_spec parent qc round t.bump).imp (fun r t₁ h => ?_) (fun _ h => h)
  obtain ⟨hsteps, hr⟩ := h
  split
  · exact ⟨hsteps, fun _ h => by cases h⟩
  rename_i bnew
  obtain ⟨p, timestamp, txs, hbnew⟩ := hr bnew rfl
  split
  · exact ⟨hsteps, fun _ h => by cases h⟩
  simp only [ensures_bind, ensures_get, ensures_record, ensures_ofExcept, ensures_modify,
    ensures_pure]
  have hsigned := hsteps.tail (.record t₁.core
    (.signed ((ConsensusMessage.proposal (buildProposalMessage E t₁ bnew)).getMsgHash E.H)) rfl)
  refine ⟨fun _ _ => ⟨hsigned, fun d hd => ?_⟩, fun _ _ => hsigned⟩
  exact ⟨parent, hlookup, p, timestamp, txs, _, by rw [← Option.some.inj hd, hbnew]⟩

theorem adoptProposal_spec (bnew : DraftBlock) (msg : PMProposalMessage) (t : Pacemaker) :
    Ensures (adoptProposal E bnew msg) t
      (fun _ t' => t'.core = { t.core.addDraft E.H bnew with trace := t.trace ++ [.proposed bnew] })
      (fun _ => False) := by
  unfold adoptProposal scheduleBroadcast
  simp only [ensures_bind, ensures_addDraft, ensures_record, ensures_modify, ensures_get]
  split
  · rfl
  · rfl

theorem onBeat_spec (epoch : UInt64) (round : UInt32) (t : Pacemaker) (hbeat : i = .loop .beat)
    (hcore : t.core = s.core) (hqc : t.qcHigh = s.qcHigh) :
    Follows E s i (onBeat E epoch round) t := by
  unfold Follows onBeat
  simp only [ensures_bind, ensures_get]
  split
  · exact .refl
  split
  · exact .refl
  split
  · exact .refl
  simp only [ensures_bind, ensures_set, ensures_getDraftByEscortQC]
  split
  · exact .refl
  rw [ensures_bind]
  refine (onPropose_spec t.qcHigh round _).imp (fun r t₁ h => ?_) (fun _ h => h)
  obtain ⟨hsteps, hr⟩ := h
  split
  · exact hsteps
  rename_i bnew
  obtain ⟨parent, hparent, p, timestamp, txs, msg, hbnew⟩ := hr bnew rfl
  simp only [ensures_bind, ensures_ofExcept]
  refine ⟨fun m _ => ?_, fun _ _ => hsteps⟩
  refine (adoptProposal_spec bnew m t₁).imp (fun _ t₂ h => ?_) (fun _ h => h.elim)
  rw [h]
  refine hsteps.tail (.propose t₁.core parent bnew hbeat ?_ ⟨p, timestamp, round, txs, msg, ?_⟩)
  · rw [← hqc, ← hcore]
    have hlookup := isEscortDraft_of_lookup hparent
    exact hlookup
  · rw [hbnew, hqc]

theorem onBroadcastProposal_spec (t : Pacemaker) : Follows E s i onBroadcastProposal t := by
  unfold Follows onBroadcastProposal
  simp only [ensures_bind, ensures_get]
  split
  · exact .refl
  split
  · exact .refl
  · exact broadcast_follows _ t rfl

/-! ## Timeouts and regulation -/

theorem onRoundTimeout_spec (ti : PMRoundTimeoutInfo) (t : Pacemaker)
    (hsource : RoundSource s i (ti.round + 1)) : Follows E s i (onRoundTimeout E ti) t := by
  have hrecord : ∀ hash t, Follows E s i (record (.signed hash)) t :=
    fun hash t => .single (.record t.core (.signed hash) rfl)
  exact (enterRound_follows _ _ t hsource).bind fun _ _ => (Follows.get _).bind fun _ _ =>
    (hrecord _ _).bind fun _ _ => (hrecord _ _).bind fun _ t' => broadcast_follows _ t' rfl

theorem updateEpochState_spec (leaf : Block) (t : Pacemaker) :
    Ensures (updateEpochState E leaf) t
      (fun _ t' => ∃ es, t' = { t with epochState := es }
        ∧ (es = t.epochState ∧ newEpochState E t.chain leaf t.myPubKey = .ok none
          ∨ newEpochState E t.chain leaf t.myPubKey = .ok (some es)))
      (fun t' => t' = t) := by
  unfold updateEpochState
  simp only [ensures_bind, ensures_get, ensures_ofExcept]
  refine ⟨fun r hr => ?_, fun _ _ => trivial⟩
  cases r with
  | none => exact ⟨t.epochState, rfl, .inl ⟨rfl, hr⟩⟩
  | some es => exact ⟨es, rfl, .inr hr⟩

/-- **What `Regulate` leaves behind.** -/
theorem regulate_core (t : Pacemaker) :
    Ensures (regulate E) t
      (fun _ t' => ∃ bestNode es, t.chain.getDraftByEscortQC t.regulateQC = some bestNode
        ∧ (es = t.epochState
          ∨ newEpochState E t.chain bestNode.proposedBlock t.myPubKey = .ok (some es))
        ∧ t'.core = { t.core.addDraft E.H bestNode with
            epochState := es
            lastCommitted := t.chain.bestBlock
            currentRound := if es.inCommittee then t.regulateRound else 0 })
      (fun t' => t'.core = t.core) := by
  unfold regulate
  simp only [ensures_bind, ensures_get, ensures_getDraftByEscortQC, ensures_ofExcept]
  refine ⟨fun bestNode hbest => ?_, fun _ _ => rfl⟩
  have hlookup := eq_some_of_deref hbest
  refine (updateEpochState_spec _ t.bump).imp (fun _ t₁ h => ?_) (fun _ h => h ▸ rfl)
  obtain ⟨es, rfl, hes⟩ := h
  have hes := hes.imp_left And.left
  unfold resetPacemaker
  simp only [ensures_modify]
  by_cases hmember : es.inCommittee = true
  · refine (enterRound_core _ _ _ ?_).imp (fun _ t₂ h => ?_) (fun _ h => h.elim)
    · exact hmember
    · refine ⟨bestNode, es, hlookup, hes, ?_⟩
      -- the round was set to zero before, so no round is lower
      have hround : ¬ (t.regulateRound > 0 && t.regulateRound < 0) = true := by simp
      have hcore : t₂.core = _ := h
      rw [if_neg hround] at hcore
      rw [if_pos hmember]
      exact hcore
  · refine (enterRound_spec _ _ _).imp (fun _ t₂ h => ?_) (fun _ h => h.elim)
    rcases h with rfl | ⟨-, hmember', -⟩
    · refine ⟨bestNode, es, hlookup, hes, ?_⟩
      rw [if_neg hmember]
      rfl
    · exact absurd hmember' hmember

theorem regulate_spec (t : Pacemaker) (hcmd : i = .loop .cmd)
    (hcore : t.core = s.core) (hchain : t.chain = s.chain) (hqc : t.qcHigh = s.qcHigh)
    (hkey : t.myPubKey = s.myPubKey) : Follows E s i (regulate E) t := by
  have hregulateQC : t.regulateQC = s.regulateQC := by
    unfold Pacemaker.regulateQC
    rw [hqc, hchain]
  have hregulateRound : t.regulateRound = s.regulateRound := by
    unfold Pacemaker.regulateRound
    rw [hregulateQC, hchain]
  refine (regulate_core t).imp (fun _ t' h => ?_) (fun _ h => h ▸ .refl)
  obtain ⟨bestNode, es, hlookup, hes, hcore'⟩ := h
  rw [hcore', hregulateRound]
  refine .single (.regulate t.core bestNode es hcmd ?_ (congrArg Core.currentRound hcore) ?_)
  · rw [← hregulateQC, ← hcore]
    exact isEscortDraft_of_lookup hlookup
  · rw [← hchain, ← hkey]
    exact hes

/-! ## Incoming messages -/

theorem enqueue_spec (mi : IncomingMsg) (t : Pacemaker) (hchecked : mi ∈ s.admitting)
    (hcurrent : mi.msg.getEpoch = s.epochState.epoch) : Follows E s i (enqueue mi) t := by
  unfold Follows enqueue
  simp only [ensures_bind, ensures_get]
  split
  · exact .refl
  simp only [ensures_bind, ensures_set, ensures_ofExcept, ensures_modify]
  exact ⟨fun _ _ => .single (.enqueue t.core mi hchecked hcurrent), fun _ _ => .refl⟩

theorem admitIncoming_spec (mi : IncomingMsg) (t : Pacemaker) (hchecked : mi ∈ s.admitting)
    (hes : t.epochState = s.epochState) : Follows E s i (admitIncoming mi) t := by
  unfold Follows admitIncoming
  simp only [ensures_bind, ensures_get]
  split
  · rename_i hepoch
    exact enqueue_spec mi t hchecked (hes ▸ hepoch)
  · exact .single (.postpone t.core mi hchecked)

theorem checkDecodes_spec (mi : IncomingMsg) (t : Pacemaker) (hreceives : s.Receives i mi)
    (hchecked : Checked E s.epochState mi.msg) : Follows E s i (checkDecodes mi) t := by
  unfold Follows checkDecodes
  split
  · exact .refl
  · exact .single (.check t.core mi hreceives hchecked)

theorem checkSigner_spec (mi : IncomingMsg) (t : Pacemaker) (hreceives : s.Receives i mi)
    (hes : t.epochState = s.epochState) (hepoch : mi.msg.getEpoch = t.epochState.epoch) :
    Follows E s i (checkSigner E mi) t := by
  unfold Follows checkSigner
  simp only [ensures_bind, ensures_get, ensures_ofExcept]
  refine ⟨fun signerIndex hindex => ?_, fun _ _ => .refl⟩
  split
  · exact .refl
  rename_i hlt
  simp only [ensures_bind, ensures_ofExcept]
  refine ⟨fun signer hsigner => ?_, fun _ _ => .refl⟩
  split
  · simp only [ensures_ofExcept]
    exact ⟨fun _ _ => .refl, fun _ _ => .refl⟩
  rename_i hverify
  refine checkDecodes_spec mi t hreceives (hes ▸ ⟨hepoch ▸ UInt64.le_refl _, fun _ =>
    ⟨signerIndex, signer, hindex, ?_, ?_, ?_⟩⟩)
  · simpa using hlt
  · exact eq_some_of_deref hsigner
  · simpa using hverify

theorem addIncoming_spec (mi : IncomingMsg) (t : Pacemaker) (hreceives : s.Receives i mi)
    (hes : t.epochState = s.epochState) :
    Follows E s i (addIncoming E mi) t := by
  unfold Follows addIncoming
  simp only [ensures_bind, ensures_get]
  split
  · simp only [ensures_ofExcept]
    exact ⟨fun _ _ => .refl, fun _ _ => .refl⟩
  split
  · rename_i hepoch
    exact checkSigner_spec mi t hreceives hes hepoch
  · rename_i hcurrent hepoch
    exact checkDecodes_spec mi t hreceives
      (hes ▸ ⟨UInt64.not_lt.mp hcurrent, fun h => absurd h hepoch⟩)

/-! ## Blocks from peers -/

theorem commitSynced_spec (blk : Block) (qc : QuorumCert) (t : Pacemaker)
    (hsync : i = .sync blk qc) : Follows E s i (commitSynced E blk qc) t := by
  unfold Follows commitSynced
  simp only [ensures_bind, ensures_get]
  split
  · exact .refl
  · exact .refl
  · exact .refl
  · exact .refl
  · exact (commitBlock_spec blk (some qc) t (fun _ _ => .inr ⟨qc, hsync⟩)).imp
      (fun _ _ h => h.steps) (fun _ h => h.steps)

theorem processBlock_spec (blk : Block) (qc : QuorumCert) (t : Pacemaker)
    (hsync : i = .sync blk qc) : Follows E s i (processBlock E blk qc) t := by
  unfold Follows processBlock
  simp only [ensures_bind, ensures_get]
  split
  · exact .refl
  split
  · rw [ensures_bind]
    refine (validateQC_spec blk qc t).imp (fun valid t₁ h => ?_) (fun _ h => h ▸ .refl)
    obtain ⟨hcases, -⟩ := h
    have hcached : CoreSteps E s i t.core t₁.core := by
      rcases hcases with rfl | ⟨hverify, rfl⟩
      · exact .refl
      · exact .single (.cacheQC t.core blk qc hverify (.inr ⟨blk, hsync⟩))
    split
    · exact Follows.andThen hcached (commitSynced_spec blk qc t₁ hsync)
    · exact hcached
  · exact commitSynced_spec blk qc t hsync

/-! ## A step -/

theorem handleMessage_spec (mi : IncomingMsg) (rest : List IncomingMsg) (cmdCh : Bool)
    (hhandles : s.Handles i mi.msg) :
    Follows E s i (handleMessage E mi) { s with cmdCh, inQueue := rest } := by
  unfold handleMessage
  split
  · rename_i msg hmsg
    exact onReceiveProposal_spec mi msg _ hmsg hhandles ⟨⟨_, rfl⟩, rfl, rfl⟩
  · rename_i msg hmsg
    exact onReceiveVote_spec mi msg _ hmsg hhandles
  · rename_i msg hmsg
    exact onReceiveTimeout_spec msg _ (hmsg ▸ hhandles) rfl rfl rfl
  · exact onReceiveQuery_spec _ _

/-- A branch of the main loop, from a state that differs from the start of
the step at most in a waiting `Regulate`. -/
theorem selectBranch_spec (sel : Select) (cmdCh : Bool) (hinput : i = .loop sel) :
    Follows E s i (selectBranch E sel) { s with cmdCh } := by
  unfold Follows
  cases sel with
  | cmd =>
    simp only [selectBranch, ensures_bind, ensures_get]
    split
    · simp only [ensures_bind, ensures_modify]
      exact regulate_spec _ hinput rfl rfl rfl rfl
    · exact .refl
  | roundTimeout =>
    simp only [selectBranch, ensures_bind, ensures_get]
    split
    · exact .refl
    rename_i ti rest hhead
    simp only [ensures_bind, ensures_set]
    split
    · exact .refl
    · exact onRoundTimeout_spec ti _ (.inr ⟨ti, rest, hinput, hhead, rfl⟩)
  | newTx => exact .refl
  | broadcast =>
    simp only [selectBranch, ensures_bind, ensures_get]
    split
    · simp only [ensures_bind, ensures_set]
      exact onBroadcastProposal_spec _
    · exact .refl
  | beat =>
    simp only [selectBranch, ensures_bind, ensures_get]
    split
    · exact .refl
    · simp only [ensures_bind, ensures_set]
      exact onBeat_spec _ _ _ hinput rfl rfl
  | message =>
    simp only [selectBranch, ensures_bind, ensures_get]
    split
    · exact .refl
    rename_i mi rest hhead
    simp only [ensures_bind, ensures_set]
    have htaken : CoreSteps E s i s.core { s with cmdCh, inQueue := rest }.core :=
      .single (.dequeue s.core mi rest hhead)
    split
    · exact htaken
    split
    · exact htaken
    · exact Follows.andThen htaken
        (handleMessage_spec mi rest cmdCh ⟨hinput, mi, rest, hhead, rfl⟩)

theorem mainLoop_spec (sel : Select) (hinput : i = .loop sel) :
    Follows E s i (mainLoop E sel) s := by
  unfold Follows mainLoop loopHead
  simp only [ensures_bind, ensures_get]
  split
  · exact selectBranch_spec sel true hinput
  · exact selectBranch_spec sel s.cmdCh hinput

theorem handle_spec (i : Input) : Follows E s i (Pacemaker.handle E i) s := by
  unfold Follows
  cases i with
  | receive msg senderAddr => exact addIncoming_spec _ s (.inl ⟨senderAddr, rfl⟩) rfl
  | enter k =>
    simp only [Pacemaker.handle, ensures_bind, ensures_get]
    split
    · exact .refl
    rename_i mi hmi
    simp only [ensures_bind, ensures_set]
    have henter : CoreSteps E s (.enter k) s.core
        { s with admitting := s.admitting.eraseIdx k }.core := .single (.enter s.core k)
    exact Follows.andThen henter (admitIncoming_spec mi _ (List.mem_of_getElem? hmi) rfl)
  | retryFuture k =>
    simp only [Pacemaker.handle, ensures_bind, ensures_get]
    split
    · exact .refl
    rename_i mi hmi
    simp only [ensures_bind, ensures_set]
    have hretry : CoreSteps E s (.retryFuture k) s.core
        { s with future := s.future.eraseIdx k }.core := .single (.retry s.core k)
    exact Follows.andThen hretry (addIncoming_spec mi _ (.inr (List.mem_of_getElem? hmi)) rfl)
  | delayedAdd k =>
    simp only [Pacemaker.handle, ensures_bind, ensures_get]
    split
    · exact .refl
    · rename_i mi hmi
      exact .single (.redeliver s.core k mi hmi)
  | roundTimer =>
    simp only [Pacemaker.handle, ensures_modify]
    split <;> exact .refl
  | broadcastTimer =>
    simp only [Pacemaker.handle, ensures_modify]
    split <;> exact .refl
  | tick now => exact .refl
  | pool txs => exact .refl
  | loop sel => exact mainLoop_spec sel rfl
  | sync blk qc => exact (processBlock_spec blk qc s rfl).bind fun _ _ => .of_core rfl

/-- **A step of a node is a sequence of actions on its core**, whether it
returns or faults. -/
theorem Pacemaker.step_refines (E : Env) (s : Pacemaker) (i : Input) :
    CoreSteps E s i s.core (s.step E i).core := by
  unfold Pacemaker.step
  split
  · exact .refl
  have h := handle_spec (E := E) (s := s) i
  unfold Follows Ensures at h
  split <;> rename_i hhandle <;> rw [hhandle] at h <;> exact h

/-! ## Invariants -/

/-- No action takes anything out of the trace. -/
theorem CoreStep.trace_prefix {c c' : Core} (h : CoreStep E s i c c') : c.trace <+: c'.trace := by
  cases h <;> first | exact List.prefix_refl _ | exact List.prefix_append _ _

/-- **An invariant of the actions is an invariant of the step.** An action
may be taken to lead to a trace that is part of the trace the step ends
with. -/
theorem Pacemaker.step_invariant {P : Core → Prop} (E : Env) (s : Pacemaker) (i : Input)
    (h₀ : P s.core)
    (hstep : ∀ c c', CoreStep E s i c c' → c'.trace <+: (s.step E i).trace → P c → P c') :
    P (s.step E i).core := by
  have hgeneral : ∀ c, CoreSteps E s i s.core c → c.trace <+: (s.step E i).trace → P c := by
    intro c hc
    induction hc with
    | refl => exact fun _ => h₀
    | tail _ hlast ih => exact fun hle => hstep _ _ hlast hle (ih (hlast.trace_prefix.trans hle))
  exact hgeneral _ (s.step_refines E i) (List.prefix_refl _)

/-- **An invariant of the actions holds in every state a run reaches.** -/
theorem Run.core_invariant {ok : Pacemaker → Input → Prop} {P : Core → Prop} {p₀ p : Pacemaker}
    (hrun : Run E ok p₀ p) (h₀ : P p₀.core)
    (hstep : ∀ q i, ok q i → P q.core → ∀ c c', CoreStep E q i c c' →
      c'.trace <+: (q.step E i).trace → P c → P c') : P p.core :=
  Machine.Run.invariant (P := fun q => P q.core) hrun h₀ fun q i hok hq =>
    q.step_invariant E i hq (hstep q i hok hq)

/-- **What starting a node comes down to**: a `Regulate`, once the chain has
given a validator set registry, the draft of the best block and an epoch
state. -/
theorem startPacemaker_eq {chain : Chain} {app : App} {myPubKey : Bytes} {now : Time}
    {p : Pacemaker} (h : startPacemaker E chain app myPubKey now = .ok p) :
    ∃ registry bestNode es, newValidatorSetRegistry chain = .ok registry
      ∧ chain.getDraftByEscortQC chain.bestQC = some bestNode
      ∧ newEpochState E chain bestNode.proposedBlock myPubKey = .ok (some es)
      ∧ regulate E (newPacemaker chain app myPubKey es registry now) = .ok () p := by
  unfold startPacemaker at h
  cases hregistry : newValidatorSetRegistry chain with
  | error e => rw [hregistry] at h; exact nomatch h
  | ok registry =>
    cases hbest : chain.getDraftByEscortQC chain.bestQC with
    | none => rw [hregistry, hbest] at h; exact nomatch h
    | some bestNode =>
      cases hes : newEpochState E chain bestNode.proposedBlock myPubKey with
      | error e => simp [hregistry, hbest, hes, bind, Except.bind, deref] at h
      | ok r =>
        cases r with
        | none => simp [hregistry, hbest, hes, bind, Except.bind, deref] at h
        | some es =>
          simp only [hregistry, hbest, hes, bind, Except.bind, deref] at h
          split at h
          · rename_i hreg
            exact ⟨registry, bestNode, es, rfl, rfl, hes, Except.ok.inj h ▸ hreg⟩
          · exact nomatch h

/-- Before the first `Regulate` the highest certificate is that of the best
block. -/
theorem regulateQC_newPacemaker (chain : Chain) (app : App) (myPubKey : Bytes) (es : EpochState)
    (registry : ValidatorSetRegistry) (now : Time) :
    (newPacemaker chain app myPubKey es registry now).regulateQC = chain.bestQC := by
  unfold Pacemaker.regulateQC
  split <;> rfl

/-- **The core of a node that has started**: one draft, made up from the
best block, and nothing done yet. -/
theorem startPacemaker_core {chain : Chain} {app : App} {myPubKey : Bytes} {now : Time}
    {p : Pacemaker} (h : startPacemaker E chain app myPubKey now = .ok p) :
    ∃ bestNode es, chain.getDraftByEscortQC chain.bestQC = some bestNode
      ∧ newEpochState E chain bestNode.proposedBlock myPubKey = .ok (some es)
      ∧ ∃ round, p.core =
        { kv := chain.kv
          bestBlock := chain.bestBlock
          proposals := Function.update chain.proposals (bestNode.proposedBlock.id E.H)
            (some bestNode)
          committedRefs := chain.committedRefs
          epochState := es
          validQCs := []
          lastCommitted := chain.bestBlock
          currentRound := round
          inQueue := []
          delayed := []
          admitting := []
          future := []
          trace := [] } := by
  obtain ⟨registry, bestNode, es, -, hbest, hes, hreg⟩ := startPacemaker_eq h
  have hspec := regulate_core (E := E) (newPacemaker chain app myPubKey es registry now)
  unfold Ensures at hspec
  rw [hreg, regulateQC_newPacemaker] at hspec
  obtain ⟨bestNode', es', hlookup, hes', hcore⟩ := hspec
  obtain rfl : bestNode' = bestNode := Option.some.inj (hlookup.symm.trans hbest)
  obtain rfl : es' = es := by
    rcases hes' with rfl | hnew
    · rfl
    · exact Option.some.inj (Except.ok.inj (hnew.symm.trans hes))
  exact ⟨_, _, hbest, hes, _, hcore⟩

end LoragonBFT
