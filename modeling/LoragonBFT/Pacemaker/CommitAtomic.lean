import LoragonBFT.Pacemaker.CommitOutcome
import LoragonBFT.Testnet

/-!
# Is committing a block atomic?

`CommitBlock` reports an error in two kinds of situation. Before the
application was asked, or when it refused, nothing has happened. After the
application has executed the block there is no way back: a wrong number of
results, a block or a parent that the store does not like, a missing
certificate, a failed write and a fork are all reported as errors, with the
application one block ahead of the chain – and in the last three cases the
best block has been replaced in memory as well.

So the call is atomic exactly where nothing can go wrong once the application
has answered (`commitAtomic_iff`).
-/

namespace LoragonBFT

open EStateM

variable {E : Env}

/-! ## What the application has finalized -/

/-- The requests to finalize a block that the application answered, among
some calls made after others. -/
def answered (app : App) : List AbciCall → List AbciCall → List FinalizeBlockRequest
  | _, [] => []
  | before, .finalizeBlock req :: rest =>
    if (app.finalizeBlock before req).isSome then
      req :: answered app (before ++ [.finalizeBlock req]) rest
    else answered app (before ++ [.finalizeBlock req]) rest
  | before, call :: rest => answered app (before ++ [call]) rest

/-- The blocks the application has finalized for this node. -/
def Pacemaker.finalized (p : Pacemaker) : List FinalizeBlockRequest :=
  answered p.app [] (abciCalls p.trace)

theorem answered_append (app : App) (before calls rest : List AbciCall) :
    answered app before (calls ++ rest)
      = answered app before calls ++ answered app (before ++ calls) rest := by
  induction calls generalizing before with
  | nil => simp [answered]
  | cons call calls ih =>
    have hbefore : before ++ call :: calls = (before ++ [call]) ++ calls := by simp
    rw [hbefore]
    cases call with
    | finalizeBlock req =>
      rw [List.cons_append, answered, answered]
      split
      · rw [ih, List.cons_append]
      · exact ih _
    | prepareProposal req => exact ih _
    | processProposal req => exact ih _
    | commit => exact ih _

/-- One more request: it counts if the application answers it. -/
theorem finalized_record (p : Pacemaker) (req : FinalizeBlockRequest) :
    ({ p with trace := p.trace ++ [.abci (.finalizeBlock req)] } : Pacemaker).finalized
      = p.finalized ++ (if (p.app.finalizeBlock (abciCalls p.trace) req).isSome then [req]
        else []) := by
  have hcalls : abciCalls (p.trace ++ [.abci (.finalizeBlock req)])
      = abciCalls p.trace ++ [.finalizeBlock req] := List.filterMap_append
  show answered p.app [] (abciCalls (p.trace ++ [.abci (.finalizeBlock req)])) = _
  rw [hcalls, answered_append, List.nil_append]
  rfl

/-! ## Atomicity -/

/-- What `CommitBlock` must not touch when it fails. -/
structure CommitKept (s s' : Pacemaker) : Prop where
  finalized : s'.finalized = s.finalized
  bestBlock : s'.chain.bestBlock = s.chain.bestBlock
  bestQC : s'.chain.bestQC = s.chain.bestQC
  lastCommitted : s'.lastCommitted = s.lastCommitted
  addedValidators : s'.addedValidators = s.addedValidators
  nextEpochState : s'.nextEpochState = s.nextEpochState
  validatorSetRegistry : s'.validatorSetRegistry = s.validatorSetRegistry

/-- **`CommitBlock` is atomic**: an error leaves everything as it was, and
otherwise the application and the chain are at the same height. -/
structure CommitAtomic (E : Env) (s : Pacemaker) (blk : Block) (escortQC : Option QuorumCert) :
    Prop where
  failed : ∀ e s', commitBlock E blk escortQC s = .ok (.error e) s' → CommitKept s s'
  committed : ∀ s', commitBlock E blk escortQC s = .ok (.ok ()) s' →
    s'.finalized.getLast?.map (fun req => req.height) = some (s'.chain.bestBlock.number.toNat : ℤ)

/-- The block goes on top of the best one without an error: it is not in the
store and its parent is, the best block is on its branch, there is a
certificate and the store takes the write. A store whose links cannot be
followed to an end is no error. -/
def Chain.AddsOnTop (H : Hashes) (c : Chain) (blk : Block) (escortQC : Option QuorumCert) : Prop :=
  c.blockExists H blk = false ∧ (c.getBlockHeader blk.parentID).isSome = true
    ∧ match c.buildFork H blk.header c.bestBlock.header with
      | .error _ => True
      | .ok (.error _) => False
      | .ok (.ok fork) => fork.branch = [] ∧ escortQC.isSome = true
        ∧ c.writeOK c.batchWrites = true

/-- Nothing can go wrong after this answer of the application: there is a
result for each transaction, and the block goes on top of the best one. An
update with a key that does not parse ends the process instead. -/
def Pacemaker.Accepts (E : Env) (s : Pacemaker) (blk : Block) (escortQC : Option QuorumCert)
    (response : FinalizeBlockResponse) : Prop :=
  blk.txs.length = response.txResults
    ∧ ((∃ fault, calcNewValidatorSet E.B
        (s.chain.getValidatorsByHash blk.header.validatorsHash) response.validatorUpdates
          = .error fault)
      ∨ s.chain.AddsOnTop E.H (blk.withAppHash response.appHash) escortQC)

/-! ## What each part does -/

/-- **`AddBlock` reports no branch exactly on top of the best block.** -/
theorem Chain.addBlock_onTop {H : Hashes} {c : Chain} {blk : Block} (escortQC : Option QuorumCert)
    (hhigher : c.bestBlock.number < blk.number) :
    match c.addBlock H blk escortQC with
    | .error _ => c.AddsOnTop H blk escortQC
    | .ok (result, c') =>
      (c.AddsOnTop H blk escortQC ↔ ∃ fork, result = .ok fork ∧ fork.branch = [])
        ∧ ∀ fork, result = .ok fork → c'.bestBlock = blk := by
  unfold AddsOnTop addBlock
  cases hexists : c.blockExists H blk with
  | true => simp
  | false =>
    cases hparent : c.getBlockHeader blk.parentID with
    | none => simp
    | some parent =>
      simp only [Chain.isTrunk_of_lt H hhigher, if_true]
      cases hfork : c.buildFork H blk.header c.bestBlock.header with
      | error fault => simp
      | ok result =>
        cases result with
        | error e => simp
        | ok fork =>
          cases escortQC with
          | none => simp
          | some qc =>
            cases hwrites : c.writeOK c.batchWrites <;> simp [Chain.writeBatch, hwrites]

/-- `AddBlock` and what follows. -/
theorem addCommitted_onTop (blk : Block) (escortQC : Option QuorumCert) (t : Pacemaker)
    (hhigher : t.chain.bestBlock.number < blk.number) :
    Ensures (addCommitted E blk escortQC) t
      (fun r t' => t'.finalized = t.finalized
        ∧ (r = .ok () ↔ t.chain.AddsOnTop E.H blk escortQC)
        ∧ (r = .ok () → t'.chain.bestBlock = blk))
      (fun _ => t.chain.AddsOnTop E.H blk escortQC) := by
  have hadd := Chain.addBlock_onTop (H := E.H) escortQC hhigher
  refine (addCommitted_adds blk escortQC t).imp (fun r t' h => ?_) (fun _ h => ?_)
  · obtain ⟨result, h, hok, lastCommitted, cmdCh, ht'⟩ := h
    rw [h] at hadd
    obtain ⟨honTop, hbest⟩ := hadd
    refine ⟨?_, hok.trans honTop.symm, fun hr => ?_⟩
    · rw [ht']
      rfl
    · obtain ⟨fork, hfork, -⟩ := hok.mp hr
      exact hbest fork hfork
  · obtain ⟨-, fault, h⟩ := h
    rw [h] at hadd
    exact hadd

theorem afterFinalize_kept (blk : Block) (response : FinalizeBlockResponse) (t : Pacemaker) :
    Ensures (afterFinalize E blk response) t
      (fun r t' => t'.finalized = t.finalized ∧ t'.chain = t.chain
        ∧ ((∃ e, r = .error e) ∧ blk.txs.length ≠ response.txResults
          ∨ r = .ok (response.appHash, none) ∧ blk.txs.length = response.txResults
            ∧ ∀ fault, calcNewValidatorSet E.B
              (t.chain.getValidatorsByHash blk.header.validatorsHash) response.validatorUpdates
                ≠ .error fault))
      (fun _ => blk.txs.length = response.txResults
        ∧ ∃ fault, calcNewValidatorSet E.B
          (t.chain.getValidatorsByHash blk.header.validatorsHash) response.validatorUpdates
            = .error fault) := by
  unfold afterFinalize
  by_cases hlength : blk.txs.length ≠ response.txResults
  · rw [if_pos hlength, ensures_pure]
    exact ⟨rfl, rfl, .inl ⟨⟨_, rfl⟩, hlength⟩⟩
  rw [if_neg hlength]
  have hlength' := not_not.mp hlength
  simp only [ensures_bind, forgetTxs, ensures_modify, ensures_get, ensures_ofExcept, ensures_pure]
  refine ⟨fun nxtVSet h => ?_, fun fault h => ⟨hlength', fault, h⟩⟩
  refine ⟨rfl, trivial, .inr ⟨?_, hlength', fun fault h' => ?_⟩⟩
  · rw [calcNewValidatorSet_eq_none h]
  · cases h.symm.trans h'

/-- **Once the application has answered**, an error means that something
went wrong after it. -/
theorem commitBlock_answered (blk : Block) (escortQC : Option QuorumCert) (s : Pacemaker)
    {req : FinalizeBlockRequest} {response : FinalizeBlockResponse}
    (hreq : s.requestFor E blk = some req)
    (hanswer : s.app.finalizeBlock (abciCalls s.trace) req = some response) :
    Ensures (commitBlock E blk escortQC) s
      (fun r s' => s'.finalized = s.finalized ++ [req]
        ∧ (r = .ok () ↔ s.Accepts E blk escortQC response)
        ∧ (r = .ok () → s'.chain.bestBlock.number = blk.number))
      (fun _ => s.Accepts E blk escortQC response) := by
  obtain ⟨hknown, parent, hparent, hreq⟩ := requestFor_eq_some.mp hreq
  have hhigher : s.chain.bestBlock.number < blk.number :=
    UInt32.not_le.mp (of_decide_eq_false hknown)
  -- the request is on record, and counts
  set s₁ : Pacemaker := { s with trace := s.trace ++ [.abci (.finalizeBlock req)] }
  have hfinalized : s₁.finalized = s.finalized ++ [req] := by
    rw [finalized_record, hanswer]
    rfl
  unfold commitBlock applyBlock
  simp only [ensures_bind, ensures_get, hknown, hparent, ensures_ofExcept, ensures_record,
    Bool.false_eq_true, if_false]
  refine ⟨fun req' hreq' => ?_, fun fault h => (by cases hreq.symm.trans h)⟩
  obtain rfl := Except.ok.inj (hreq.symm.trans hreq')
  rw [hanswer]
  refine (afterFinalize_kept blk response s₁).imp (fun r t h => ?_) (fun t h => ?_)
  · obtain ⟨hsame, hchain, ⟨⟨e, rfl⟩, hlength⟩ | ⟨rfl, hlength, hnofault⟩⟩ := h
    · -- the wrong number of results
      refine ⟨hsame.trans hfinalized, ⟨fun h => (by cases h), fun h => absurd h.1 hlength⟩,
        fun h => (by cases h)⟩
    · -- the block goes to the chain
      have hadds : s.Accepts E blk escortQC response
          ↔ t.chain.AddsOnTop E.H (blk.withAppHash response.appHash) escortQC := by
        rw [hchain]
        refine ⟨fun h => ?_, fun h => ⟨hlength, .inr h⟩⟩
        rcases h.2 with ⟨fault, hfault⟩ | hadds
        · exact absurd hfault (hnofault fault)
        · exact hadds
      show Ensures (addCommitted E (blk.withAppHash response.appHash) escortQC) t _ _
      refine (addCommitted_onTop _ escortQC t ?_).imp (fun r t' h => ?_) (fun _ h => hadds.mpr h)
      · rw [hchain]
        exact hhigher
      · obtain ⟨hsame', hok, hbest⟩ := h
        refine ⟨(hsame'.trans hsame).trans hfinalized, hok.trans hadds.symm, fun hr => ?_⟩
        rw [hbest hr]
        rfl
  · exact ⟨h.1, .inl h.2⟩

/-- **As long as the application has not answered**, nothing has
happened. -/
theorem commitBlock_unanswered (blk : Block) (escortQC : Option QuorumCert) (s : Pacemaker)
    (h : ∀ req, s.requestFor E blk = some req →
      s.app.finalizeBlock (abciCalls s.trace) req = none) :
    Ensures (commitBlock E blk escortQC) s (fun r s' => r ≠ .ok () ∧ CommitKept s s')
      (fun _ => True) := by
  have hkept : CommitKept s s := ⟨rfl, rfl, rfl, rfl, rfl, rfl, rfl⟩
  unfold commitBlock
  simp only [ensures_bind, ensures_get]
  cases hknown : s.isKnown blk with
  | true => exact ⟨fun h => (by cases h), hkept⟩
  | false =>
    unfold applyBlock
    simp only [ensures_bind, ensures_get, Bool.false_eq_true, if_false]
    cases hparent : s.chain.parentBlock blk with
    | none => exact ⟨fun h => (by cases h), hkept⟩
    | some parent =>
      simp only [ensures_bind, ensures_ofExcept, ensures_record]
      refine ⟨fun req hreq => ?_, fun _ _ => trivial⟩
      have hnone := h req (requestFor_eq_some.mpr ⟨hknown, parent, hparent, hreq⟩)
      rw [hnone]
      refine ⟨fun h => (by cases h), ?_, rfl, rfl, rfl, rfl, rfl, rfl⟩
      rw [finalized_record, hnone]
      exact List.append_nil _

/-- **Exactly when committing a block is atomic**: when nothing can go wrong
once the application has answered. -/
theorem commitAtomic_iff (s : Pacemaker) (blk : Block) (escortQC : Option QuorumCert) :
    CommitAtomic E s blk escortQC
      ↔ ∀ req response, s.requestFor E blk = some req →
        s.app.finalizeBlock (abciCalls s.trace) req = some response →
        s.Accepts E blk escortQC response := by
  constructor
  · intro hatomic req response hreq hanswer
    have houtcome := commitBlock_answered blk escortQC s hreq hanswer
    unfold Ensures at houtcome
    cases hrun : commitBlock E blk escortQC s with
    | error fault s' =>
      rw [hrun] at houtcome
      exact houtcome
    | ok r s' =>
      rw [hrun] at houtcome
      obtain ⟨hfinalized, hok, -⟩ := houtcome
      cases r with
      | ok u => exact hok.mp rfl
      | error e =>
        -- the application is one block ahead
        have hkept := (hatomic.failed e s' hrun).finalized
        rw [hfinalized] at hkept
        exact absurd hkept (by simp)
  · intro haccepts
    by_cases hanswered : ∃ req response, s.requestFor E blk = some req
        ∧ s.app.finalizeBlock (abciCalls s.trace) req = some response
    · obtain ⟨req, response, hreq, hanswer⟩ := hanswered
      have houtcome := commitBlock_answered blk escortQC s hreq hanswer
      unfold Ensures at houtcome
      refine ⟨fun e s' hrun => ?_, fun s' hrun => ?_⟩ <;> rw [hrun] at houtcome
      · exact nomatch houtcome.2.1.mpr (haccepts req response hreq hanswer)
      · obtain ⟨hfinalized, -, hbest⟩ := houtcome
        rw [hfinalized, List.getLast?_concat, Option.map_some, hbest rfl]
        rw [height_of_requestFor hreq]
    · have houtcome := commitBlock_unanswered blk escortQC s (E := E) fun req hreq => by
        cases hanswer : s.app.finalizeBlock (abciCalls s.trace) req with
        | none => rfl
        | some response => exact absurd ⟨req, response, hreq, hanswer⟩ hanswered
      unfold Ensures at houtcome
      refine ⟨fun e s' hrun => ?_, fun s' hrun => ?_⟩ <;> rw [hrun] at houtcome
      · exact houtcome.2
      · exact absurd rfl houtcome.1

/-- A test for a failed commit that the application has executed. -/
def halfCommittedTest (E : Env) (p : Pacemaker) (blk : Block) (escortQC : Option QuorumCert) :
    Bool :=
  match commitBlock E blk escortQC p with
  | .ok (.error _) p' => decide (p'.finalized.length ≠ p.finalized.length)
    && decide (p'.chain.bestBlock ≠ p.chain.bestBlock)
  | _ => false

/-- What the test finds: the application has executed the block and the best
block is another, but the call failed. -/
theorem exists_of_halfCommittedTest {p : Pacemaker} {blk : Block} {escortQC : Option QuorumCert}
    (h : halfCommittedTest E p blk escortQC = true) :
    ∃ e p', commitBlock E blk escortQC p = .ok (.error e) p' ∧ p'.finalized ≠ p.finalized
      ∧ p'.chain.bestBlock ≠ p.chain.bestBlock := by
  unfold halfCommittedTest at h
  split at h
  · rename_i e p' hrun
    obtain ⟨hlength, hbest⟩ := Bool.and_eq_true_iff.mp h
    exact ⟨e, p', hrun, fun heq => of_decide_eq_true hlength (congrArg List.length heq),
      of_decide_eq_true hbest⟩
  · exact nomatch h

open Testnet in
/-- **A write fails**: the first block was executed and is the best one in
memory, and `CommitBlock` returns an error. -/
theorem failed_write_after_execution :
    ∃ p, startPacemaker env
        (Chain.initializeStore env genesis committee committee (fun _ => false)) app [1] 1000000000
          = .ok p
      ∧ let b := block genesis 1 genesisQC []
        (∃ e p', commitBlock env b (some (certificate b 1)) p = .ok (.error e) p'
          ∧ p'.finalized ≠ p.finalized ∧ p'.chain.bestBlock ≠ p.chain.bestBlock)
        ∧ ¬ CommitAtomic env p b (some (certificate b 1)) := by
  obtain ⟨p, hstart, htest⟩ := exists_of_ok
    (x := startPacemaker env
      (Chain.initializeStore env genesis committee committee (fun _ => false)) app [1] 1000000000)
    (fun p => halfCommittedTest env p (block genesis 1 genesisQC [])
      (some (certificate (block genesis 1 genesisQC []) 1)))
    (by decide +kernel)
  obtain ⟨e, p', hrun, hfinalized, hbest⟩ := exists_of_halfCommittedTest htest
  exact ⟨p, hstart, ⟨e, p', hrun, hfinalized, hbest⟩,
    fun hatomic => hfinalized (hatomic.failed e p' hrun).finalized⟩

end LoragonBFT
