import LoragonBFT.Pacemaker.DraftTree

/-!
# Passing the checks of a proposal

`OnReceiveProposal` is a list of checks with something done at the end: the
draft is added, and perhaps voted for. What a proposal that passes is
like, and which proposals pass, are questions about the checks alone, the
first half of the handler (`passProposal`), which returns the draft it made of
a proposal that passed.
-/

namespace LoragonBFT

open EStateM

variable {E : Env}

/-! ## Which proposals pass -/

/-- What `ValidateQC` finds out: the certificate is in the cache, or it
verifies against the block under the node's committee. -/
def Pacemaker.TrustsQC (E : Env) (p : Pacemaker) (b : Block) (qc : QuorumCert) : Prop :=
  qcID E.H qc ∈ p.validQCs
    ∨ ¬ p.epochState.committeeSize ≤ 0
      ∧ b.verifyQC E.H E.B qc p.epochState.committee = .ok (true, none)

theorem validateQC_exact (b : Block) (qc : QuorumCert) (t : Pacemaker) :
    Ensures (validateQC E b qc) t
      (fun r t' => (r = true ↔ t.TrustsQC E b qc) ∧ ∃ qcs, t' = { t with validQCs := qcs })
      (fun _ => ¬ t.TrustsQC E b qc) := by
  unfold validateQC Pacemaker.TrustsQC
  simp only [ensures_bind, ensures_get]
  split
  · rename_i hcached
    rw [List.contains_iff_mem] at hcached
    exact ⟨⟨fun _ => .inl hcached, fun _ => rfl⟩, t.validQCs, rfl⟩
  rename_i hcached
  rw [List.contains_iff_mem] at hcached
  split
  · rename_i hempty
    refine ⟨⟨fun h => (by cases h), fun h => ?_⟩, t.validQCs, rfl⟩
    exact h.elim (fun h => absurd h hcached) (fun h => absurd hempty h.1)
  rename_i hsome
  simp only [ensures_bind, ensures_ofExcept]
  refine ⟨?_, fun fault hverify h => ?_⟩
  · rintro ⟨valid, err⟩ hverify
    split
    · rename_i hvalid
      obtain ⟨rfl, rfl⟩ : valid = true ∧ err = none := by simpa using hvalid
      exact ⟨⟨fun _ => .inr ⟨hsome, hverify⟩, fun _ => rfl⟩, _, rfl⟩
    · rename_i hvalid
      refine ⟨⟨fun h => (by cases h), fun h => ?_⟩, t.validQCs, rfl⟩
      rcases h with h | ⟨-, h⟩
      · exact absurd h hcached
      · obtain ⟨rfl, rfl⟩ := Prod.mk.inj (Except.ok.inj (hverify.symm.trans h))
        exact absurd rfl hvalid
  · rcases h with h | ⟨-, h⟩
    · exact absurd h hcached
    · cases hverify.symm.trans h

/-- What `ValidateProposal` finds out: none of the transactions is in an
uncommitted ancestor, the application can be asked, and it accepts. -/
structure FindsValid (E : Env) (c : Chain) (app : App) (trace : List Event) (blk : Block)
    (parent : DraftBlock) : Prop where
  fresh : ∃ known, knownTxs E c blk parent = .ok known ∧ ∀ tx ∈ blk.txs, E.H.sha256 tx ∉ known
  accepted : ∃ req, processProposalRequest E c blk = .ok req
    ∧ app.processProposal (abciCalls trace) req = some .accept

theorem processProposal_exact (blk : Block) (t : Pacemaker) :
    Ensures (processProposal E blk) t
      (fun r _ => r = .ok true ↔ ∃ req, processProposalRequest E t.chain blk = .ok req
        ∧ t.app.processProposal (abciCalls t.trace) req = some .accept)
      (fun _ => ¬ ∃ req, processProposalRequest E t.chain blk = .ok req
        ∧ t.app.processProposal (abciCalls t.trace) req = some .accept) := by
  unfold processProposal
  simp only [ensures_bind, ensures_get, ensures_ofExcept, ensures_record]
  refine ⟨fun req hreq => ?_, fun fault hreq => ?_⟩
  · have hothers : ∀ status, t.app.processProposal (abciCalls t.trace) req = status →
        status ≠ some .accept → ¬ ∃ req, processProposalRequest E t.chain blk = .ok req
          ∧ t.app.processProposal (abciCalls t.trace) req = some .accept := by
      rintro status hstatus hne ⟨req', hreq', haccept⟩
      obtain rfl := Except.ok.inj (hreq.symm.trans hreq')
      exact hne (hstatus.symm.trans haccept)
    split
    · rename_i hstatus
      exact ⟨fun h => (by cases h), fun h => absurd h (hothers _ hstatus (fun h => by cases h))⟩
    · rename_i hstatus
      exact hothers _ hstatus (fun h => by cases h)
    · rename_i hstatus
      exact ⟨fun _ => ⟨req, hreq, hstatus⟩, fun _ => rfl⟩
    · rename_i hstatus
      exact ⟨fun h => (by cases h), fun h => absurd h (hothers _ hstatus (fun h => by cases h))⟩
  · rintro ⟨req, hreq', -⟩
    cases hreq.symm.trans hreq'

theorem validateProposal_exact (b parent : DraftBlock) (t : Pacemaker) :
    Ensures (validateProposal E b parent) t
      (fun r _ => ∀ b', r = .ok b' ↔ FindsValid E t.chain t.app t.trace b.proposedBlock parent
        ∧ b' = { b with successProcessed := true, processError := none })
      (fun _ => ¬ FindsValid E t.chain t.app t.trace b.proposedBlock parent) := by
  unfold validateProposal
  simp only [ensures_bind, ensures_get, ensures_ofExcept]
  refine ⟨fun known hknown => ?_, fun fault hknown h => ?_⟩
  · split
    · rename_i hany
      obtain ⟨tx, hmem, htx⟩ := List.any_eq_true.mp hany
      refine fun b' => ⟨fun h => (by cases h), fun h => ?_⟩
      obtain ⟨known', hknown', hfresh⟩ := h.1.fresh
      obtain rfl := Except.ok.inj (hknown.symm.trans hknown')
      exact absurd (List.contains_iff_mem.mp htx) (hfresh tx hmem)
    · rename_i hany
      have hfresh : ∀ tx ∈ b.proposedBlock.txs, E.H.sha256 tx ∉ known := fun tx hmem htx =>
        hany (List.any_eq_true.mpr ⟨tx, hmem, List.contains_iff_mem.mpr htx⟩)
      have hiff : FindsValid E t.chain t.app t.trace b.proposedBlock parent
          ↔ ∃ req, processProposalRequest E t.chain b.proposedBlock = .ok req
            ∧ t.app.processProposal (abciCalls t.trace) req = some .accept :=
        ⟨fun h => h.accepted, fun h => ⟨⟨known, hknown, hfresh⟩, h⟩⟩
      rw [ensures_bind]
      refine (processProposal_exact b.proposedBlock t).imp (fun r t' h => ?_)
        (fun _ h => fun hvalid => h (hiff.mp hvalid))
      rw [hiff, ← h]
      rcases r with e | _ | _ <;> simp [eq_comm]
  · obtain ⟨known, hknown', -⟩ := h.fresh
    cases hknown.symm.trans hknown'

/-- **A proposal passes the checks** on its certificate, its round and its
transactions. -/
structure Pacemaker.PassesChecks (E : Env) (p : Pacemaker) (msg : PMProposalMessage) (blk : Block)
    (parent : DraftBlock) : Prop where
  certificate : p.TrustsQC E parent.proposedBlock blk.qc
  round : p.roundAllowed E msg parent (p.chain.getDraft parent.proposedBlock.parentID) = .ok true
  valid : FindsValid E p.chain p.app p.trace blk parent

/-- **A proposal passes**: it can be decoded, is not below the last committed
block, its parent is known, and it passes the checks. -/
structure Pacemaker.Passes (E : Env) (p : Pacemaker) (msg : PMProposalMessage) (blk : Block)
    (parent : DraftBlock) : Prop extends p.PassesChecks E msg blk parent where
  decoded : msg.decodedBlock = some blk
  recent : ¬ blk.number < p.lastCommitted.number
  parent_eq : p.chain.getDraft blk.parentID = some parent

section Pointers

variable (c : Chain) (n : Ref)

/-- A lookup after another pointer was handed out finds the same block. -/
theorem Chain.getDraft_nextRef_all (id : Bytes32) (test : Block → Bool) :
    (({ c with nextRef := n } : Chain).getDraft id).all (fun d => test d.proposedBlock)
      = (c.getDraft id).all (fun d => test d.proposedBlock) := by
  unfold Chain.getDraft Chain.getBlock
  cases c.proposals id with
  | some d => rfl
  | none => cases c.kv.blocks id <;> rfl

/-- A draft is looked up as it is in the map, or made up from a stored block
and committed. -/
theorem Chain.getDraft_nextRef_cases (id : Bytes32) :
    ({ c with nextRef := n } : Chain).getDraft id = c.getDraft id
      ∨ ∃ d d', ({ c with nextRef := n } : Chain).getDraft id = some d ∧ c.getDraft id = some d'
        ∧ d.committed = true ∧ d'.committed = true := by
  unfold Chain.getDraft Chain.getBlock
  cases c.proposals id with
  | some d => exact .inl rfl
  | none =>
    cases c.kv.blocks id with
    | none => exact .inl rfl
    | some blk => exact .inr ⟨_, _, rfl, rfl, rfl, rfl⟩

theorem txsInCache_nextRef (fuel : ℕ) (tmp : Option DraftBlock) (known : List Bytes32) :
    txsInCache E { c with nextRef := n } fuel tmp known = txsInCache E c fuel tmp known := by
  induction fuel generalizing tmp known with
  | zero => cases tmp <;> rfl
  | succ fuel ih =>
    cases tmp with
    | none => rfl
    | some tmp =>
      unfold txsInCache
      show (if c.isCommitted tmp.toDraftInfo then _ else _) = _
      split
      · rfl
      rw [ih]
      rcases c.getDraft_nextRef_cases n tmp.proposedBlock.parentID with h | ⟨d, d', h, h', hd, hd'⟩
      · rw [h]
      · rw [h, h']
        -- the walk ends at a committed draft, whichever it is
        have hends : ∀ (x : DraftBlock) (l : List Bytes32), x.committed = true →
            txsInCache E c fuel (some x) l = txsInCache E c fuel (some d') l := by
          intro x l hx
          cases fuel with
          | zero => rfl
          | succ fuel => simp [txsInCache, Chain.isCommitted, hx, hd']
        exact hends d _ hd

theorem knownTxs_nextRef (blk : Block) (parent : DraftBlock) :
    knownTxs E { c with nextRef := n } blk parent = knownTxs E c blk parent := by
  unfold knownTxs
  rw [txsInCache_nextRef]

theorem processProposalRequest_nextRef (blk : Block) :
    processProposalRequest E { c with nextRef := n } blk = processProposalRequest E c blk := by
  unfold processProposalRequest
  rw [Chain.parentBlock_nextRef]
  rfl

/-- Handing out a pointer changes nothing about what is found out. -/
theorem findsValid_nextRef {app : App} {trace : List Event} {blk : Block} {parent : DraftBlock} :
    FindsValid E { c with nextRef := n } app trace blk parent
      ↔ FindsValid E c app trace blk parent := by
  constructor
  · rintro ⟨⟨known, hknown, hfresh⟩, req, hreq, haccept⟩
    rw [knownTxs_nextRef] at hknown
    rw [processProposalRequest_nextRef] at hreq
    exact ⟨⟨known, hknown, hfresh⟩, req, hreq, haccept⟩
  · rintro ⟨⟨known, hknown, hfresh⟩, req, hreq, haccept⟩
    refine ⟨⟨known, ?_, hfresh⟩, req, ?_, haccept⟩
    · rw [knownTxs_nextRef, hknown]
    · rw [processProposalRequest_nextRef, hreq]

end Pointers

/-- Nor about the round. -/
theorem Pacemaker.roundAllowed_nextRef (p : Pacemaker) (n : Ref) (msg : PMProposalMessage)
    (parent : DraftBlock) (id : Bytes32) :
    ({ p with chain := { p.chain with nextRef := n } } : Pacemaker).roundAllowed E msg parent
        (({ p.chain with nextRef := n } : Chain).getDraft id)
      = p.roundAllowed E msg parent (p.chain.getDraft id) := by
  unfold Pacemaker.roundAllowed
  rw [p.chain.getDraft_nextRef_all n id Block.isKBlock]
  rfl

theorem Pacemaker.passesChecks_nextRef (p : Pacemaker) (n : Ref) (msg : PMProposalMessage)
    (blk : Block) (parent : DraftBlock) :
    ({ p with chain := { p.chain with nextRef := n } } : Pacemaker).PassesChecks E msg blk parent
      ↔ p.PassesChecks E msg blk parent := by
  have hround := fun id => p.roundAllowed_nextRef (E := E) n msg parent id
  constructor
  · rintro ⟨hqc, hallowed, hvalid⟩
    exact ⟨hqc, (hround _).symm.trans hallowed, (findsValid_nextRef ..).mp hvalid⟩
  · rintro ⟨hqc, hallowed, hvalid⟩
    exact ⟨hqc, (hround _).trans hallowed, (findsValid_nextRef ..).mpr hvalid⟩

theorem passChecks_exact (msg : PMProposalMessage) (blk : Block) (parent : DraftBlock)
    (t : Pacemaker) :
    Ensures (passChecks E msg blk parent) t
      (fun r _ => (r ≠ none ↔ t.PassesChecks E msg blk parent) ∧ ∀ bnew, r = some bnew →
        ∃ ref, bnew = { newDraft msg blk parent ref with successProcessed := true })
      (fun _ => ¬ t.PassesChecks E msg blk parent) := by
  have hfail : ¬ t.PassesChecks E msg blk parent →
      ((none : Option DraftBlock) ≠ none ↔ t.PassesChecks E msg blk parent)
        ∧ ∀ bnew, none = some bnew →
          ∃ ref, bnew = { newDraft msg blk parent ref with successProcessed := true } :=
    fun h => ⟨⟨fun hne => absurd rfl hne, fun hp => absurd hp h⟩, fun _ hb => by cases hb⟩
  unfold passChecks
  rw [ensures_bind]
  refine (validateQC_exact parent.proposedBlock blk.qc t).imp (fun trusted t₁ h => ?_)
    (fun _ h hp => h hp.certificate)
  obtain ⟨htrusted, qcs, rfl⟩ := h
  split
  · rename_i hno
    refine hfail fun hp => ?_
    rw [htrusted.mpr hp.certificate] at hno
    cases hno
  rename_i hyes
  have hqc := htrusted.mp (by simpa using hyes)
  simp only [ensures_bind, ensures_get, ensures_ofExcept]
  refine ⟨fun allowed hallowed => ?_, fun fault hallowed hp => ?_⟩
  · have hallowed' : t.roundAllowed E msg parent
        (t.chain.getDraft parent.proposedBlock.parentID) = .ok allowed := hallowed
    split
    · rename_i hno
      refine hfail fun hp => ?_
      rw [Except.ok.inj (hallowed'.symm.trans hp.round)] at hno
      cases hno
    rename_i hyes
    obtain rfl : allowed = true := by simpa using hyes
    simp only [ensures_bind, ensures_set]
    refine (validateProposal_exact (newDraft msg blk parent t.chain.nextRef) parent _).imp
      (fun r t₃ h => ?_) (fun _ h hp => h ((findsValid_nextRef ..).mpr hp.valid))
    split
    · refine hfail fun hp => ?_
      cases (h _).mpr ⟨(findsValid_nextRef ..).mpr hp.valid, rfl⟩
    · rename_i bnew
      obtain ⟨hfound, hbnew⟩ := (h bnew).mp rfl
      refine ⟨⟨fun _ => ⟨hqc, hallowed', (findsValid_nextRef ..).mp hfound⟩,
        fun _ h => (by cases h)⟩, fun b hb => ?_⟩
      exact ⟨_, (Option.some.inj hb) ▸ hbnew⟩
  · cases hallowed.symm.trans hp.round

/-- **Exactly which proposals `OnReceiveProposal` lets through**, and what it
makes of them. -/
theorem passProposal_exact (mi : IncomingMsg) (msg : PMProposalMessage) (t : Pacemaker) :
    Ensures (passProposal E mi msg) t
      (fun r _ => (r ≠ none ↔ ∃ blk parent, t.Passes E msg blk parent) ∧ ∀ bnew, r = some bnew →
        ∃ blk parent ref, t.Passes E msg blk parent
          ∧ bnew = { newDraft msg blk parent ref with successProcessed := true })
      (fun _ => ¬ ∃ blk parent, t.Passes E msg blk parent) := by
  have hfail : (¬ ∃ blk parent, t.Passes E msg blk parent) →
      ((none : Option DraftBlock) ≠ none ↔ ∃ blk parent, t.Passes E msg blk parent)
        ∧ ∀ bnew, none = some bnew → ∃ blk parent ref, t.Passes E msg blk parent
          ∧ bnew = { newDraft msg blk parent ref with successProcessed := true } :=
    fun h => ⟨⟨fun hne => absurd rfl hne, fun hp => absurd hp h⟩, fun _ hb => by cases hb⟩
  unfold passProposal
  simp only [ensures_bind, ensures_get, ensures_ofExcept]
  refine ⟨fun blk hblk => ?_, fun fault hblk => ?_⟩
  · have hdecoded := eq_some_of_deref hblk
    have heq : ∀ blk' parent', t.Passes E msg blk' parent' → blk' = blk := fun blk' parent' h =>
      Option.some.inj (h.decoded.symm.trans hdecoded)
    split
    · rename_i hold
      refine hfail ?_
      rintro ⟨blk', parent', h⟩
      exact h.recent (heq blk' parent' h ▸ hold)
    rename_i hrecent
    simp only [ensures_bind, ensures_getDraft]
    split
    · rename_i hmissing
      rw [ensures_bind]
      have hnone : ¬ ∃ blk parent, t.Passes E msg blk parent := by
        rintro ⟨blk', parent', h⟩
        have hparent := h.parent_eq
        rw [heq blk' parent' h, hmissing] at hparent
        cases hparent
      exact ensures_of_forall (fun _ _ => hfail hnone) (fun _ => hnone)
    · rename_i parent hparent
      have hiff : (∃ blk' parent', t.Passes E msg blk' parent')
          ↔ t.bump.PassesChecks E msg blk parent := by
        refine Iff.trans ⟨?_, fun h => ⟨blk, parent, h, hdecoded, hrecent, hparent⟩⟩
          (t.passesChecks_nextRef _ msg blk parent).symm
        rintro ⟨blk', parent', h⟩
        obtain rfl := heq blk' parent' h
        obtain rfl := Option.some.inj (h.parent_eq.symm.trans hparent)
        exact h.toPassesChecks
      refine (passChecks_exact msg blk parent t.bump).imp (fun r _ h => ?_)
        (fun _ h => fun hp => h (hiff.mp hp))
      refine ⟨h.1.trans hiff.symm, fun bnew hbnew => ?_⟩
      obtain ⟨ref, heq⟩ := h.2 bnew hbnew
      have hchecks := (t.passesChecks_nextRef _ msg blk parent).mp
        (h.1.mp (hbnew ▸ Option.some_ne_none bnew))
      exact ⟨blk, parent, ref, ⟨hchecks, hdecoded, hrecent, hparent⟩, heq⟩
  · rintro ⟨blk, parent, h⟩
    rw [h.decoded] at hblk
    cases hblk

/-- A node accepts a proposal: the checks return a draft. -/
def Pacemaker.AcceptsProposal (E : Env) (p : Pacemaker) (mi : IncomingMsg)
    (msg : PMProposalMessage) (bnew : DraftBlock) : Prop :=
  ∃ p', passProposal E mi msg p = .ok (some bnew) p'


/-! ## What a leader proposes -/

/-- **What `OnPropose` makes**: a block on the draft that is found for the
certificate, of the transactions the application returns for the offered
ones, and a message with the encoded block. -/
structure Pacemaker.Proposes (E : Env) (t : Pacemaker) (qc : DraftQC) (round : UInt32)
    (parent : DraftBlock) (msg : PMProposalMessage) (d : DraftBlock) : Prop where
  lookup : t.chain.getDraftByEscortQC qc.qc = some parent
  validators : ∃ vset,
    t.chain.getValidatorsByHash parent.proposedBlock.header.nextValidatorsHash = some vset
  offered : ∃ req, req.txs = t.filteredTxs E
    ∧ t.app.prepareProposal (abciCalls t.trace) req = some d.proposedBlock.txs
  built : ∃ p txs, p.validatorSetRegistry = t.validatorSetRegistry ∧ p.epochState = t.epochState
    ∧ d = { buildBlock E p (Time.unix (t.targetTime parent.proposedBlock)) parent qc round txs with
        msg := some msg }
  above : qc.qc.number < d.height
  rawBlock_eq : msg.rawBlock = d.proposedBlock.item.encode
  round_eq : msg.round = round
  epoch_eq : msg.epoch = t.epochState.epoch
  timeoutCert_eq : msg.timeoutCert = t.tcHigh

theorem prepareProposal_exact (parent : DraftBlock) (t : Pacemaker) :
    Ensures (prepareProposal E parent) t
      (fun r t' => (∃ txCache trace, t' = { t with txCache, trace })
        ∧ (∃ vset,
          t.chain.getValidatorsByHash parent.proposedBlock.header.nextValidatorsHash = some vset)
        ∧ ∀ txs, r = .ok txs → ∃ req, req.txs = t.filteredTxs E
          ∧ t.app.prepareProposal (abciCalls t.trace) req = some txs)
      (fun _ => True) := by
  unfold prepareProposal
  simp only [ensures_bind, ensures_get, ensures_set, ensures_ofExcept, ensures_record]
  refine ⟨fun vset hvset => ⟨fun addr _ => ?_, fun _ _ => trivial⟩, fun _ _ => trivial⟩
  have hvset := eq_some_of_deref hvset
  split
  · exact ⟨⟨_, _, rfl⟩, ⟨vset, hvset⟩, fun _ h => by cases h⟩
  · rename_i res hres
    refine ⟨⟨_, _, rfl⟩, ⟨vset, hvset⟩, fun txs htxs => ?_⟩
    obtain rfl := Except.ok.inj htxs
    exact ⟨_, rfl, hres⟩

theorem createLeaf_exact (parent : DraftBlock) (justify : DraftQC) (round : UInt32)
    (t : Pacemaker) :
    Ensures (createLeaf E parent justify round) t
      (fun r t' => ∀ d, r = .ok d → t'.epochState = t.epochState ∧ t'.tcHigh = t.tcHigh
        ∧ (∃ vset,
          t.chain.getValidatorsByHash parent.proposedBlock.header.nextValidatorsHash = some vset)
        ∧ (∃ req, req.txs = t.filteredTxs E
          ∧ t.app.prepareProposal (abciCalls t.trace) req = some d.proposedBlock.txs)
        ∧ ∃ p txs, p.validatorSetRegistry = t.validatorSetRegistry ∧ p.epochState = t.epochState
          ∧ d = buildBlock E p (Time.unix (t.targetTime parent.proposedBlock)) parent justify
            round txs)
      (fun _ => True) := by
  unfold createLeaf
  rw [ensures_bind]
  refine (prepareProposal_exact parent t).imp (fun r t₁ h => ?_) (fun _ h => h)
  obtain ⟨⟨txCache, trace, rfl⟩, hvset, hoffered⟩ := h
  split
  · exact fun _ h => by cases h
  rename_i txs
  simp only [ensures_bind, ensures_get]
  split
  · exact fun _ h => by cases h
  split
  · exact fun _ h => by cases h
  simp only [ensures_bind, ensures_set, ensures_pure]
  intro d hd
  rw [← Except.ok.inj hd]
  exact ⟨trivial, trivial, hvset, hoffered txs rfl, _, txs, rfl, rfl, rfl⟩

theorem onPropose_exact (qc : DraftQC) (round : UInt32) (t : Pacemaker) :
    Ensures (onPropose E qc round) t
      (fun r _ => ∀ d, r = some d → ∃ parent msg, t.Proposes E qc round parent msg d)
      (fun _ => True) := by
  unfold onPropose
  simp only [ensures_bind, ensures_getDraftByEscortQC, ensures_ofExcept]
  refine ⟨fun parent hparent => ?_, fun _ _ => trivial⟩
  refine (createLeaf_exact parent qc round t.bump).imp (fun r t₁ h => ?_) (fun _ h => h)
  split
  · exact fun _ h => by cases h
  rename_i bnew
  obtain ⟨hepoch, htc, hvset, hoffered, p, txs, hregistry, hstate, hbnew⟩ := h bnew rfl
  split
  · exact fun _ h => by cases h
  rename_i habove
  simp only [ensures_bind, ensures_get, ensures_record, ensures_ofExcept, ensures_modify,
    ensures_pure]
  refine ⟨fun _ _ d hd => ⟨parent, buildProposalMessage E t₁ bnew, ?_⟩, fun _ _ => trivial⟩
  rw [← Option.some.inj hd]
  refine ⟨eq_some_of_deref hparent, hvset, hoffered, ⟨p, txs, hregistry, hstate, ?_⟩,
    UInt32.not_le.mp habove, rfl, ?_, ?_, htc⟩
  · rw [hbnew]
    rfl
  · show bnew.round = round
    rw [hbnew]
    rfl
  · show t₁.epochState.epoch = _
    rw [hepoch]
    rfl

end LoragonBFT
