import LoragonBFT.CertifiedChain
import LoragonBFT.Pacemaker.LeaderBeats
import LoragonBFT.Pacemaker.VoteCollection

/-!
# An honest leader's proposal at an honest validator

A leader and a validator that have committed the same blocks and hold the same
drafts still look at a proposal from two sides. The leader fills the block
with the transactions it has not offered before, which it finds in a cache of
its own; the validator compares the block with the uncommitted drafts it
extends. The leader takes the round from the beat and attaches the timeout
certificate it happens to hold; the validator compares the round with the
parent's. The leader takes the highest certificate it knows of, whoever formed
it; the validator checks it against the committee in force now, and has to
read who voted from the parent's header.

`SharesChain` says what the two have in common, as far as the checks of a
proposal can see. For two such nodes the outcome of every check can be told
from the leader's state, before the proposal is made (`ProposalFits`), apart
from the validator's cache of certificates. The theorem
is that the validator accepts exactly the proposals that fit.

What is accepted is also to be imported by nodes that catch up. For an honest
leader's proposal that depends on its parent alone (`proposed_can_sync_iff`).
-/

namespace LoragonBFT

open EStateM

variable {E : Env}

/-! ## Nodes that share a chain -/

/-- What the checks of a proposal see of the draft under an identifier: its
block, its round, and whether it is committed. -/
def Chain.seenDraft (c : Chain) (id : Bytes32) : Option (Block × UInt32 × Bool) :=
  (c.getDraft id).map (fun d => (d.proposedBlock, d.round, c.isCommitted d.toDraftInfo))

/-- The draft under the first identifier names the second as its parent. -/
def Chain.ParentOf (c : Chain) (id parentID : Bytes32) : Prop :=
  ∃ d, c.getDraft id = some d ∧ d.proposedBlock.parentID = parentID

/-- **Two nodes have the same committee, the same committed chain and the same
ancestor drafts**, those that are reached from the leader's highest
certificate. -/
structure Pacemaker.SharesChain (p v : Pacemaker) : Prop where
  epoch_eq : v.epochState.epoch = p.epochState.epoch
  committee_eq : v.epochState.committee = p.epochState.committee
  lastCommitted_eq : v.lastCommitted = p.lastCommitted
  blocks_eq : v.chain.kv.blocks = p.chain.kv.blocks
  validators_eq : v.chain.kv.validators = p.chain.kv.validators
  drafts_eq : ∀ id, Relation.ReflTransGen p.chain.ParentOf p.qcHigh.qc.blockID id →
    v.chain.seenDraft id = p.chain.seenDraft id

variable {c : Chain} {id : Bytes32} {d : DraftBlock} {round : UInt32} {msg : PMProposalMessage}
  {blk : Block}

theorem Chain.seenDraft_of_getDraft (h : c.getDraft id = some d) :
    c.seenDraft id = some (d.proposedBlock, d.round, c.isCommitted d.toDraftInfo) := by
  rw [seenDraft, h]
  rfl

theorem Chain.exists_getDraft_of_seenDraft {b : Block} {committed : Bool}
    (h : c.seenDraft id = some (b, round, committed)) :
    ∃ d, c.getDraft id = some d ∧ d.proposedBlock = b ∧ d.round = round
      ∧ c.isCommitted d.toDraftInfo = committed := by
  obtain ⟨d, hd, heq⟩ := Option.map_eq_some_iff.mp h
  cases heq
  exact ⟨d, hd, rfl, rfl, rfl⟩

/-! ## Uncommitted ancestors -/

/-- The blocks of the uncommitted drafts from an identifier back to the first
committed one, if they are reached in so many steps. -/
def Chain.uncommitted (c : Chain) : ℕ → Bytes32 → Option (List Block)
  | 0, id => if (c.seenDraft id).isNone then some [] else none
  | fuel + 1, id =>
    match c.seenDraft id with
    | none => some []
    | some (b, _, committed) =>
      if committed then some [] else (c.uncommitted fuel b.parentID).map (b :: ·)

/-- The walk of `ValidateProposal` collects the transactions of the
uncommitted ancestors. -/
theorem txsInCache_eq (c : Chain) (fuel : ℕ) (id : Bytes32) (known : List Bytes32) :
    txsInCache E c fuel (c.getDraft id) known
      = match c.uncommitted fuel id with
        | none => .error .diverges
        | some bs => .ok (known ++ bs.flatMap (fun b => b.txs.map E.H.sha256)) := by
  induction fuel generalizing id known with
  | zero =>
    unfold Chain.uncommitted Chain.seenDraft
    cases c.getDraft id with
    | none => simp [txsInCache]
    | some d => rfl
  | succ fuel ih =>
    unfold Chain.uncommitted Chain.seenDraft
    cases c.getDraft id with
    | none => simp [txsInCache]
    | some d =>
      unfold txsInCache
      simp only [Option.map_some]
      split
      · simp
      · rw [ih]
        cases c.uncommitted fuel d.proposedBlock.parentID with
        | none => rfl
        | some bs => simp

/-- Nodes with the same ancestor drafts have the same uncommitted ones. -/
theorem Chain.uncommitted_congr {c' : Chain} (fuel : ℕ)
    (h : ∀ id', Relation.ReflTransGen c.ParentOf id id' → c'.seenDraft id' = c.seenDraft id') :
    c'.uncommitted fuel id = c.uncommitted fuel id := by
  induction fuel generalizing id with
  | zero => rw [uncommitted, uncommitted, h id .refl]
  | succ fuel ih =>
    rw [uncommitted, uncommitted, h id .refl]
    split
    · rfl
    rename_i b round committed hseen
    obtain ⟨d, hd, hblock, -⟩ := exists_getDraft_of_seenDraft hseen
    have hparent : c.ParentOf id b.parentID := ⟨d, hd, by rw [hblock]⟩
    rw [ih fun id' hid' => h id' (.head hparent hid')]

/-! ## Proposals that fit -/

/-- The block under an identifier as the executor looks it up: the stored one,
else the draft's. -/
def Chain.storedOrDraft (c : Chain) (id : Bytes32) : Option Block :=
  match c.getBlock id with
  | some b => some b
  | none => (c.getDraft id).map (fun d => d.proposedBlock)

/-- `BuildLastCommitInfo` can read who voted on a block: the validators its
header names are stored and as many as the certificate has bits, or it is the
genesis and there are none. -/
def Chain.ListsVoters (c : Chain) (b : Block) (size : ℕ) : Prop :=
  match c.getValidatorsByHash b.header.validatorsHash with
  | none => b.number = 0
  | some vset => vset.size = size

/-- The round a leader proposes for follows the parent's, or it holds a
timeout certificate of the round. Round 0 is for the second block of an epoch. -/
def Pacemaker.RoundFollows (E : Env) (p : Pacemaker) (round : UInt32) (parent : DraftBlock) :
    Prop :=
  if round = 0 then
    ∀ g, p.chain.getDraft parent.proposedBlock.parentID = some g → g.proposedBlock.isKBlock = true
  else parent.round + 1 = round ∨ p.verifyTC E p.tcHigh round = .ok true
    ∧ (parent.proposedBlock.isKBlock = true ∨ parent.round < round)

/-- **What a leader proposes fits**: all that a validator checks, told from the
leader's state and the certificates in the validator's cache. -/
structure Pacemaker.ProposalFits (E : Env) (p : Pacemaker) (validQCs : List Bytes32)
    (round : UInt32) (parent : DraftBlock) : Prop where
  /-- The draft under the highest certificate's block. -/
  parent_eq : p.chain.getDraft p.qcHigh.qc.blockID = some parent
  recent : ¬ p.qcHigh.qc.number + 1 < p.lastCommitted.number
  /-- The highest certificate, as it is read back, verifies under the
  committee in force, unless it is in the cache. -/
  certificate : qcID E.H p.qcHigh.qc ∈ validQCs ∨ ¬ p.epochState.committeeSize ≤ 0
    ∧ parent.proposedBlock.verifyQC E.H E.B p.qcHigh.qc.wire p.epochState.committee
      = .ok (true, none)
  follows : p.RoundFollows E round parent
  /-- No transaction that was not offered before is in an uncommitted
  ancestor. -/
  fresh : p.filteredTxs E = []
    ∨ ∃ bs, p.chain.uncommitted (2 ^ 32 + 1) p.qcHigh.qc.blockID = some bs
      ∧ ∀ tx ∈ p.filteredTxs E, ∀ b ∈ bs, E.H.sha256 tx ∉ b.txs.map E.H.sha256
  listed : ∀ b, p.chain.storedOrDraft p.qcHigh.qc.blockID = some b →
    p.chain.ListsVoters b p.qcHigh.qc.bitArray.size

/-! ## What a beat proposes -/

/-- The state in which a beat that is let through proposes. -/
def Pacemaker.onBeatAt (p : Pacemaker) (cmdCh : Bool) (round : UInt32) : Pacemaker :=
  ({ p.beating cmdCh with lastOnBeatRound := Int32.ofNat round.toNat } : Pacemaker).bump

/-- The block is one that a beat proposes. -/
def Pacemaker.BeatProposes (E : Env) (p : Pacemaker) (round : UInt32) (d : DraftBlock) : Prop :=
  ∃ cmdCh parent msg, d.msg = some msg
    ∧ (p.onBeatAt cmdCh round).Proposes E p.qcHigh round parent msg d

theorem beatProposes_of_beaten {p t : Pacemaker} {cmdCh : Bool} {epoch : UInt64}
    (h : Beaten (fun d => ∃ parent msg,
      (p.onBeatAt cmdCh round).Proposes E p.qcHigh round parent msg d) (p.beating cmdCh) epoch
      round t) :
    t.proposed = p.proposed ∨ ∃ d, t.proposed = p.proposed ++ [d] ∧ p.BeatProposes E round d := by
  cases h with
  | skipped hbeats => exact .inl (congrArg (fun beats => beats.2.2) hbeats)
  | failed _ hbeats => exact .inl (congrArg (fun beats => beats.2.2) hbeats)
  | proposed _ d hmade hbeats =>
    obtain ⟨parent, msg, hproposes⟩ := hmade
    obtain ⟨p', txs, -, -, hd⟩ := hproposes.built
    exact .inr ⟨d, congrArg (fun beats => beats.2.2) hbeats, cmdCh, parent, msg, by rw [hd],
      hproposes⟩

/-- **What the leader proposed in a step.** -/
theorem proposes_of_step_beat {p : Pacemaker} {b : PMBeatInfo} (hb : p.beatCh = some b)
    (hproposed : (p.step E (.loop .beat)).proposed = p.proposed ++ [d]) :
    p.BeatProposes E b.round d := by
  have hstep := step_beat_trace (E := E) (P := fun trace => proposedDrafts trace = p.proposed
    ∨ ∃ d, proposedDrafts trace = p.proposed ++ [d] ∧ p.BeatProposes E b.round d) hb (.inl rfl)
    fun cmdCh => (onBeat_beaten b.epoch b.round (p.beating cmdCh)
      (onPropose_exact p.qcHigh b.round (p.onBeatAt cmdCh b.round))).imp
      (fun _ _ h => beatProposes_of_beaten h) (fun _ h => beatProposes_of_beaten h)
  rcases hstep with hsame | ⟨d', hnew, hproposes⟩
  · have hlen := congrArg List.length (hproposed.symm.trans hsame)
    simp at hlen
  · obtain rfl : d = d' :=
      List.singleton_inj.mp (List.append_cancel_left (hproposed.symm.trans hnew))
    exact hproposes

/-- **The block a leader broadcasts**, as it is read back. -/
structure Pacemaker.BuildsBlock (E : Env) (p : Pacemaker) (blk : Block) : Prop where
  parentID_eq : blk.parentID = p.qcHigh.qc.blockID
  number_ne : blk.number ≠ 0
  number_eq : blk.number = p.qcHigh.qc.number + 1
  qc_eq : blk.qc = p.qcHigh.qc.wire
  txs_eq : blk.txs = p.filteredTxs E
  validators : ∃ vset, p.chain.getValidatorsByHash blk.header.validatorsHash = some vset
  parent_known : ∃ parent, p.chain.getDraft p.qcHigh.qc.blockID = some parent

theorem Chain.exists_getDraft_of_escort {qc : QuorumCert} (h : c.getDraftByEscortQC qc = some d) :
    ∃ parent, c.getDraft qc.blockID = some parent := by
  unfold getDraftByEscortQC at h
  unfold getDraft
  cases hproposal : c.proposals qc.blockID with
  | some d' => exact ⟨d', rfl⟩
  | none =>
    rw [hproposal] at h
    obtain ⟨blk, hblk, -⟩ := Option.map_eq_some_iff.mp h
    exact ⟨_, by rw [hblk]; rfl⟩

theorem Pacemaker.Proposes.buildsBlock {p : Pacemaker} {cmdCh : Bool} {parent : DraftBlock}
    (htree : DraftTree E.H (fun _ _ => True) p.core)
    (hoffer : d.proposedBlock.txs = p.filteredTxs E)
    (h : (p.onBeatAt cmdCh round).Proposes E p.qcHigh round parent msg d) :
    p.BuildsBlock E d.proposedBlock.wire := by
  obtain ⟨p', txs, -, -, hd⟩ := h.built
  have hdraft : (p.onBeatAt cmdCh round).core.IsEscortDraft p.qcHigh.qc parent :=
    isEscortDraft_of_lookup h.lookup
  have hid : parent.proposedBlock.id E.H = p.qcHigh.qc.blockID :=
    (htree.inTree_of_isEscortDraft hdraft).keyed
  have hparentID : d.proposedBlock.parentID = p.qcHigh.qc.blockID := by
    rw [hd]
    exact hid
  have hheight : d.height = d.proposedBlock.number := by
    rw [hd]
    rfl
  have hne : d.proposedBlock.number ≠ 0 := by
    intro hzero
    have habove := h.above
    rw [hheight, hzero] at habove
    exact UInt32.not_lt_zero habove
  obtain ⟨vset, hvset⟩ := h.validators
  obtain ⟨parent', hparent'⟩ := Chain.exists_getDraft_of_escort h.lookup
  refine ⟨hparentID, hne, ?_, ?_, hoffer, ⟨vset, ?_⟩, ?_⟩
  · show d.proposedBlock.number = LoragonBFT.number p.qcHigh.qc.blockID + 1
    rw [Block.number_eq_of_ne hne, hparentID]
  · show d.proposedBlock.qc.wire = _
    rw [hd]
    rfl
  · show p.chain.getValidatorsByHash d.proposedBlock.header.validatorsHash = _
    rw [hd]
    exact hvset
  · rcases p.chain.getDraft_nextRef_cases (p.chain.nextRef + 1) p.qcHigh.qc.blockID with
      heq | ⟨-, d', -, hd', -⟩
    · exact ⟨parent', heq.symm.trans hparent'⟩
    · exact ⟨d', hd'⟩

/-! ## The validator's side -/

/-- The application accepts the proposal, if it is asked. -/
def Pacemaker.AppAccepts (E : Env) (v : Pacemaker) (msg : PMProposalMessage) : Prop :=
  ∀ blk req, msg.decodedBlock = some blk → processProposalRequest E v.chain blk = .ok req →
    v.app.processProposal (abciCalls v.trace) req = some .accept

theorem exists_acceptsProposal_iff {v : Pacemaker} {mi : IncomingMsg} :
    (∃ bnew, v.AcceptsProposal E mi msg bnew) ↔ ∃ blk parent, v.Passes E msg blk parent := by
  have hexact := passProposal_exact (E := E) mi msg v
  unfold Pacemaker.AcceptsProposal
  unfold Ensures at hexact
  cases hresult : passProposal E mi msg v with
  | ok r v' =>
    rw [hresult] at hexact
    rw [← hexact.1]
    constructor
    · rintro ⟨bnew, p', h⟩
      cases h
      exact Option.some_ne_none bnew
    · intro hne
      obtain ⟨bnew, rfl⟩ := Option.ne_none_iff_exists'.mp hne
      exact ⟨bnew, v', rfl⟩
  | error fault v' =>
    rw [hresult] at hexact
    exact ⟨fun ⟨_, _, h⟩ => (nomatch h), fun h => absurd h hexact⟩

theorem buildLastCommitInfo_iff_listsVoters {parent : Block} (hnumber : blk.number ≠ 0)
    (hwords : blk.qc.bitArray.size ≤ 64 * blk.qc.bitArray.elems.length) :
    (∃ info, c.buildLastCommitInfo parent blk = .ok info)
      ↔ c.ListsVoters parent blk.qc.bitArray.size := by
  unfold Chain.buildLastCommitInfo Chain.ListsVoters
  rw [if_neg hnumber]
  cases c.getValidatorsByHash parent.header.validatorsHash with
  | none =>
    by_cases hgenesis : parent.number = 0
    · simp [hgenesis]
    · simp [hgenesis]
  | some vset =>
    by_cases hsize : vset.size = blk.qc.bitArray.size
    · simp [hsize, commitVotes_eq hwords]
    · simp [hsize]

theorem processProposalRequest_iff_listsVoters {parent : Block} (hnumber : blk.number ≠ 0)
    (hwords : blk.qc.bitArray.size ≤ 64 * blk.qc.bitArray.elems.length)
    (hparent : c.parentBlock blk = some parent)
    (hvset : ∃ vset, c.getValidatorsByHash blk.header.validatorsHash = some vset) :
    (∃ req, processProposalRequest E c blk = .ok req)
      ↔ c.ListsVoters parent blk.qc.bitArray.size := by
  rw [← buildLastCommitInfo_iff_listsVoters hnumber hwords]
  obtain ⟨vset, hvset⟩ := hvset
  have hvalidators : c.blockValidators parent blk = some vset := (if_neg hnumber).trans hvset
  obtain ⟨addr, haddr⟩ : ∃ addr, proposerAddress (c.blockValidators parent blk)
      (Int32.ofNat blk.header.proposerIndex.toNat).toInt = .ok addr := by
    unfold proposerAddress
    rw [hvalidators]
    split
    · exact ⟨_, rfl⟩
    · exact ⟨_, rfl⟩
  unfold processProposalRequest
  simp only [hparent, deref, haddr, bind, Except.bind]
  cases c.buildLastCommitInfo parent blk with
  | ok info => exact ⟨fun _ => ⟨info, rfl⟩, fun _ => ⟨_, rfl⟩⟩
  | error fault =>
    constructor
    · rintro ⟨_, h⟩
      cases h
    · rintro ⟨_, h⟩
      cases h

/-- The transactions of a block are fresh if none is in an uncommitted
ancestor. -/
theorem knownTxs_iff_uncommitted {parent : DraftBlock}
    (hparent : c.getDraft blk.parentID = some parent) :
    (∃ known, knownTxs E c blk parent = .ok known ∧ ∀ tx ∈ blk.txs, E.H.sha256 tx ∉ known)
      ↔ blk.txs = [] ∨ ∃ bs, c.uncommitted (2 ^ 32 + 1) blk.parentID = some bs
        ∧ ∀ tx ∈ blk.txs, ∀ b ∈ bs, E.H.sha256 tx ∉ b.txs.map E.H.sha256 := by
  unfold knownTxs
  by_cases hnone : blk.txs = []
  · rw [hnone]
    exact ⟨fun _ => .inl rfl, fun _ => ⟨[], rfl, nofun⟩⟩
  rw [if_pos (List.length_pos_iff.mpr hnone), ← hparent, txsInCache_eq]
  cases c.uncommitted (2 ^ 32 + 1) blk.parentID with
  | none =>
    exact ⟨fun ⟨_, h, _⟩ => (nomatch h),
      fun h => h.elim (absurd · hnone) fun ⟨_, h, _⟩ => nomatch h⟩
  | some bs =>
    have hmem : ∀ tx, (E.H.sha256 tx ∉ [] ++ bs.flatMap (fun b => b.txs.map E.H.sha256)
        ↔ ∀ b ∈ bs, E.H.sha256 tx ∉ b.txs.map E.H.sha256) := by
      intro tx
      rw [List.nil_append, List.mem_flatMap]
      exact ⟨fun h b hb htx => h ⟨b, hb, htx⟩, fun h ⟨b, hb, htx⟩ => h b hb htx⟩
    constructor
    · rintro ⟨known, hknown, hfresh⟩
      obtain rfl := Except.ok.inj hknown
      exact .inr ⟨bs, rfl, fun tx htx => (hmem tx).mp (hfresh tx htx)⟩
    · rintro (h | ⟨bs', hbs, hfresh⟩)
      · exact absurd h hnone
      · obtain rfl := Option.some.inj hbs
        exact ⟨_, rfl, fun tx htx => (hmem tx).mpr (hfresh tx htx)⟩

namespace Pacemaker.SharesChain

variable {p v : Pacemaker} {parent parent' : DraftBlock}

/-- The parent is a draft of the validator's too. -/
theorem exists_parent (h : p.SharesChain v)
    (hparent : p.chain.getDraft p.qcHigh.qc.blockID = some parent) :
    ∃ parent', v.chain.getDraft p.qcHigh.qc.blockID = some parent'
      ∧ parent'.proposedBlock = parent.proposedBlock ∧ parent'.round = parent.round := by
  have hseen := (h.drafts_eq _ .refl).trans (Chain.seenDraft_of_getDraft hparent)
  obtain ⟨parent', hparent', hblock, hround, -⟩ := Chain.exists_getDraft_of_seenDraft hseen
  exact ⟨parent', hparent', hblock, hround⟩

theorem verifyTC_eq (h : p.SharesChain v) (tc : Option TimeoutCert) (round : UInt32) :
    v.verifyTC E tc round = p.verifyTC E tc round := by
  unfold Pacemaker.verifyTC EpochState.committeeSize
  rw [h.epoch_eq, h.committee_eq]

theorem getValidatorsByHash_eq (h : p.SharesChain v) (hash : Bytes) :
    v.chain.getValidatorsByHash hash = p.chain.getValidatorsByHash hash :=
  congrFun h.validators_eq hash

theorem storedOrDraft_eq (h : p.SharesChain v) :
    v.chain.storedOrDraft p.qcHigh.qc.blockID = p.chain.storedOrDraft p.qcHigh.qc.blockID := by
  have hdraft : ∀ c : Chain, (c.getDraft p.qcHigh.qc.blockID).map (fun d => d.proposedBlock)
      = (c.seenDraft p.qcHigh.qc.blockID).map Prod.fst := fun c => by
    rw [Chain.seenDraft, Option.map_map]
    rfl
  have hblock : v.chain.getBlock p.qcHigh.qc.blockID = p.chain.getBlock p.qcHigh.qc.blockID :=
    congrFun h.blocks_eq _
  unfold Chain.storedOrDraft
  rw [hblock, hdraft, hdraft, h.drafts_eq _ .refl]

/-- **The certificate is trusted** if it is in the validator's cache or
verifies under the committee of both. -/
theorem trustsQC_iff (h : p.SharesChain v) {b : Block} :
    v.TrustsQC E b p.qcHigh.qc.wire
      ↔ qcID E.H p.qcHigh.qc ∈ v.validQCs ∨ ¬ p.epochState.committeeSize ≤ 0
        ∧ b.verifyQC E.H E.B p.qcHigh.qc.wire p.epochState.committee = .ok (true, none) := by
  have hid : qcID E.H p.qcHigh.qc.wire = qcID E.H p.qcHigh.qc := by
    unfold qcID
    rw [QuorumCert.item_wire]
  unfold Pacemaker.TrustsQC EpochState.committeeSize
  rw [hid, h.committee_eq]

/-- **The round is allowed** if it follows the parent's in the leader's
view. -/
theorem roundAllowed_iff (h : p.SharesChain v)
    (hparent : p.chain.getDraft p.qcHigh.qc.blockID = some parent)
    (hblock : parent'.proposedBlock = parent.proposedBlock) (hround : parent'.round = parent.round)
    (htc : msg.timeoutCert = p.tcHigh) :
    v.roundAllowed E msg parent' (v.chain.getDraft parent'.proposedBlock.parentID) = .ok true
      ↔ p.RoundFollows E msg.round parent := by
  have hall : ∀ c : Chain, ∀ id, (c.getDraft id).all (fun g => g.proposedBlock.isKBlock)
      = (c.seenDraft id).all (fun seen => seen.1.isKBlock) := by
    intro c id
    rw [Chain.seenDraft, Option.all_map]
  have hgrandparent : v.chain.seenDraft parent.proposedBlock.parentID
      = p.chain.seenDraft parent.proposedBlock.parentID :=
    h.drafts_eq _ (.single ⟨parent, hparent, rfl⟩)
  unfold Pacemaker.roundAllowed Pacemaker.RoundFollows
  rw [hblock, hround, htc, h.verifyTC_eq, hall, hgrandparent, ← hall]
  split
  · rw [Except.ok.injEq, Option.all_eq_true]
  by_cases hnext : parent.round + 1 = msg.round
  · rw [if_pos hnext]
    exact ⟨fun _ => .inl hnext, fun _ => rfl⟩
  rw [if_neg hnext]
  cases p.verifyTC E p.tcHigh msg.round with
  | error fault =>
    exact ⟨fun h => (nomatch h), fun h => h.elim (absurd · hnext) fun h => nomatch h.1⟩
  | ok verified =>
    cases verified with
    | false => exact ⟨fun h => (nomatch h), fun h => h.elim (absurd · hnext) fun h => nomatch h.1⟩
    | true =>
      show Except.ok (parent.proposedBlock.isKBlock || decide (parent.round < msg.round))
        = .ok true ↔ _
      rw [Except.ok.injEq, Bool.or_eq_true, decide_eq_true_iff]
      exact ⟨fun h => .inr ⟨rfl, h⟩, fun h => h.elim (absurd · hnext) And.right⟩

/-- **The transactions and the request** are told from the leader's state. -/
theorem findsValid_iff (h : p.SharesChain v) (hbuilt : p.BuildsBlock E blk)
    (haccept : ∀ req, processProposalRequest E v.chain blk = .ok req →
      v.app.processProposal (abciCalls v.trace) req = some .accept)
    (hparent' : v.chain.getDraft p.qcHigh.qc.blockID = some parent') :
    FindsValid E v.chain v.app v.trace blk parent'
      ↔ (p.filteredTxs E = [] ∨ ∃ bs,
          p.chain.uncommitted (2 ^ 32 + 1) p.qcHigh.qc.blockID = some bs
            ∧ ∀ tx ∈ p.filteredTxs E, ∀ b ∈ bs, E.H.sha256 tx ∉ b.txs.map E.H.sha256)
        ∧ ∀ b, p.chain.storedOrDraft p.qcHigh.qc.blockID = some b →
          p.chain.ListsVoters b p.qcHigh.qc.bitArray.size := by
  have hlookup : v.chain.getDraft blk.parentID = some parent' := hbuilt.parentID_eq ▸ hparent'
  have hfresh := knownTxs_iff_uncommitted (E := E) hlookup
  rw [hbuilt.parentID_eq, hbuilt.txs_eq, Chain.uncommitted_congr _ h.drafts_eq] at hfresh
  obtain ⟨b, hb⟩ : ∃ b, p.chain.storedOrDraft p.qcHigh.qc.blockID = some b := by
    rw [← h.storedOrDraft_eq]
    unfold Chain.storedOrDraft
    rw [hparent']
    cases v.chain.getBlock p.qcHigh.qc.blockID with
    | some b => exact ⟨b, rfl⟩
    | none => exact ⟨_, rfl⟩
  have hparent : v.chain.parentBlock blk = some b := by
    show v.chain.storedOrDraft blk.parentID = some b
    rw [hbuilt.parentID_eq, h.storedOrDraft_eq, hb]
  have hvset : ∃ vset, v.chain.getValidatorsByHash blk.header.validatorsHash = some vset := by
    rw [h.getValidatorsByHash_eq]
    exact hbuilt.validators
  have hwords : blk.qc.bitArray.size ≤ 64 * blk.qc.bitArray.elems.length := by
    rw [hbuilt.qc_eq]
    exact p.qcHigh.qc.bitArray.words_wire
  have hlisted := processProposalRequest_iff_listsVoters (E := E) hbuilt.number_ne hwords hparent
    hvset
  have hsize : blk.qc.bitArray.size = p.qcHigh.qc.bitArray.size := by
    rw [hbuilt.qc_eq]
    exact p.qcHigh.qc.bitArray.size_wire
  rw [hsize, Chain.ListsVoters, h.getValidatorsByHash_eq] at hlisted
  constructor
  · rintro ⟨hknown, req, hreq, -⟩
    refine ⟨hfresh.mp (hbuilt.txs_eq ▸ hknown), fun b' hb' => ?_⟩
    obtain rfl := Option.some.inj (hb.symm.trans hb')
    exact hlisted.mp ⟨req, hreq⟩
  · rintro ⟨hknown, hlists⟩
    obtain ⟨req, hreq⟩ := hlisted.mpr (hlists b hb)
    exact ⟨hbuilt.txs_eq.symm ▸ hfresh.mpr hknown, req, hreq, haccept req hreq⟩

/-- **The validator lets the leader's block through exactly if it fits.** -/
theorem passes_iff_proposalFits (h : p.SharesChain v) (hbuilt : p.BuildsBlock E blk)
    (haccept : v.AppAccepts E msg) (hdecoded : msg.decodedBlock = some blk)
    (htc : msg.timeoutCert = p.tcHigh) :
    (∃ blk' parent', v.Passes E msg blk' parent')
      ↔ ∃ parent, p.ProposalFits E v.validQCs msg.round parent := by
  obtain ⟨parent, hparent⟩ := hbuilt.parent_known
  obtain ⟨parent', hparent', hblock, hround⟩ := h.exists_parent hparent
  have hrecent : ¬ blk.number < v.lastCommitted.number
      ↔ ¬ p.qcHigh.qc.number + 1 < p.lastCommitted.number := by
    rw [hbuilt.number_eq, h.lastCommitted_eq]
  have htrusts := h.trustsQC_iff (E := E) (b := parent'.proposedBlock)
  have hfollows := h.roundAllowed_iff (E := E) hparent hblock hround htc
  have hvalid := h.findsValid_iff hbuilt (haccept blk · hdecoded) hparent'
  rw [← hbuilt.qc_eq, hblock] at htrusts
  constructor
  · rintro ⟨blk', parent'', hpasses⟩
    obtain rfl : blk = blk' := Option.some.inj (hdecoded.symm.trans hpasses.decoded)
    have hlookup := hpasses.parent_eq
    rw [hbuilt.parentID_eq] at hlookup
    obtain rfl : parent' = parent'' := Option.some.inj (hparent'.symm.trans hlookup)
    obtain ⟨hfresh, hlisted⟩ := hvalid.mp hpasses.valid
    refine ⟨parent, hparent, hrecent.mp hpasses.recent, ?_, hfollows.mp hpasses.round, hfresh,
      hlisted⟩
    rw [← hbuilt.qc_eq]
    exact htrusts.mp (hblock ▸ hpasses.certificate)
  · rintro ⟨parent'', hfits⟩
    obtain rfl : parent = parent'' := Option.some.inj (hparent.symm.trans hfits.parent_eq)
    refine ⟨blk, parent', ⟨?_, hfollows.mpr hfits.follows,
      hvalid.mpr ⟨hfits.fresh, hfits.listed⟩⟩, hdecoded, hrecent.mpr hfits.recent, ?_⟩
    · rw [hblock]
      exact htrusts.mpr (hbuilt.qc_eq ▸ hfits.certificate)
    · rw [hbuilt.parentID_eq]
      exact hparent'

end Pacemaker.SharesChain

/-- **When an honest leader's proposal passes at an honest validator** that
has the same committee, committed chain and ancestor drafts. -/
theorem accepted_iff_proposalFits {chain : Chain} {app : App} {myPubKey : Bytes} {clock : Time}
    {p₀ p : Pacemaker} (hchain : chain.Fresh E.H)
    (hstart : startPacemaker E chain app myPubKey clock = .ok p₀) (hrun : Runs E p₀ p)
    {b : PMBeatInfo} (hb : p.beatCh = some b) {d : DraftBlock}
    (hproposed : (p.step E (.loop .beat)).proposed = p.proposed ++ [d])
    {msg : PMProposalMessage} (hmsg : d.msg = some msg)
    (hgossip : msg.rawBlock.length ≤ maxGossipSize)
    (hoffer : d.proposedBlock.txs = p.filteredTxs E) {v : Pacemaker}
    (haccept : v.AppAccepts E msg) (hshares : p.SharesChain v) (mi : IncomingMsg) :
    (∃ bnew, v.AcceptsProposal E mi msg bnew)
      ↔ ∃ parent, p.ProposalFits E v.validQCs b.round parent := by
  obtain ⟨cmdCh, parent, msg', hmsg', hproposes⟩ := proposes_of_step_beat hb hproposed
  obtain rfl : msg = msg' := Option.some.inj (hmsg.symm.trans hmsg')
  have hbuilt := hproposes.buildsBlock (draftTree_of_runs hchain hstart hrun) hoffer
  rw [exists_acceptsProposal_iff, ← hproposes.round_eq]
  exact hshares.passes_iff_proposalFits hbuilt haccept (hproposes.decodedBlock_eq hgossip)
    hproposes.timeoutCert_eq

/-- The input is no block from a peer. -/
def Input.isOwn : Input → Bool
  | .sync _ _ => false
  | _ => true

/-- `OnCommit` was not called. -/
def noCommit (trace : List Event) : Bool :=
  trace.all (fun e => match e with | .onCommit _ _ => false | _ => true)

/-- **Nothing is stored without a commit**, in a run without blocks from
peers. -/
theorem kv_eq_of_noCommit {p₀ p : Pacemaker} (hrun : Run E (fun _ i => i.isOwn = true) p₀ p)
    (h : noCommit p.trace = true) : p.chain.kv = p₀.chain.kv := by
  have hinv : noCommit p.core.trace = true → p.core.kv = p₀.core.kv := by
    refine Run.core_invariant (P := fun c => noCommit c.trace = true → c.kv = p₀.core.kv) hrun
      (fun _ => rfl) fun q i hown _ c c' hstep _ ih h => ?_
    have hbefore : noCommit c.trace = true :=
      List.all_eq_true.mpr fun e he => List.all_eq_true.mp h e (hstep.trace_prefix.subset he)
    rw [← ih hbefore]
    cases hstep with
    | addBlock blk appHash kv bestBlock source higher kv_cases best_cases =>
      rcases source with ⟨last, commitReady, b, d, hevent, -⟩ | ⟨qc, rfl⟩
      · exact nomatch List.all_eq_true.mp hbefore _ hevent
      · exact nomatch hown
    | _ => rfl
  exact hinv h

namespace Testnet

/-- The drafts from an identifier back are seen alike. -/
def sharesTest (c c' : Chain) : ℕ → Bytes32 → Bool
  | 0, _ => false
  | fuel + 1, id =>
    decide (c'.seenDraft id = c.seenDraft id)
      && (c.seenDraft id).all (fun seen => sharesTest c c' fuel seen.1.parentID)

theorem seenDraft_eq_of_sharesTest {c' : Chain} {fuel : ℕ} (h : sharesTest c c' fuel id = true)
    {id' : Bytes32} (hreach : Relation.ReflTransGen c.ParentOf id id') :
    c'.seenDraft id' = c.seenDraft id' := by
  induction fuel generalizing id with
  | zero => exact nomatch h
  | succ fuel ih =>
    obtain ⟨hsame, hrest⟩ := Bool.and_eq_true_iff.mp h
    rcases hreach.cases_head with rfl | ⟨parentID, ⟨d, hd, rfl⟩, hreach⟩
    · exact of_decide_eq_true hsame
    · rw [Chain.seenDraft_of_getDraft hd] at hrest
      exact ih hrest hreach

/-- The first block, with some transactions. -/
def firstWith (txs : List Bytes) : Block := block genesis 1 genesisQC txs

/-- The leader of round two has transactions in its pool, and gets the first
block and the votes for it. -/
def leadSecond (pool txs : List Bytes) : List Input :=
  .pool pool :: deliver (firstWith txs) 1 ++ threeVotes 1 ((firstWith txs).id hashes)

/-- Whether the leader proposes and the validator, which also has the first
block, answers as expected. -/
def meetTest (accepts : Bool) (p v : Pacemaker) : Bool :=
  (noCommit p.trace && noCommit v.trace && sharesTest p.chain v.chain 3 p.qcHigh.qc.blockID
    && decide (v.epochState.epoch = p.epochState.epoch
      ∧ v.epochState.committee = p.epochState.committee ∧ v.lastCommitted = p.lastCommitted))
  && p.beatCh.any (fun b => decide (b.round = 2))
  && match (p.step additiveEnv (.loop .beat)).proposed with
    | [d] => p.proposed.isEmpty && d.msg.any (fun msg =>
        decide (msg.rawBlock.length ≤ maxGossipSize
          ∧ d.proposedBlock.txs = p.filteredTxs additiveEnv)
        && msg.decodedBlock.all (fun blk =>
          match processProposalRequest additiveEnv v.chain blk with
          | .ok req => decide (v.app.processProposal (abciCalls v.trace) req = some .accept)
          | .error _ => true)
        && match passProposal additiveEnv (newIncomingMsg hashes (.proposal msg) []) msg v with
          | .ok (some _) _ => accepts
          | _ => !accepts)
    | _ => false

/-- A leader proposes, and a validator that shares its chain gets the
proposal. -/
structure Meets (p v : Pacemaker) (b : PMBeatInfo) (d : DraftBlock) (msg : PMProposalMessage) :
    Prop where
  beat : p.beatCh = some b
  round : b.round = 2
  proposed : (p.step additiveEnv (.loop .beat)).proposed = p.proposed ++ [d]
  message : d.msg = some msg
  gossip : msg.rawBlock.length ≤ maxGossipSize
  offered : d.proposedBlock.txs = p.filteredTxs additiveEnv
  accepts : v.AppAccepts additiveEnv msg
  shares : p.SharesChain v

theorem exists_meets {p v : Pacemaker} (hkv : v.chain.kv = p.chain.kv) {accepts : Bool}
    (h : meetTest accepts p v = true) :
    ∃ b d msg, Meets p v b d msg
      ∧ ((∃ bnew, v.AcceptsProposal additiveEnv (newIncomingMsg hashes (.proposal msg) []) msg bnew)
        ↔ accepts = true) := by
  obtain ⟨h, hproposed⟩ := Bool.and_eq_true_iff.mp h
  obtain ⟨h, hbeat⟩ := Bool.and_eq_true_iff.mp h
  obtain ⟨h, hsame⟩ := Bool.and_eq_true_iff.mp h
  obtain ⟨-, hdrafts⟩ := Bool.and_eq_true_iff.mp h
  obtain ⟨hepoch, hcommittee, hlast⟩ := of_decide_eq_true hsame
  obtain ⟨b, hb, hround⟩ := (Option.any_eq_true _ _).mp hbeat
  split at hproposed
  · rename_i d hd
    obtain ⟨hnone, hmsg⟩ := Bool.and_eq_true_iff.mp hproposed
    obtain ⟨msg, hmsg, h⟩ := (Option.any_eq_true _ _).mp hmsg
    obtain ⟨h, haccepted⟩ := Bool.and_eq_true_iff.mp h
    obtain ⟨h, happ⟩ := Bool.and_eq_true_iff.mp h
    obtain ⟨hgossip, hoffer⟩ := of_decide_eq_true h
    have hshares : p.SharesChain v :=
      ⟨hepoch, hcommittee, hlast, congrArg KV.blocks hkv, congrArg KV.validators hkv,
        fun id hid => seenDraft_eq_of_sharesTest hdrafts hid⟩
    have haccept : v.AppAccepts additiveEnv msg := by
      intro blk req hblk hreq
      rw [hblk, Option.all_some, hreq] at happ
      exact of_decide_eq_true happ
    refine ⟨b, d, msg, ⟨hb, of_decide_eq_true hround, ?_, hmsg, hgossip, hoffer, haccept, hshares⟩,
      ?_⟩
    · rw [hd, List.isEmpty_iff.mp hnone]
      rfl
    · unfold Pacemaker.AcceptsProposal
      split at haccepted
      · rename_i bnew v' heq
        exact ⟨fun _ => haccepted, fun _ => ⟨bnew, v', heq⟩⟩
      · rename_i hnot
        refine ⟨fun ⟨bnew, v', heq⟩ => absurd heq (hnot bnew v'), fun h => ?_⟩
        rw [h] at haccepted
        exact nomatch haccepted
  · exact nomatch hproposed

/-- The third and the fourth validator, once started. -/
def startThird : Except Panic Pacemaker := startPacemaker additiveEnv chain app [2] 1000000000

def startFourth : Except Panic Pacemaker := startPacemaker additiveEnv chain app [3] 1000000000

/-- The fourth validator meets the third one when it leads round two, with
some transactions in its pool and some in the first block. -/
theorem exists_leader_and_validator (pool txs : List Bytes) (accepts : Bool)
    (h : startThird.toOption.any (fun p₀ => startFourth.toOption.any (fun v₀ =>
      Machine.passes (Pacemaker.step additiveEnv) (fun _ i => i.isOwn) p₀ (leadSecond pool txs)
        && Machine.passes (Pacemaker.step additiveEnv) (fun _ i => i.isOwn) v₀
          (deliver (firstWith txs) 1)
        && meetTest accepts (p₀.play additiveEnv (leadSecond pool txs))
          (v₀.play additiveEnv (deliver (firstWith txs) 1)))) = true) :
    ∃ p₀ v₀ p v b d msg, startThird = .ok p₀ ∧ Runs additiveEnv p₀ p
      ∧ startFourth = .ok v₀ ∧ Runs additiveEnv v₀ v ∧ Meets p v b d msg
      ∧ ((∃ bnew, v.AcceptsProposal additiveEnv (newIncomingMsg hashes (.proposal msg) []) msg bnew)
        ↔ accepts = true) := by
  obtain ⟨p₀, hp₀, h⟩ := exists_of_ok _ h
  obtain ⟨v₀, hv₀, h⟩ := exists_of_ok _ h
  obtain ⟨h, hmeet⟩ := Bool.and_eq_true_iff.mp h
  obtain ⟨hleads, hfollows⟩ := Bool.and_eq_true_iff.mp h
  have hrun : ∀ {q₀ : Pacemaker} {inputs : List Input},
      Machine.passes (Pacemaker.step additiveEnv) (fun _ i => i.isOwn) q₀ inputs = true →
        Run additiveEnv (fun _ i => i.isOwn = true) q₀ (q₀.play additiveEnv inputs) :=
    fun hpasses => Machine.Run.of_plays _ (.of_test _ (fun _ _ h => h) _ hpasses)
  have hquiet := hmeet
  unfold meetTest at hquiet
  simp only [Bool.and_eq_true] at hquiet
  obtain ⟨⟨⟨⟨⟨hp, hv⟩, -⟩, -⟩, -⟩, -⟩ := hquiet
  have hstore : ∀ {k : UInt8} {q₀ : Pacemaker},
      startPacemaker additiveEnv chain app [k] 1000000000 = .ok q₀ → q₀.chain.kv = chain.kv := by
    intro k q₀ hq₀
    obtain ⟨_, _, -, -, _, hcore⟩ := startPacemaker_core hq₀
    exact congrArg Core.kv hcore
  have hkv : (v₀.play additiveEnv (deliver (firstWith txs) 1)).chain.kv
      = (p₀.play additiveEnv (leadSecond pool txs)).chain.kv := by
    rw [kv_eq_of_noCommit (hrun hfollows) hv, kv_eq_of_noCommit (hrun hleads) hp, hstore hp₀,
      hstore hv₀]
  obtain ⟨b, d, msg, hmeets, haccepted⟩ := exists_meets hkv hmeet
  exact ⟨p₀, v₀, _, _, b, d, msg, hp₀, (hrun hleads).imp fun _ _ _ => trivial, hv₀,
    (hrun hfollows).imp fun _ _ _ => trivial, hmeets, haccepted⟩

/-- A transaction that is not in the first block is proposed and accepted. -/
theorem proposal_of_new_transaction :
    ∃ p₀ v₀ p v b d msg, startThird = .ok p₀ ∧ Runs additiveEnv p₀ p
      ∧ startFourth = .ok v₀ ∧ Runs additiveEnv v₀ v ∧ Meets p v b d msg
      ∧ ((∃ bnew, v.AcceptsProposal additiveEnv (newIncomingMsg hashes (.proposal msg) []) msg bnew)
        ↔ ∃ parent, p.ProposalFits additiveEnv v.validQCs b.round parent)
      ∧ ∃ bnew, v.AcceptsProposal additiveEnv (newIncomingMsg hashes (.proposal msg) []) msg
        bnew := by
  obtain ⟨p₀, v₀, p, v, b, d, msg, hp₀, hp, hv₀, hv, h, haccepted⟩ :=
    exists_leader_and_validator [[7]] [[8]] true (by decide +kernel)
  exact ⟨p₀, v₀, p, v, b, d, msg, hp₀, hp, hv₀, hv, h,
    accepted_iff_proposalFits fresh_chain hp₀ hp h.beat h.proposed h.message h.gossip h.offered
      h.accepts h.shares _, haccepted.mpr rfl⟩

/-- **A transaction is proposed twice.** The leader of round two has the
transaction of the first block in its own pool, and has not offered it before.
Its proposal is rejected. -/
theorem proposal_of_known_transaction_rejected :
    ∃ p₀ v₀ p v b d msg, startThird = .ok p₀ ∧ Runs additiveEnv p₀ p
      ∧ startFourth = .ok v₀ ∧ Runs additiveEnv v₀ v ∧ Meets p v b d msg
      ∧ ¬ ∃ bnew, v.AcceptsProposal additiveEnv (newIncomingMsg hashes (.proposal msg) []) msg
        bnew := by
  obtain ⟨p₀, v₀, p, v, b, d, msg, hp₀, hp, hv₀, hv, h, haccepted⟩ :=
    exists_leader_and_validator [[7]] [[7]] false (by decide +kernel)
  exact ⟨p₀, v₀, p, v, b, d, msg, hp₀, hp, hv₀, hv, h, fun hyes => nomatch haccepted.mp hyes⟩

end Testnet

/-! ## Catching up with what a leader proposed -/

/-- The block a validator accepts is the one the leader built. -/
theorem Pacemaker.Proposes.accepted_eq {t v v₀ : Pacemaker} {chain : Chain} {app : App}
    {myPubKey : Bytes} {clock : Time} {qc : DraftQC} {parent bnew P : DraftBlock} {cmdCh : Bool}
    {rest : List IncomingMsg} {mi : IncomingMsg} (h : t.Proposes E qc round parent msg d)
    (hgossip : msg.rawBlock.length ≤ maxGossipSize) (hchain : chain.Fresh E.H)
    (hstart : startPacemaker E chain app myPubKey clock = .ok v₀) (hrun : Runs E v₀ v)
    (haccept : (v.taking cmdCh rest).AcceptsProposal E mi msg bnew)
    (hparent : bnew.parent = some P) :
    bnew.proposedBlock = d.proposedBlock.wire
      ∧ parent.proposedBlock.id E.H = P.proposedBlock.id E.H := by
  obtain ⟨hdecoded, hid⟩ := accepted_parent hchain hstart hrun haccept hparent
  have hblock : bnew.proposedBlock = d.proposedBlock.wire :=
    Option.some.inj (hdecoded.symm.trans (h.decodedBlock_eq hgossip))
  refine ⟨hblock, ?_⟩
  obtain ⟨p, txs, -, -, hd⟩ := h.built
  rw [hid, hblock, hd]
  rfl

/-- **When an honest leader's proposal can be caught up with**, once a
validator has accepted it: when the parent's time is one that a clock can
pass, and a parent that ends an epoch does not name a later block than itself
as the last of the epoch before. -/
theorem proposed_can_sync_iff {chain chain' : Chain} {app app' : App} {myPubKey myPubKey' : Bytes}
    {clock clock' : Time} {p₀ p v₀ v : Pacemaker} (hchain : chain.Fresh E.H)
    (hstart : startPacemaker E chain app myPubKey clock = .ok p₀) (hrun : Runs E p₀ p)
    (hpos : 0 ≤ p.clock) (hlast : p.clock < Time.lastUnix * 10 ^ 9)
    {b : PMBeatInfo} (hb : p.beatCh = some b) {d : DraftBlock}
    (hproposed : (p.step E (.loop .beat)).proposed = p.proposed ++ [d])
    {msg : PMProposalMessage} (hmsg : d.msg = some msg)
    (hgossip : msg.rawBlock.length ≤ maxGossipSize) (hchain' : chain'.Fresh E.H)
    (hstart' : startPacemaker E chain' app' myPubKey' clock' = .ok v₀) (hrun' : Runs E v₀ v)
    {cmdCh : Bool} {rest : List IncomingMsg} {mi : IncomingMsg} {bnew P parent : DraftBlock}
    (haccept : (v.taking cmdCh rest).AcceptsProposal E mi msg bnew) (hparent : bnew.parent = some P)
    (hleader : d.parent = some parent)
    (hcoll : NoCollision E.H parent.proposedBlock P.proposedBlock) (q : Pacemaker) {now : UInt64}
    (hlater : bnew.proposedBlock.header.timestamp ≤ now) (hclock : now.toNat < 2 ^ 63) :
    q.validateBlock E bnew.proposedBlock P.proposedBlock now false = none
      ↔ P.proposedBlock.header.timestamp.toNat < Time.lastUnix
        ∧ (P.proposedBlock.isKBlock = true →
          P.proposedBlock.header.lastKBlock ≤ P.proposedBlock.number) := by
  obtain ⟨cmdCh', parent', msg', hmsg', hproposes⟩ := proposes_of_step_beat hb hproposed
  obtain rfl : msg = msg' := Option.some.inj (hmsg.symm.trans hmsg')
  obtain ⟨hblock, hids⟩ := hproposes.accepted_eq hgossip hchain' hstart' hrun' haccept hparent
  obtain ⟨-, hid⟩ := accepted_parent hchain' hstart' hrun' haccept hparent
  obtain ⟨p₁, txs, -, -, hd⟩ := hproposes.built
  obtain rfl : parent' = parent := by
    rw [hd] at hleader
    exact Option.some.inj hleader
  -- the certificate is of the parent, since the leader looked the parent up by it
  have hqc : p.qcHigh.qc.blockID = parent'.proposedBlock.id E.H := by
    have hdraft : (p.onBeatAt cmdCh' b.round).core.IsEscortDraft p.qcHigh.qc parent' :=
      isEscortDraft_of_lookup hproposes.lookup
    exact ((draftTree_of_runs hchain hstart hrun).inTree_of_isEscortDraft hdraft).keyed.symm
  -- and the two parents have the same header, but for the application hash
  obtain ⟨hnumber, htime, hkblock, hvalidators, hnext⟩ := hcoll.validators_eq hids
  have hready : SyncReady E.H bnew.proposedBlock P.proposedBlock
      ↔ SyncReady E.H d.proposedBlock.wire parent'.proposedBlock := by
    rw [hblock]
    constructor
    · rintro ⟨h₁, h₂, h₃, h₄⟩
      exact ⟨h₁, htime ▸ h₂, hkblock ▸ h₃, h₄⟩
    · rintro ⟨h₁, h₂, h₃, h₄⟩
      exact ⟨h₁, htime ▸ h₂, hkblock ▸ h₃, h₄⟩
  rw [Pacemaker.validateBlock_eq_none_iff q hid hlater hclock, hready, hd]
  refine (syncReady_buildBlock_iff p₁ b.round txs hqc).trans ?_
  rw [timestamp_lt_targetTime_iff (p := p.onBeatAt cmdCh' b.round) hpos hlast]
  unfold Block.isKBlock
  rw [hnumber, htime, hkblock, hvalidators, hnext]

namespace Testnet

/-- The leader of the first round proposes, and a validator accepts. -/
def firstBeatTest (p v : Pacemaker) : Bool :=
  decide (p.proposed.isEmpty ∧ 0 ≤ p.clock ∧ p.clock < 10 ^ 10) && p.beatCh.isSome
    && match (p.step env (.loop .beat)).proposed with
      | [d] => d.msg.any (fun msg => decide (msg.rawBlock.length ≤ maxGossipSize)
          && d.parent.any (fun parent => decide (parent.proposedBlock = genesis))
          && acceptedWith v msg (fun bnew P => decide (P.proposedBlock = genesis
            ∧ bnew.proposedBlock.header.timestamp ≤ 5)))
      | _ => false

/-- The second validator leads the first round. The third accepts its block,
and a node that is behind can import it. -/
theorem firstBeat_can_sync :
    ∃ p v d msg mi bnew P, start 1 = .ok p ∧ start 2 = .ok v
      ∧ (p.step env (.loop .beat)).proposed = p.proposed ++ [d] ∧ d.msg = some msg
      ∧ (v.taking false []).AcceptsProposal env mi msg bnew ∧ bnew.parent = some P
      ∧ P.proposedBlock = genesis ∧ bnew.proposedBlock.header.timestamp ≤ 5
      ∧ (v.validateBlock env bnew.proposedBlock P.proposedBlock 5 false = none
        ↔ P.proposedBlock.header.timestamp.toNat < Time.lastUnix
          ∧ (P.proposedBlock.isKBlock = true →
            P.proposedBlock.header.lastKBlock ≤ P.proposedBlock.number)) := by
  obtain ⟨p, hp, htest⟩ := exists_of_start (k := 1)
    (fun p => (start 2).toOption.any (firstBeatTest p)) (by decide +kernel)
  obtain ⟨v, hv, htest⟩ := exists_of_ok (x := start 2) _ htest
  obtain ⟨htest, hproposed⟩ := Bool.and_eq_true_iff.mp htest
  obtain ⟨hclock, hbeat⟩ := Bool.and_eq_true_iff.mp htest
  obtain ⟨hnone, hpos, hlast⟩ := of_decide_eq_true hclock
  obtain ⟨b, hb⟩ := Option.isSome_iff_exists.mp hbeat
  split at hproposed
  · rename_i d hd
    obtain ⟨msg, hmsg, htest⟩ := (Option.any_eq_true _ _).mp hproposed
    obtain ⟨htest, haccepted⟩ := Bool.and_eq_true_iff.mp htest
    obtain ⟨hgossip, hleader⟩ := Bool.and_eq_true_iff.mp htest
    obtain ⟨parent, hleader, hgenesis⟩ := (Option.any_eq_true _ _).mp hleader
    obtain ⟨bnew, P, haccept, hparent, hprops⟩ := exists_of_acceptedWith haccepted
    obtain ⟨hgenesis', hlater⟩ := of_decide_eq_true hprops
    have hproposed : (p.step env (.loop .beat)).proposed = p.proposed ++ [d] := by
      rw [hd, List.isEmpty_iff.mp hnone]
      rfl
    have hcoll : NoCollision env.H parent.proposedBlock P.proposedBlock := by
      rw [of_decide_eq_true hgenesis, hgenesis']
      exact ⟨fun _ => rfl, fun _ => rfl, fun _ => rfl, fun _ => rfl⟩
    exact ⟨p, v, d, msg, _, bnew, P, hp, hv, hproposed, hmsg, haccept, hparent, hgenesis', hlater,
      proposed_can_sync_iff (Chain.fresh_initializeStore ..) hp .refl hpos
        (hlast.trans (by decide)) hb hproposed hmsg (of_decide_eq_true hgossip)
        (Chain.fresh_initializeStore ..) hv .refl haccept hparent hleader hcoll v hlater
        (by decide)⟩
  · cases hproposed

end Testnet

end LoragonBFT
