import LoragonBFT.Pacemaker.DraftTree
import Mathlib.Data.List.TakeWhile

/-!
# The draft map

Proposals that are not committed wait in a map, under the identifiers of their
blocks. Three operations on it are about the tree the drafts form, and each
looks at less of the tree than its purpose asks for.

* `PruneUpTo` goes by the number of a block. Of the drafts above the committed
  one it keeps all, those of a losing branch too, so that only descendants are
  left exactly if there were only descendants above
  (`onlyDescendants_iff_no_fork`).
* A block that has left the map is made a draft again from the store. `Get`
  takes its round to be the one after the round of its certificate, whatever
  round it was proposed in; `GetOneByEscortQC` takes the round from the
  certificate it is given (`lookupsAgree_iff`).
* `GetProposalsUpTo` answers a query for the drafts above a committed block
  with four of them at most, counted from the top. A node that misses five
  gets the upper four (`withoutGaps_iff`).
-/

namespace LoragonBFT

variable {H : Hashes} {c : Chain}

/-- **The drafts of a chain form a tree**: every stored block stands under its
identifier, and every draft is in the tree. -/
structure Chain.IsTree (H : Hashes) (R : DraftInfo → DraftInfo → Prop) (c : Chain) : Prop where
  stored : ∀ id b, c.getBlock id = some b → b.id H = id
  drafts : ∀ id d, c.proposals id = some d → InTree H R id d

variable {d : DraftBlock} {id : Bytes32}

/-- What holds of a draft that is added and of the drafts there are. -/
theorem Chain.forall_addDraft {P : Bytes32 → DraftBlock → Prop} (hd : P (d.proposedBlock.id H) d)
    (h : ∀ id d', c.proposals id = some d' → P id d') :
    ∀ id d', (c.addDraft H d).proposals id = some d' → P id d' := by
  intro id d' hd'
  have hd' : Function.update c.proposals (d.proposedBlock.id H) (some d) id = some d' := hd'
  rw [Function.update_apply] at hd'
  split at hd'
  next hid =>
    rw [hid, ← Option.some.inj hd']
    exact hd
  next => exact h id d' hd'

theorem Chain.proposals_addDraft_self (d : DraftBlock) :
    (c.addDraft H d).proposals (d.proposedBlock.id H) = some d :=
  Function.update_self ..

theorem Chain.proposals_addDraft_of_ne (h : id ≠ d.proposedBlock.id H) :
    (c.addDraft H d).proposals id = c.proposals id :=
  Function.update_of_ne h _ _

theorem Chain.getDraft_of_mem (h : c.proposals id = some d) :
    c.getDraft id = some d := by
  rw [getDraft, h]

theorem Chain.getDraftByEscortQC_of_mem {q : QuorumCert} (h : c.proposals q.blockID = some d)
    (hround : d.round = q.round) :
    c.getDraftByEscortQC q = some d := by
  rw [getDraftByEscortQC, h, Option.filter_some, if_pos (beq_iff_eq.mpr hround)]

/-- The draft of a proposal on a draft is in the tree. -/
theorem InTree.newDraft {parent : DraftBlock} (h : InTree H (BlockLink H) id parent) {blk : Block}
    (hid : blk.parentID = id) (hne : blk.number ≠ 0) (msg : PMProposalMessage) (ref : Ref) :
    InTree H (BlockLink H)
      ((LoragonBFT.newDraft msg blk parent ref).proposedBlock.id H)
      (LoragonBFT.newDraft msg blk parent ref) :=
  h.cons (d := LoragonBFT.newDraft msg blk parent ref) rfl rfl ⟨hid.trans h.keyed.symm, hne⟩

namespace Chain.IsTree

variable {R : DraftInfo → DraftInfo → Prop}

theorem inTree_of_getDraft (h : c.IsTree H R) (hd : c.getDraft id = some d) : InTree H R id d := by
  unfold getDraft at hd
  cases hmap : c.proposals id with
  | some d' =>
    rw [hmap] at hd
    exact Option.some.inj hd ▸ h.drafts id d' hmap
  | none =>
    rw [hmap] at hd
    obtain ⟨blk, hblk, rfl⟩ := Option.map_eq_some_iff.mp hd
    have hid := h.stored id blk hblk
    exact .stored _ hid (by rw [← hid, Block.number_id])

theorem inTree_of_getDraftByEscortQC (h : c.IsTree H R) {q : QuorumCert}
    (hd : c.getDraftByEscortQC q = some d) : InTree H R q.blockID d := by
  unfold getDraftByEscortQC at hd
  cases hmap : (c.proposals q.blockID).filter (fun d => d.round == q.round) with
  | some d' =>
    rw [hmap] at hd
    exact Option.some.inj hd ▸ h.drafts _ d' (Option.filter_eq_some_iff.mp hmap).1
  | none =>
    rw [hmap] at hd
    obtain ⟨blk, hblk, rfl⟩ := Option.map_eq_some_iff.mp hd
    exact .stored _ (h.stored _ blk hblk) rfl

/-- Adding a draft on a draft keeps the tree. -/
theorem addDraft (h : c.IsTree H R) (hd : InTree H R (d.proposedBlock.id H) d) :
    (c.addDraft H d).IsTree H R :=
  ⟨h.stored, forall_addDraft hd h.drafts⟩

end Chain.IsTree

/-! ## Pruning -/

/-- The parent pointers of a draft lead through another one. -/
def DraftBlock.Through (H : Hashes) (L d : DraftBlock) : Prop :=
  L.proposedBlock.id H ∈ d.chain.map (fun x => x.proposedBlock.id H)

/-- **Only descendants are left** of what was in the map: the committed draft
with its flag raised, nothing else at its height or below, every descendant,
and nothing that is none. -/
structure OnlyDescendants (H : Hashes) (c c' : Chain) (L : DraftBlock) : Prop where
  root : c'.proposals (L.proposedBlock.id H) = some L
  committed : c'.isCommitted L.toDraftInfo = true
  below : ∀ id d, c'.proposals id = some d → d.proposedBlock.number ≤ L.height → d = L
  above : ∀ id d, c.proposals id = some d → L.height < d.proposedBlock.number → L.Through H d →
    c'.proposals id = some d
  through : ∀ id d, c'.proposals id = some d → L.Through H d

theorem Chain.proposals_pruneDraftsUpTo {L : DraftBlock} :
    (c.pruneDraftsUpTo H L).proposals id = some d
      ↔ c.proposals id = some d ∧ Chain.survivesPrune H L d = true :=
  Option.filter_eq_some_iff

/-- A draft survives above the committed one, and as the committed one. -/
theorem Chain.survivesPrune_iff {L : DraftBlock} :
    Chain.survivesPrune H L d = true ↔ L.height < d.proposedBlock.number
      ∨ d.proposedBlock.number = L.height ∧ d.proposedBlock.id H = L.proposedBlock.id H := by
  unfold survivesPrune
  rw [Bool.not_eq_true', Bool.or_eq_false_iff, decide_eq_false_iff_not, UInt32.not_lt,
    Bool.and_eq_false_iff, beq_eq_false_iff_ne, bne_eq_false_iff_eq]
  constructor
  · rintro ⟨hle, hne | hid⟩
    · exact .inl (UInt32.lt_of_le_of_ne hle hne.symm)
    · by_cases heq : d.proposedBlock.number = L.height
      · exact .inr ⟨heq, hid⟩
      · exact .inl (UInt32.lt_of_le_of_ne hle (Ne.symm heq))
  · rintro (hlt | ⟨heq, hid⟩)
    · exact ⟨UInt32.le_of_lt hlt, .inl (UInt32.ne_of_lt hlt).symm⟩
    · exact ⟨heq ▸ UInt32.le_refl _, .inr hid⟩

/-- **Only descendants are left exactly if no other draft was higher** than
the committed one. -/
theorem onlyDescendants_iff_no_fork {R : DraftInfo → DraftInfo → Prop}
    (htree : c.IsTree H R) {L : DraftBlock}
    (hL : c.proposals (L.proposedBlock.id H) = some L) :
    OnlyDescendants H c (c.pruneDraftsUpTo H L) L
      ↔ ∀ id d, c.proposals id = some d → L.height < d.proposedBlock.number → L.Through H d := by
  have hheight : L.height = L.proposedBlock.number :=
    (htree.drafts _ L hL).height_eq _ List.mem_cons_self
  have hself : L.Through H L := List.mem_cons_self
  constructor
  · intro h id d hd habove
    exact h.through id d
      (Chain.proposals_pruneDraftsUpTo.mpr ⟨hd, Chain.survivesPrune_iff.mpr (.inl habove)⟩)
  · intro h
    -- what stands under the identifier of the committed draft is that draft
    have hkeyed : ∀ id d, c.proposals id = some d →
        d.proposedBlock.id H = L.proposedBlock.id H → d = L := by
      intro id d hd hid
      rw [← (htree.drafts id d hd).keyed, hid, hL] at hd
      exact (Option.some.inj hd).symm
    refine ⟨?_, ?_, ?_, ?_, ?_⟩
    · exact Chain.proposals_pruneDraftsUpTo.mpr
        ⟨hL, Chain.survivesPrune_iff.mpr (.inr ⟨hheight.symm, rfl⟩)⟩
    · have hrefs : c.prunedCommitted H L = [L.ref] := by
        unfold Chain.prunedCommitted
        rw [hL]
        exact if_pos hheight.symm
      show (L.committed || (c.prunedCommitted H L ++ c.committedRefs).contains L.ref) = true
      rw [hrefs]
      simp
    · intro id d hd hle
      obtain ⟨hd, hsurvives⟩ := Chain.proposals_pruneDraftsUpTo.mp hd
      rcases Chain.survivesPrune_iff.mp hsurvives with hlt | ⟨-, hid⟩
      · exact absurd hlt (UInt32.not_lt.mpr hle)
      · exact hkeyed id d hd hid
    · intro id d hd habove _
      exact Chain.proposals_pruneDraftsUpTo.mpr ⟨hd, Chain.survivesPrune_iff.mpr (.inl habove)⟩
    · intro id d hd
      obtain ⟨hd, hsurvives⟩ := Chain.proposals_pruneDraftsUpTo.mp hd
      rcases Chain.survivesPrune_iff.mp hsurvives with hlt | ⟨-, hid⟩
      · exact h id d hd hlt
      · rw [hkeyed id d hd hid]
        exact hself

namespace Testnet

/-- The root of the draft map, made up from the genesis. -/
def rootDraft : DraftBlock := .stored 0 genesis 0 0

/-- A block on the genesis, and one on that block. -/
def first : Block := block genesis 1 genesisQC [[1]]

def second : Block := block first 2 (certificate first 1) []

/-- Their drafts. -/
def firstDraft : DraftBlock := newDraft (proposal first 1) first rootDraft 1

def secondDraft : DraftBlock := newDraft (proposal second 2) second firstDraft 2

/-- The three drafts. -/
def threeDrafts : Chain :=
  ((chain.addDraft hashes rootDraft).addDraft hashes firstDraft).addDraft hashes secondDraft

theorem proposals_chain (id : Bytes32) : chain.proposals id = none := rfl

theorem isTree_threeDrafts : threeDrafts.IsTree hashes (BlockLink hashes) := by
  have hfresh := Chain.fresh_initializeStore env genesis committee committee (fun _ => true)
  have hchain : chain.IsTree hashes (BlockLink hashes) :=
    ⟨hfresh.stored, fun id _ hd => nomatch (proposals_chain id).symm.trans hd⟩
  have hroot : InTree hashes (BlockLink hashes) (rootDraft.proposedBlock.id hashes) rootDraft :=
    .stored 0 rfl (by decide +kernel)
  have hfirst : InTree hashes (BlockLink hashes) (firstDraft.proposedBlock.id hashes) firstDraft :=
    hroot.newDraft (by decide +kernel) (by decide +kernel) _ _
  have hsecond : InTree hashes (BlockLink hashes) (secondDraft.proposedBlock.id hashes)
      secondDraft :=
    hfirst.newDraft (by decide +kernel) (by decide +kernel) _ _
  have htwo := (hchain.addDraft hroot).addDraft hfirst
  exact htwo.addDraft hsecond

/-- **Pruning up to the middle one** leaves the upper two. -/
theorem pruned_threeDrafts :
    threeDrafts.proposals (firstDraft.proposedBlock.id hashes) = some firstDraft
      ∧ OnlyDescendants hashes threeDrafts (threeDrafts.pruneDraftsUpTo hashes firstDraft)
        firstDraft := by
  have hne : firstDraft.proposedBlock.id hashes ≠ secondDraft.proposedBlock.id hashes := by
    decide +kernel
  have hmem : threeDrafts.proposals (firstDraft.proposedBlock.id hashes) = some firstDraft :=
    (Chain.proposals_addDraft_of_ne hne).trans (Chain.proposals_addDraft_self firstDraft)
  refine ⟨hmem, (onlyDescendants_iff_no_fork isTree_threeDrafts hmem).mpr ?_⟩
  refine Chain.forall_addDraft ?_ (Chain.forall_addDraft ?_ (Chain.forall_addDraft ?_ ?_))
  · intro _
    unfold DraftBlock.Through
    decide +kernel
  · intro _
    exact List.mem_cons_self
  · intro habove
    exact absurd habove (by decide +kernel)
  · exact fun id _ hd => nomatch (proposals_chain id).symm.trans hd

/-- Another block on the genesis, and one on that one. -/
def other : Block := block genesis 1 genesisQC [[2]]

def aboveOther : Block := block other 2 (certificate other 1) []

/-- **A losing branch is left over**: of the two blocks one is committed, and
the child of the other stays in the map. -/
theorem fork_survives_pruning :
    ∃ p₀, start 1 = .ok p₀ ∧ let c := (p₀.play env (deliver first 1 ++ deliver other 1
        ++ deliver aboveOther 2)).chain
      ∃ L d, c.proposals (first.id hashes) = some L ∧ c.proposals (aboveOther.id hashes) = some d
        ∧ (c.pruneDraftsUpTo hashes L).proposals (aboveOther.id hashes) = some d
        ∧ ¬ L.Through hashes d
        ∧ ¬ OnlyDescendants hashes c (c.pruneDraftsUpTo hashes L) L := by
  obtain ⟨p₀, hstart, htest⟩ := exists_of_start (k := 1)
    (fun p₀ => let c := (p₀.play env (deliver first 1 ++ deliver other 1
        ++ deliver aboveOther 2)).chain
      (c.proposals (first.id hashes)).any (fun L => (c.proposals (aboveOther.id hashes)).any
        (fun d => decide (Chain.survivesPrune hashes L d = true
          ∧ L.proposedBlock.id hashes ∉ d.chain.map (fun x => x.proposedBlock.id hashes)))))
    (by decide +kernel)
  obtain ⟨L, hL, htest⟩ := (Option.any_eq_true _ _).mp htest
  obtain ⟨d, hd, htest⟩ := (Option.any_eq_true _ _).mp htest
  obtain ⟨hsurvives, hnot⟩ := of_decide_eq_true htest
  have hstays := Chain.proposals_pruneDraftsUpTo.mpr ⟨hd, hsurvives⟩
  exact ⟨p₀, hstart, L, d, hL, hd, hstays, hnot, fun h => hnot (h.through _ d hstays)⟩

end Testnet

/-! ## The two lookups -/

/-- The two lookups find a draft of a block, with the same height, round, flag
and block. -/
def LookupsAgree (H : Hashes) (c : Chain) (b : Block) (q : QuorumCert) : Prop :=
  ∃ d d', c.getDraft (b.id H) = some d ∧ c.getDraftByEscortQC q = some d'
    ∧ d.height = d'.height ∧ d.round = d'.round
    ∧ c.isCommitted d.toDraftInfo = c.isCommitted d'.toDraftInfo
    ∧ d.proposedBlock = d'.proposedBlock

/-- The message proposed the block, which has got the hash of the application
since. -/
def PMProposalMessage.Proposes (msg : PMProposalMessage) (b : Block) : Prop :=
  ∃ blk appHash, msg.decodedBlock = some blk ∧ b = blk.withAppHash appHash

theorem Block.withAppHash_self (b : Block) : b.withAppHash b.header.appHash = b := rfl

/-- The message proposes its block in the round after the one that the block's
own certificate is from. -/
def PMProposalMessage.InNextRound (msg : PMProposalMessage) : Prop :=
  ∃ blk, msg.decodedBlock = some blk ∧ msg.round = blk.qc.round + 1

/-- **The lookups agree exactly if the block was proposed in the round after
its own certificate's**: no timeouts, and no change of the committee, came in
between. -/
theorem lookupsAgree_iff {b : Block} {q : QuorumCert} {msg : PMProposalMessage}
    (hstored : c.getBlock (b.id H) = some b) (hmap : c.proposals (b.id H) = none)
    (hq : q.blockID = b.id H) (hproposed : msg.Proposes b) (hround : q.round = msg.round) :
    LookupsAgree H c b q ↔ msg.InNextRound := by
  have hget : c.getDraft (b.id H) = some (.stored c.nextRef b b.number (b.qc.round + 1)) := by
    unfold Chain.getDraft
    rw [hmap, hstored]
    rfl
  have hescort : c.getDraftByEscortQC q = some (.stored c.nextRef b b.number q.round) := by
    unfold Chain.getDraftByEscortQC
    rw [hq, hmap, hstored, QuorumCert.number, hq, Block.number_id]
    rfl
  obtain ⟨blk, appHash, hblk, rfl⟩ := hproposed
  constructor
  · rintro ⟨d, d', hd, hd', -, hsame, -, -⟩
    obtain rfl := Option.some.inj (hget.symm.trans hd)
    obtain rfl := Option.some.inj (hescort.symm.trans hd')
    exact ⟨blk, hblk, hround.symm.trans hsame.symm⟩
  · rintro ⟨blk', hblk', hsame⟩
    obtain rfl := Option.some.inj (hblk.symm.trans hblk')
    exact ⟨_, _, hget, hescort, rfl, (hround.trans hsame).symm, rfl, rfl⟩

namespace Testnet

/-- The certificate of a timeout that takes the committee to a round. -/
def timeoutCertificate (round : UInt32) : TimeoutCert where
  epoch := 1
  round := round
  bitArray := some ⟨4, [7]⟩
  msgHash := buildTimeoutVotingHash hashes 1 round
  aggSig := Bytes32.bytes (buildTimeoutVotingHash hashes 1 round) ++ [0, 1, 2]

/-- A proposal of the first validator after a timeout. -/
def lateProposal (b : Block) (round : UInt32) : PMProposalMessage :=
  let msg := proposalMessage 0 1 round b (some (timeoutCertificate round))
  { msg with msgSignature := bls.sign [0] ((ConsensusMessage.proposal msg).getMsgHash hashes) }

/-- The first of four blocks in a row. It is proposed in some round, and the
others in the rounds after that one. -/
def row₁ : Block := block genesis 1 genesisQC []

def row₂ (round : UInt32) : Block := block row₁ 2 (certificate row₁ round) []

def row₃ (round : UInt32) : Block := block (row₂ round) 3 (certificate (row₂ round) (round + 1)) []

def row₄ (round : UInt32) : Block := block (row₃ round) 4 (certificate (row₃ round) (round + 2)) []

def row (round : UInt32) : List Input :=
  [.receive (.proposal (lateProposal row₁ round)) [], .enter 0, .loop .message]
    ++ deliver (row₂ round) (round + 1) ++ deliver (row₃ round) (round + 2)
    ++ deliver (row₄ round) (round + 3)

theorem blockID_certificate (b : Block) (round : UInt32) :
    (certificate b round).blockID = b.id hashes := rfl

/-- **The first block was proposed in the first round**, is committed and has
left the map: the lookups agree. -/
theorem lookupsAgree_row :
    ∃ p₀, start 1 = .ok p₀ ∧ let p := p₀.play env (row 1)
      p.chain.getBlock (row₁.id hashes) = some row₁ ∧ p.chain.proposals (row₁.id hashes) = none
        ∧ LookupsAgree hashes p.chain row₁ (certificate row₁ 1) := by
  obtain ⟨p₀, hstart, htest⟩ := exists_of_start (k := 1)
    (fun p₀ => decide ((p₀.play env (row 1)).chain.getBlock (row₁.id hashes) = some row₁)
      && ((p₀.play env (row 1)).chain.proposals (row₁.id hashes)).isNone) (by decide +kernel)
  obtain ⟨hstored, hmap⟩ := Bool.and_eq_true_iff.mp htest
  have hstored := of_decide_eq_true hstored
  have hmap := Option.isNone_iff_eq_none.mp hmap
  have hdecoded : (lateProposal row₁ 1).decodedBlock = some row₁ := by decide +kernel
  have hproposes : (lateProposal row₁ 1).Proposes row₁ :=
    ⟨row₁, row₁.header.appHash, hdecoded, (Block.withAppHash_self row₁).symm⟩
  have hround : (certificate row₁ 1).round = (lateProposal row₁ 1).round := by decide +kernel
  have hq : (certificate row₁ 1).blockID = row₁.id hashes := blockID_certificate row₁ 1
  refine ⟨p₀, hstart, hstored, hmap, (lookupsAgree_iff hstored hmap hq hproposes hround).mpr ?_⟩
  exact ⟨row₁, hdecoded, by decide +kernel⟩

/-- **It was proposed in the fifth round, after timeouts**: `Get` takes it for
a block of the first round. -/
theorem lookups_differ_after_timeouts :
    ∃ p₀, start 1 = .ok p₀ ∧ let p := p₀.play env (row 5)
      p.chain.getBlock (row₁.id hashes) = some row₁ ∧ p.chain.proposals (row₁.id hashes) = none
        ∧ ¬ LookupsAgree hashes p.chain row₁ (certificate row₁ 5) := by
  obtain ⟨p₀, hstart, htest⟩ := exists_of_start (k := 1)
    (fun p₀ => let c := (p₀.play env (row 5)).chain
      decide (c.getBlock (row₁.id hashes) = some row₁) && (c.proposals (row₁.id hashes)).isNone
        && (c.getDraft (row₁.id hashes)).all (fun d => d.round == 1)
        && (c.getDraftByEscortQC (certificate row₁ 5)).all (fun d => d.round == 5))
    (by decide +kernel)
  simp only [Bool.and_eq_true, decide_eq_true_iff, Option.isNone_iff_eq_none] at htest
  obtain ⟨⟨⟨hstored, hmap⟩, hget⟩, hescort⟩ := htest
  refine ⟨p₀, hstart, hstored, hmap, ?_⟩
  rintro ⟨d, d', hd, hd', -, hround, -, -⟩
  rw [hd, Option.all_some, beq_iff_eq] at hget
  rw [hd', Option.all_some, beq_iff_eq, ← hround, hget] at hescort
  exact absurd hescort (by decide)

end Testnet

/-! ## Answering a query -/

/-- Where the answer to a query may stop: at a committed draft, and at the one
that was asked for. -/
def Chain.Stops (H : Hashes) (c : Chain) (id : Bytes32) (x : DraftInfo) : Prop :=
  c.isCommitted x = true ∨ id = x.proposedBlock.id H

instance (H : Hashes) (c : Chain) (id : Bytes32) : DecidablePred (c.Stops H id) :=
  fun _ => inferInstanceAs (Decidable (_ ∨ _))

/-- **An answer without gaps**: uncommitted drafts in ascending order, each the
parent of the next, the last one the draft at the top, and the parent of the
first one is where the answer may stop. -/
structure WithoutGaps (H : Hashes) (c : Chain) (id : Bytes32) (head : DraftBlock)
    (answer : List DraftInfo) : Prop where
  uncommitted : ∀ x ∈ answer, c.isCommitted x = false
  ascending : answer.Pairwise (fun x y => x.height < y.height)
  linked : ∃ x rest, head.chain = answer.reverse ++ x :: rest ∧ c.Stops H id x

/-- The loop takes what comes before the first draft it may stop at, and four
at most. -/
theorem Chain.proposalsUpTo_eq (id : Bytes32) (n : ℕ) (l result : List DraftInfo) :
    c.proposalsUpTo H id n l result
      = ((l.takeWhile (fun x => ¬ c.Stops H id x)).take n).reverse ++ result := by
  induction n generalizing l result with
  | zero => cases l <;> rfl
  | succ n ih =>
    cases l with
    | nil => rfl
    | cons x l =>
      unfold proposalsUpTo
      by_cases hcommitted : c.isCommitted x = true
      · rw [if_pos hcommitted, List.takeWhile_cons_of_neg (by simp [Stops, hcommitted])]
        rfl
      · rw [if_neg hcommitted]
        by_cases hid : id = x.proposedBlock.id H
        · rw [if_pos hid, List.takeWhile_cons_of_neg (by simp [Stops, hid])]
          rfl
        · rw [if_neg hid, ih, List.takeWhile_cons_of_pos (by simp [Stops, hcommitted, hid]),
            List.take_succ_cons, List.reverse_cons, List.append_assoc]
          rfl

/-- What comes after four drafts at most is among the first five. -/
theorem mem_take_five {l rest : List DraftInfo} (x : DraftInfo) (hlength : l.length ≤ 4) :
    x ∈ (l ++ x :: rest).take 5 := by
  obtain ⟨n, hn⟩ : ∃ n, 5 - l.length = n + 1 := ⟨4 - l.length, by omega⟩
  rw [List.take_append, hn, List.take_succ_cons]
  exact List.mem_append_right _ List.mem_cons_self

/-- **The answer to a query has no gaps exactly if it can stop** within five
drafts from the top. -/
theorem withoutGaps_iff {id : Bytes32} {q : QuorumCert} {committed head : DraftBlock}
    (htree : c.IsTree H (BlockLink H)) (hcommitted : c.getDraft id = some committed)
    (hhead : c.getDraftByEscortQC q = some head) :
    WithoutGaps H c id head (c.getDraftsUpTo H id q)
      ↔ ∃ x ∈ head.chain.take 5, c.Stops H id x := by
  have hanswer : c.getDraftsUpTo H id q
      = ((head.chain.takeWhile (fun x => ¬ c.Stops H id x)).take 4).reverse := by
    unfold Chain.getDraftsUpTo
    rw [hcommitted, hhead]
    dsimp only
    rw [(htree.inTree_of_getDraft hcommitted).keyed, Chain.proposalsUpTo_eq, List.append_nil]
  have hin := htree.inTree_of_getDraftByEscortQC hhead
  have hdown := pairwise_height hin.linked hin.height_eq
  have hsplit := List.takeWhile_append_dropWhile (p := fun x => decide (¬ c.Stops H id x))
    (l := head.chain)
  have hbefore : ∀ x ∈ head.chain.takeWhile (fun x => ¬ c.Stops H id x), ¬ c.Stops H id x :=
    fun x hx => by simpa using List.mem_takeWhile_imp hx
  have hafter := List.head?_dropWhile_not (fun x => decide (¬ c.Stops H id x)) head.chain
  rw [hanswer]
  generalize head.chain.takeWhile (fun x => ¬ c.Stops H id x) = before at hsplit hbefore ⊢
  generalize head.chain.dropWhile (fun x => ¬ c.Stops H id x) = after at hsplit hafter
  rw [← hsplit] at hdown ⊢
  constructor
  · rintro ⟨-, -, x, rest, hchain, hstops⟩
    refine ⟨x, ?_, hstops⟩
    rw [hsplit, hchain, List.reverse_reverse]
    exact mem_take_five x (List.length_take_le ..)
  · rintro ⟨x, hx, hstops⟩
    -- the draft is not among those before, so these are four at most
    have hlength : before.length ≤ 4 := by
      by_contra hlong
      rw [List.take_append_of_le_length (by omega)] at hx
      exact hbefore x (List.mem_of_mem_take hx) hstops
    rw [List.take_of_length_le hlength]
    cases after with
    | nil =>
      rw [List.append_nil] at hx
      exact absurd hstops (hbefore x (List.mem_of_mem_take hx))
    | cons y rest =>
      refine ⟨fun z hz => ?_, ?_, y, rest, by rw [List.reverse_reverse, hsplit],
        by simpa using hafter⟩
      · have hnot := hbefore z (List.mem_reverse.mp hz)
        exact Bool.eq_false_iff.mpr fun h => hnot (.inl h)
      · rw [List.pairwise_reverse]
        exact (List.pairwise_append.mp hdown).1

namespace Testnet

/-- **A node that has the genesis asks for what is above it**, and gets the two
drafts there are. -/
theorem answer_threeDrafts :
    let answer := threeDrafts.getDraftsUpTo hashes (genesis.id hashes) (certificate second 2)
    answer.length = 2 ∧ WithoutGaps hashes threeDrafts (genesis.id hashes) secondDraft answer := by
  have hne₂ : genesis.id hashes ≠ secondDraft.proposedBlock.id hashes := by decide +kernel
  have hne₁ : genesis.id hashes ≠ firstDraft.proposedBlock.id hashes := by decide +kernel
  have hroot : threeDrafts.getDraft (genesis.id hashes) = some rootDraft :=
    Chain.getDraft_of_mem ((Chain.proposals_addDraft_of_ne hne₂).trans
      ((Chain.proposals_addDraft_of_ne hne₁).trans (Chain.proposals_addDraft_self rootDraft)))
  have hq : (certificate second 2).blockID = secondDraft.proposedBlock.id hashes :=
    blockID_certificate second 2
  have hhead : threeDrafts.getDraftByEscortQC (certificate second 2) = some secondDraft := by
    refine Chain.getDraftByEscortQC_of_mem ?_ (by decide +kernel)
    rw [hq]
    exact Chain.proposals_addDraft_self secondDraft
  have hmem : rootDraft.toDraftInfo ∈ secondDraft.chain.take 5 :=
    List.mem_cons_of_mem _ (List.mem_cons_of_mem _ List.mem_cons_self)
  exact ⟨by decide +kernel, (withoutGaps_iff isTree_threeDrafts hroot hhead).mpr
    ⟨rootDraft.toDraftInfo, hmem, .inl rfl⟩⟩

/-- Five blocks in a row, all with the certificate of the genesis. -/
def uncertified : ℕ → Block
  | 0 => genesis
  | n + 1 => block (uncertified n) (UInt64.ofNat (n + 1)) genesisQC []

/-- **A query is answered with a gap**: of five uncommitted drafts the lowest
is left out. -/
theorem query_leaves_gap :
    ∃ p₀, start 1 = .ok p₀ ∧ let c := (p₀.play env ([1, 2, 3, 4, 5].flatMap
        (fun n => deliver (uncertified n) (UInt32.ofNat n)))).chain
      ∃ head, c.getDraftByEscortQC (certificate (uncertified 5) 5) = some head
        ∧ genesis.id hashes ∈ head.chain.map (fun x => x.proposedBlock.id hashes)
        ∧ ¬ WithoutGaps hashes c (genesis.id hashes) head
          (c.getDraftsUpTo hashes (genesis.id hashes) (certificate (uncertified 5) 5)) := by
  obtain ⟨p₀, hstart, htest⟩ := exists_of_start (k := 1)
    (fun p₀ => let c := (p₀.play env ([1, 2, 3, 4, 5].flatMap
        (fun n => deliver (uncertified n) (UInt32.ofNat n)))).chain
      (c.getDraftByEscortQC (certificate (uncertified 5) 5)).any (fun head : DraftBlock => decide
        (genesis.id hashes ∈ head.chain.map (fun x => x.proposedBlock.id hashes)
        ∧ (c.getDraftsUpTo hashes (genesis.id hashes) (certificate (uncertified 5) 5)).length ≤ 4
        ∧ ∀ x ∈ head.chain.take 5, ¬ c.Stops hashes (genesis.id hashes) x)))
    (by decide +kernel)
  obtain ⟨head, hhead, htest⟩ := (Option.any_eq_true _ _).mp htest
  obtain ⟨hdescends, hlength, hnever⟩ := of_decide_eq_true htest
  refine ⟨p₀, hstart, head, hhead, hdescends, ?_⟩
  rintro ⟨-, -, x, rest, hchain, hstops⟩
  refine hnever x ?_ hstops
  rw [hchain]
  exact mem_take_five x (by rwa [List.length_reverse])

end Testnet

end LoragonBFT
