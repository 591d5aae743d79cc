import Mathlib.Data.List.Chain
import LoragonBFT.Pacemaker.DraftTree

/-!
# The lists handed to `OnCommit`

`Update` collects the blocks to commit by walking the parent pointers of the
certified draft, down to the height of the last committed block. The walk
compares heights and nothing else, so the list is a segment of the chain on
top of the last committed block only if that block is on the draft's branch.
For a certificate that comes with a proposal this was checked before the
vote; for a certificate that a timeout message completes, nothing is checked.
And the certificate paired with a block is the one its child carries, which
is the block's own only where certificates match.
-/

namespace LoragonBFT

variable {E : Env} {s : Pacemaker} {i : Input}

/-- The blocks form a segment of the chain on top of `prev`, and each is
paired with a certificate of its own. -/
def IsSegment (H : Hashes) : Bytes32 → List CommitReadyBlock → Prop
  | _, [] => True
  | prev, b :: rest => ∃ d qc, b.block = some d ∧ b.escortQC = some qc
      ∧ d.proposedBlock.parentID = prev ∧ qc.blockID = d.proposedBlock.id H
      ∧ IsSegment H (d.proposedBlock.id H) rest

/-- **Commit lists are chain segments**: every list `OnCommit` was called
with is one on top of the block committed last. -/
def CommitListsAreSegments (H : Hashes) (trace : List Event) : Prop :=
  ∀ last commitReady, Event.onCommit last commitReady ∈ trace →
    IsSegment H (last.id H) commitReady

/-! ## The walk -/

/-- Every block of the list is an ancestor of the draft, above the last
committed number, paired with the certificate of the draft that stands on
it. -/
theorem mem_commitReadyBlocks {lastNum : UInt32} (tmp : DraftInfo) (ancestors : List DraftInfo)
    (acc : List CommitReadyBlock) {l : List CommitReadyBlock}
    (h : commitReadyBlocks lastNum tmp ancestors acc = .ok l) {b : CommitReadyBlock} (hb : b ∈ l) :
    b ∈ acc ∨ ∃ y x rest, b = ⟨some ⟨x, rest⟩, some y.proposedBlock.qc⟩
      ∧ (y :: x :: rest) <:+ (tmp :: ancestors) ∧ x ∈ ancestors ∧ lastNum < x.height := by
  induction ancestors generalizing tmp acc with
  | nil => exact nomatch h
  | cons parent rest ih =>
    unfold commitReadyBlocks at h
    split at h
    · rename_i hhigh
      rcases ih parent _ h with hacc | ⟨y, x, rest', hx, hsuffix, hmem, hlast⟩
      · rcases List.mem_cons.mp hacc with rfl | hacc
        · exact .inr ⟨tmp, parent, rest, rfl, List.suffix_refl _, List.mem_cons_self, hhigh⟩
        · exact .inl hacc
      · exact .inr ⟨y, x, rest', hx, hsuffix.trans (List.suffix_cons _ _),
          List.mem_cons_of_mem _ hmem, hlast⟩
    · exact .inl (Except.ok.inj h ▸ hb)

variable {H : Hashes} {trace : List Event}

/-- **The walk of `Update`.** What it collects is a segment on top of a draft
as high as the last committed block, or nothing. -/
theorem commitReadyBlocks_isSegment {lastNum : UInt32} (tmp : DraftInfo)
    (ancestors : List DraftInfo) (acc commitReady : List CommitReadyBlock)
    (hlinked : (tmp :: ancestors).IsChain (CertifiedLink H))
    (hheight : ∀ x ∈ tmp :: ancestors, x.height = x.proposedBlock.number)
    (hacc : IsSegment H tmp.proposedBlock.parentID acc) (htop : acc ≠ [] → tmp.height > lastNum)
    (h : commitReadyBlocks lastNum tmp ancestors acc = .ok commitReady) :
    commitReady = [] ∨ ∃ x ∈ ancestors, x.height = lastNum
      ∧ IsSegment H (x.proposedBlock.id H) commitReady := by
  induction ancestors generalizing tmp acc with
  | nil => exact nomatch h
  | cons parent rest ih =>
    obtain ⟨hlink, hrest⟩ := List.isChain_cons_cons.mp hlinked
    have hheight' : ∀ x ∈ parent :: rest, x.height = x.proposedBlock.number :=
      fun x hx => hheight x (List.mem_cons_of_mem _ hx)
    have hdown := hlink.blockLink.height_eq (hheight tmp List.mem_cons_self)
      (hheight' parent List.mem_cons_self)
    unfold commitReadyBlocks at h
    split at h
    · -- the parent is collected, with the certificate `tmp` carries
      rename_i hhigh
      have hacc' : IsSegment H parent.proposedBlock.parentID
          (⟨some ⟨parent, rest⟩, some tmp.proposedBlock.qc⟩ :: acc) :=
        ⟨⟨parent, rest⟩, tmp.proposedBlock.qc, rfl, rfl, rfl, hlink.blockID_eq,
          hlink.parentID_eq ▸ hacc⟩
      rcases ih parent _ hrest hheight' hacc' (fun _ => hhigh) h with hnil | ⟨x, hx, hrest'⟩
      · exact .inl hnil
      · exact .inr ⟨x, List.mem_cons_of_mem _ hx, hrest'⟩
    · -- the parent is not above the last committed number: the walk ends
      rename_i hlow
      obtain rfl := Except.ok.inj h
      by_cases hnil : acc = []
      · exact .inl hnil
      · refine .inr ⟨parent, List.mem_cons_self, ?_, hlink.parentID_eq ▸ hacc⟩
        have htop' := htop hnil
        rw [gt_iff_lt, UInt32.lt_iff_toNat_lt] at htop' hlow
        exact UInt32.toNat.inj (by omega)

/-- **Drafts of one branch with one height are one draft.** -/
theorem eq_of_height_eq (l : List DraftInfo) (hlinked : l.IsChain (CertifiedLink H))
    (hheight : ∀ x ∈ l, x.height = x.proposedBlock.number) {x y : DraftInfo} (hx : x ∈ l)
    (hy : y ∈ l) (h : x.height = y.height) : x = y := by
  induction l with
  | nil => exact absurd hx List.not_mem_nil
  | cons z l ih =>
    have hlt := height_lt_of_mem z l (hlinked.imp fun _ _ => CertifiedLink.blockLink) hheight
    rcases List.mem_cons.mp hx with rfl | hx' <;> rcases List.mem_cons.mp hy with rfl | hy'
    · rfl
    · exact absurd (hlt y hy') (h ▸ Nat.lt_irrefl _)
    · exact absurd (hlt x hx') (h ▸ Nat.lt_irrefl _)
    · exact ih hlinked.tail (fun x hx => hheight x (List.mem_cons_of_mem _ hx)) hx' hy'

/-- **The list `Update` hands on is a segment on top of the last committed
block** if that block is on the branch of the draft, or right above it. -/
theorem commitReadyBlocks_of_mem {last : Block} {d : DraftBlock} {l : List DraftInfo}
    (hlinked : (l ++ d.chain).IsChain (CertifiedLink H))
    (hheight : ∀ x ∈ l ++ d.chain, x.height = x.proposedBlock.number) {x : DraftInfo}
    (hx : x ∈ l ++ d.chain) (hid : x.proposedBlock.id H = last.id H)
    {commitReady : List CommitReadyBlock}
    (h : commitReadyBlocks last.number d.toDraftInfo d.ancestors [] = .ok commitReady) :
    IsSegment H (last.id H) commitReady := by
  have hnumber : x.height = last.number := by
    rw [hheight x hx, ← Block.number_id H x.proposedBlock, hid, Block.number_id]
  rcases commitReadyBlocks_isSegment d.toDraftInfo d.ancestors [] commitReady
      hlinked.right_of_append (fun y hy => hheight y (List.mem_append_right _ hy)) trivial
      (fun h => absurd rfl h) h with rfl | ⟨y, hy, hheighty, hsegment⟩
  · trivial
  · have hy' : y ∈ l ++ d.chain := List.mem_append_right _ (List.mem_cons_of_mem _ hy)
    obtain rfl := eq_of_height_eq _ hlinked hheight hx hy' (hnumber.trans hheighty.symm)
    rw [← hid]
    exact hsegment

/-! ## The steps -/

/-- What a step needs for its commit list to be a segment: certificates that
match, and, for a timeout message, that the draft its sender voted for last
is on the branch of the last committed block. -/
structure CommitsExtend (E : Env) (p : Pacemaker) (i : Input) : Prop extends
    CertificatesMatch p i where
  timeout : ∀ msg d, p.Handles i (.timeout msg) →
    p.chain.proposals msg.lastVoteBlockID = some d → d.round = msg.lastVoteRound →
    ∃ x ∈ d.chain, x.proposedBlock.id E.H = p.lastCommitted.id E.H

/-- `Update` is only interested in a draft of the map. -/
theorem Core.IsEscortDraft.in_map {c : Core} {qc : QuorumCert} {d : DraftBlock}
    (h : c.IsEscortDraft qc d) (huncommitted : d.committed = false) :
    c.proposals qc.blockID = some d ∧ d.round = qc.round := by
  rcases h with h | ⟨-, blk, ref, -, rfl⟩
  · exact h
  · exact nomatch huncommitted

/-- The draft that a matching certificate belongs to is the parent. -/
theorem parent_eq_of_match {c : Core} {msg : PMProposalMessage} {blk : Block}
    {parent bnew bPrime : DraftBlock} (haccepted : Accepted E s i msg blk parent bnew)
    (hnumber : blk.number ≠ 0) (hid : blk.qc.blockID = blk.parentID)
    (hdrafts : c.proposals = s.chain.proposals
      ∨ s.chain.proposals (blk.id E.H) = none
        ∧ c.proposals = Function.update s.chain.proposals (blk.id E.H) (some bnew))
    (hprime : c.proposals blk.qc.blockID = some bPrime) : parent = bPrime := by
  -- a block is not its own parent: the numbers differ
  have hne : blk.parentID ≠ blk.id E.H := by
    intro heq
    have hsucc := Block.number_eq_of_ne hnumber
    rw [heq, Block.number_id] at hsucc
    exact absurd hsucc (by simp)
  have hmap : s.core.proposals blk.parentID = some bPrime := by
    rw [hid] at hprime
    rcases hdrafts with hsame | ⟨-, hupdate⟩
    · rw [hsame] at hprime
      exact hprime
    · rw [hupdate, Function.update_of_ne hne] at hprime
      exact hprime
  rcases haccepted.parent_isDraft with hparent | ⟨hnone, -⟩
  · exact Option.some.inj (hparent.symm.trans hmap)
  · exact nomatch hnone.symm.trans hmap

/-- **The commit list of an action is a segment.** -/
theorem commitList_isSegment {c : Core} {qc : QuorumCert} {bPrime : DraftBlock}
    {commitReady : List CommitReadyBlock} (hok : CommitsExtend E s i)
    (hs : DraftTree E.H (CertifiedLink E.H) s.core) (hc : DraftTree E.H (CertifiedLink E.H) c)
    (hsource : UpdateSource E s i c qc) (hprime : c.IsEscortDraft qc bPrime)
    (huncommitted : bPrime.committed = false)
    (hwalk : commitReadyBlocks c.lastCommitted.number bPrime.toDraftInfo bPrime.ancestors []
      = .ok commitReady) : IsSegment E.H (c.lastCommitted.id E.H) commitReady := by
  obtain ⟨hmap, hround⟩ := hprime.in_map huncommitted
  have htree := hc.inTree hmap
  cases hsource with
  | proposal msg blk parent bnew haccepted hqc hvalid hextended hkv hdrafts =>
    subst hqc
    have hparent := hs.inTree_of_isDraft haccepted.parent_isDraft
    have hlink := CertifiedLink.of_accepted hok.toCertificatesMatch haccepted hparent
    obtain ⟨hnumber, hid, -⟩ := hok.proposal msg blk parent haccepted.handles haccepted.decoded
      haccepted.parent_isDraft
    obtain rfl := parent_eq_of_match haccepted hnumber hid hdrafts hmap
    have hbnew : InTree E.H (CertifiedLink E.H) (bnew.proposedBlock.id E.H) bnew := by
      obtain ⟨ref, hbnew⟩ := haccepted.bnew_eq
      exact hparent.cons (by rw [hbnew]; rfl) (by rw [hbnew]; rfl) hlink
    have hchain : bnew.chain = [bnew.toDraftInfo] ++ parent.chain := by
      obtain ⟨ref, hbnew⟩ := haccepted.bnew_eq
      rw [hbnew]
      rfl
    -- the last committed block is on the new draft's branch
    obtain ⟨x, hx, hxid⟩ := hextended
    exact commitReadyBlocks_of_mem (hchain ▸ hbnew.linked) (hchain ▸ hbnew.height_eq)
      (hchain ▸ List.mem_of_mem_take hx) hxid hwalk
  | timeout msg hhandles hformed hdrafts hlast =>
    obtain ⟨hid, hround', -⟩ := EpochState.eq_of_addQCVote hformed
    rw [hdrafts, hid] at hmap
    obtain ⟨x, hx, hxid⟩ := hok.timeout msg bPrime hhandles hmap (hround.trans hround')
    rw [← hlast] at hxid
    have hnil : ([] : List DraftInfo) ++ bPrime.chain = bPrime.chain := List.nil_append _
    exact commitReadyBlocks_of_mem (l := []) (hnil ▸ htree.linked) (hnil ▸ htree.height_eq)
      (hnil ▸ hx) hxid hwalk

/-- Only `OnCommit` adds a commit list to the trace. -/
theorem CommitListsAreSegments.append {e : Event} (h : CommitListsAreSegments H trace)
    (he : ∀ last commitReady, e = .onCommit last commitReady →
      IsSegment H (last.id H) commitReady) :
    CommitListsAreSegments H (trace ++ [e]) := by
  intro last commitReady hmem
  rcases List.mem_append.mp hmem with hold | hnew
  · exact h last commitReady hold
  · exact he last commitReady (List.mem_singleton.mp hnew).symm

theorem CommitListsAreSegments.step {c c' : Core} (hok : CommitsExtend E s i)
    (hs : DraftTree E.H (CertifiedLink E.H) s.core) (hc : DraftTree E.H (CertifiedLink E.H) c)
    (hstep : CoreStep E s i c c') (h : CommitListsAreSegments E.H c.trace) :
    CommitListsAreSegments E.H c'.trace := by
  cases hstep with
  | commitList qc bPrime commitReady hsource hprime huncommitted hwalk =>
    refine h.append fun last l hl => ?_
    obtain ⟨rfl, rfl⟩ := Event.onCommit.inj hl
    exact commitList_isSegment hok hs hc hsource hprime huncommitted hwalk
  | record e hquiet =>
    refine h.append fun last l hl => ?_
    rw [hl] at hquiet
    exact nomatch hquiet
  | vote => exact h.append fun _ _ hl => nomatch hl
  | sendVote => exact h.append fun _ _ hl => nomatch hl
  | propose => exact h.append fun _ _ hl => nomatch hl
  | _ => exact h

/-- **Commit lists are chain segments** in every run whose steps all meet the
condition. -/
theorem commitListsAreSegments_of_commitsExtend {chain : Chain} {app : App} {myPubKey : Bytes}
    {now : Time} {p₀ p : Pacemaker} (hchain : chain.Fresh E.H)
    (hstart : startPacemaker E chain app myPubKey now = .ok p₀)
    (hrun : Run E (CommitsExtend E) p₀ p) : CommitListsAreSegments E.H p.trace := by
  have htree₀ : DraftTree E.H (CertifiedLink E.H) p₀.core := DraftTree.start hchain hstart
  have htrace₀ : CommitListsAreSegments E.H p₀.core.trace := by
    obtain ⟨bestNode, es, -, -, round, hcore⟩ := startPacemaker_core hstart
    rw [hcore]
    exact fun _ _ h => absurd h List.not_mem_nil
  have hboth : DraftTree E.H (CertifiedLink E.H) p.core
      ∧ CommitListsAreSegments E.H p.core.trace := by
    refine Run.core_invariant (P := fun c => DraftTree E.H (CertifiedLink E.H) c
      ∧ CommitListsAreSegments E.H c.trace) hrun ⟨htree₀, htrace₀⟩ ?_
    intro q i hok hq c c' hstep _ hc
    refine ⟨?_, ?_⟩
    · exact certifiedTree_step hok.toCertificatesMatch hstep hq.1 hc.1
    · exact CommitListsAreSegments.step hok hq.1 hc.1 hstep hc.2
  exact hboth.2

/-- A test for `CommitsExtend` on inputs that are neither beats nor timeout
messages. -/
def extendTest (p : Pacemaker) (i : Input) : Bool :=
  matchTest p i && match i, p.inQueue.head?.map IncomingMsg.msg with
    | .loop .message, some (.timeout _) => false
    | _, _ => true

theorem CommitsExtend.of_test {p : Pacemaker} {i : Input} (h : extendTest p i = true) :
    CommitsExtend E p i := by
  obtain ⟨hmatch, htimeout⟩ := Bool.and_eq_true_iff.mp h
  refine ⟨.of_test hmatch, ?_⟩
  rintro msg d ⟨rfl, mi, rest, hqueue, hmsg⟩
  simp [hqueue, hmsg] at htimeout

/-- The lists a node handed to `OnCommit`. -/
def commitLists (trace : List Event) : List (Block × List CommitReadyBlock) :=
  trace.filterMap (fun e => match e with | .onCommit last l => some (last, l) | _ => none)

theorem mem_commitLists {last : Block} {l : List CommitReadyBlock}
    (h : (last, l) ∈ commitLists trace) : Event.onCommit last l ∈ trace := by
  obtain ⟨e, he, heq⟩ := List.mem_filterMap.mp h
  cases e with
  | onCommit last' l' =>
    obtain ⟨rfl, rfl⟩ := Prod.mk.inj (Option.some.inj heq)
    exact he
  | _ => exact nomatch heq

open Testnet in
/-- Three blocks in a row, each with its parent's certificate: the first one
is committed. -/
theorem commitListsAreSegments_of_three_blocks :
    ∃ p₀, start 1 = .ok p₀
      ∧ let b := block genesis 1 genesisQC []
        let b' := block b 2 (certificate b 1) []
        let p := p₀.play env
          (deliver b 1 ++ deliver b' 2 ++ deliver (block b' 3 (certificate b' 2) []) 3)
        ((commitLists p.trace).map (fun l => l.2.length)) = [0, 1]
          ∧ Run env (CommitsExtend env) p₀ p ∧ CommitListsAreSegments hashes p.trace := by
  obtain ⟨p₀, hstart, htest⟩ := exists_of_start (k := 1)
    (fun p₀ =>
      let b := block genesis 1 genesisQC []
      let b' := block b 2 (certificate b 1) []
      let inputs := deliver b 1 ++ deliver b' 2 ++ deliver (block b' 3 (certificate b' 2) []) 3
      Machine.passes (Pacemaker.step env) extendTest p₀ inputs
        && decide ((commitLists (p₀.play env inputs).trace).map (fun l => l.2.length) = [0, 1]))
    (by decide +kernel)
  obtain ⟨hpasses, hlists⟩ := Bool.and_eq_true_iff.mp htest
  have hplays : Machine.Plays (Pacemaker.step env) (CommitsExtend env) p₀ _ :=
    .of_test extendTest (fun _ _ => CommitsExtend.of_test) _ hpasses
  have hrun := Machine.Run.of_plays _ hplays
  exact ⟨p₀, hstart, of_decide_eq_true hlists, hrun,
    commitListsAreSegments_of_commitsExtend (E := env) fresh_chain hstart hrun⟩

/-- A test for a list that pairs a block with a certificate of another. -/
def strayTest (H : Hashes) (trace : List Event) : Bool :=
  (commitLists trace).any (fun l => l.2.head?.any (fun b => b.block.any (fun d =>
    b.escortQC.any (fun qc => decide (qc.blockID ≠ d.proposedBlock.id H)))))

theorem not_segments_of_test (htest : strayTest H trace = true) :
    ¬ CommitListsAreSegments H trace := by
  obtain ⟨⟨last, l⟩, hmem, hlist⟩ := List.any_eq_true.mp htest
  obtain ⟨b, hb, hblock⟩ := (Option.any_eq_true _ _).mp hlist
  obtain ⟨d, hd, hescort⟩ := (Option.any_eq_true _ _).mp hblock
  obtain ⟨qc, hqc, hne⟩ := (Option.any_eq_true _ _).mp hescort
  intro h
  have hsegment := h last l (mem_commitLists hmem)
  obtain ⟨rest, rfl⟩ : ∃ rest, l = b :: rest := List.head?_eq_some_iff.mp hb
  obtain ⟨d', qc', hd', hqc', -, hid, -⟩ := hsegment
  obtain rfl := Option.some.inj (hd.symm.trans hd')
  obtain rfl := Option.some.inj (hqc.symm.trans hqc')
  exact of_decide_eq_true hne hid

open Testnet in
/-- **A block is committed with the certificate of its parent**, because its
child carries that one. -/
theorem committed_with_parents_certificate :
    ∃ p₀, start 1 = .ok p₀
      ∧ let b := block genesis 1 genesisQC []
        let b' := block b 2 genesisQC []
        let p := p₀.play env
          (deliver b 1 ++ deliver b' 2 ++ deliver (block b' 3 (certificate b' 2) []) 3)
        Run env (fun _ _ => True) p₀ p ∧ ¬ CommitListsAreSegments hashes p.trace := by
  obtain ⟨p₀, hstart, htest⟩ := exists_of_start (k := 1)
    (fun p₀ =>
      let b := block genesis 1 genesisQC []
      let b' := block b 2 genesisQC []
      strayTest hashes (p₀.play env
        (deliver b 1 ++ deliver b' 2 ++ deliver (block b' 3 (certificate b' 2) []) 3)).trace)
    (by decide +kernel)
  exact ⟨p₀, hstart, Machine.run_play _ _,
    not_segments_of_test htest⟩

end LoragonBFT
