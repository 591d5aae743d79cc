import LoragonBFT.Testnet

/-!
# The tree of drafts

A draft is reached from the map under its block's identifier, and from it
the parent pointers lead back towards the committed blocks. Three things hold
of the drafts whatever a node is sent: the identifiers fit, the height of a
draft is its block's number, and the pointer goes to the draft of the block
that the header names as the parent.

What `Update` relies on is more: that a draft's certificate is the one of its
parent. Drafts enter the map in three places, and two of them can break it.
A received proposal has its certificate checked for validity, against the
parent block, but past the first blocks `VerifyQC` does not compare the two,
and no other check does. And a block of the node's own is built on the draft
that is looked up for the highest certificate, which need not be the draft
that certificate points to.

The invariant is stated for an arbitrary relation between a draft and its
parent (`DraftTree`): a step keeps it if the drafts that the step adds are so
related. The links by identifier and the links by certificate are two
instances, and the agreement proof uses a third.
-/

namespace LoragonBFT

variable {E : Env} {s : Pacemaker} {i : Input}

/-- **The drafts form a tree** whose edges are related by `R`: child first,
parent second. -/
structure DraftTree (H : Hashes) (R : DraftInfo → DraftInfo → Prop) (c : Core) : Prop where
  /-- A stored block stands under its identifier. -/
  stored : ∀ id b, c.kv.blocks id = some b → b.id H = id
  /-- A draft stands under its block's identifier. -/
  keyed : ∀ id d, c.proposals id = some d → d.proposedBlock.id H = id
  height_eq : ∀ id d, c.proposals id = some d → ∀ x ∈ d.chain, x.height = x.proposedBlock.number
  linked : ∀ id d, c.proposals id = some d → d.chain.IsChain R

/-- What the tree says about one draft. -/
structure InTree (H : Hashes) (R : DraftInfo → DraftInfo → Prop) (id : Bytes32) (d : DraftBlock) :
    Prop where
  keyed : d.proposedBlock.id H = id
  height_eq : ∀ x ∈ d.chain, x.height = x.proposedBlock.number
  linked : d.chain.IsChain R

variable {id : Bytes32} {blk : Block} {round : UInt32} {d : DraftBlock} {p : Pacemaker}

/-- A draft made up from a stored block has no parent. -/
theorem InTree.stored {H : Hashes} {R : DraftInfo → DraftInfo → Prop} (ref : Ref) {height : UInt32}
    (hid : blk.id H = id) (hheight : height = number id) :
    InTree H R id (.stored ref blk height round) := by
  refine ⟨hid, fun x hx => ?_, .singleton _⟩
  rw [List.mem_singleton.mp hx]
  show height = blk.number
  rw [hheight, ← hid, Block.number_id]

namespace DraftTree

variable {H : Hashes} {R : DraftInfo → DraftInfo → Prop} {c : Core}

theorem inTree (h : DraftTree H R c) (hd : c.proposals id = some d) :
    InTree H R id d :=
  ⟨h.keyed id d hd, h.height_eq id d hd, h.linked id d hd⟩

theorem of_inTree (hstored : ∀ id b, c.kv.blocks id = some b → b.id H = id)
    (hdrafts : ∀ id d, c.proposals id = some d → InTree H R id d) : DraftTree H R c :=
  ⟨hstored, fun id d hd => (hdrafts id d hd).keyed, fun id d hd => (hdrafts id d hd).height_eq,
    fun id d hd => (hdrafts id d hd).linked⟩

theorem inTree_stored (h : DraftTree H R c) (ref : Ref) {height : UInt32}
    (hblk : c.kv.blocks id = some blk) (hheight : height = number id) :
    InTree H R id (.stored ref blk height round) :=
  .stored ref (h.stored id blk hblk) hheight

theorem inTree_of_isDraft (h : DraftTree H R c) (hd : c.IsDraft id d) : InTree H R id d := by
  rcases hd with hd | ⟨-, blk, ref, hblk, rfl⟩
  · exact h.inTree hd
  · refine h.inTree_stored ref hblk ?_
    rw [← h.stored id blk hblk, Block.number_id]

theorem inTree_of_isEscortDraft (h : DraftTree H R c) {qc : QuorumCert}
    (hd : c.IsEscortDraft qc d) : InTree H R qc.blockID d := by
  rcases hd with ⟨hd, -⟩ | ⟨-, blk, ref, hblk, rfl⟩
  · exact h.inTree hd
  · exact h.inTree_stored ref hblk rfl

/-- Adding a draft of the tree keeps the tree. -/
theorem addDraft (h : DraftTree H R c) (hd : InTree H R (d.proposedBlock.id H) d) :
    DraftTree H R (c.addDraft H d) := by
  refine of_inTree h.stored fun id d' hd' => ?_
  by_cases hid : id = d.proposedBlock.id H
  · subst hid
    have hsome : some d = some d' := by simpa [Core.addDraft] using hd'
    exact Option.some.inj hsome ▸ hd
  · refine h.inTree ?_
    simpa [Core.addDraft, Function.update_of_ne hid] using hd'

end DraftTree

/-- Growing a draft: the new draft on top of its parent. -/
theorem InTree.cons {H : Hashes} {R : DraftInfo → DraftInfo → Prop} {parent : DraftBlock}
    (h : InTree H R id parent) (hancestors : d.ancestors = parent.chain)
    (hheight : d.height = d.proposedBlock.number) (hR : R d.toDraftInfo parent.toDraftInfo) :
    InTree H R (d.proposedBlock.id H) d := by
  have hchain : d.chain = d.toDraftInfo :: parent.toDraftInfo :: parent.ancestors := by
    rw [DraftBlock.chain, hancestors, DraftBlock.chain]
  refine ⟨rfl, fun x hx => ?_, ?_⟩
  · rw [DraftBlock.chain, hancestors, List.mem_cons] at hx
    rcases hx with rfl | hx
    · exact hheight
    · exact h.height_eq x hx
  · rw [hchain]
    exact List.isChain_cons_cons.mpr ⟨hR, h.linked⟩

/-- **A step keeps the tree** if the drafts it adds are related to their
parents. -/
theorem DraftTree.step {R : DraftInfo → DraftInfo → Prop} {c c' : Core}
    (hstep : CoreStep E s i c c')
    (haccept : ∀ msg blk parent bnew, Accepted E s i msg blk parent bnew →
      qcID E.H blk.qc ∈ c.validQCs → InTree E.H R blk.parentID parent →
      R bnew.toDraftInfo parent.toDraftInfo)
    (hpropose : ∀ parent d p timestamp round txs msg, i = .loop .beat →
      s.core.IsEscortDraft s.qcHigh.qc parent → InTree E.H R s.qcHigh.qc.blockID parent →
      d = { buildBlock E p timestamp parent s.qcHigh round txs with msg := msg } →
      Event.proposed d ∈ c'.trace → R d.toDraftInfo parent.toDraftInfo)
    (hs : DraftTree E.H R s.core) (h : DraftTree E.H R c) : DraftTree E.H R c' := by
  cases hstep with
  | accept msg blk parent bnew haccepted hfresh hvalid =>
    have hparent := hs.inTree_of_isDraft haccepted.parent_isDraft
    obtain ⟨ref, hbnew⟩ := haccepted.bnew_eq
    refine h.addDraft (hparent.cons ?_ ?_ (haccept msg blk parent bnew haccepted hvalid hparent))
    · rw [hbnew]; rfl
    · rw [hbnew]; rfl
  | propose parent d hbeat hparent hd =>
    have hparent' := hs.inTree_of_isEscortDraft hparent
    obtain ⟨p, timestamp, round, txs, msg, hd⟩ := hd
    have hR := hpropose parent d p timestamp round txs msg hbeat hparent hparent' hd (by simp)
    have htree := h.addDraft (hparent'.cons (by rw [hd]; rfl) (by rw [hd]; rfl) hR)
    exact ⟨htree.stored, htree.keyed, htree.height_eq, htree.linked⟩
  | regulate bestNode es hcmd hbest =>
    have hbest' := hs.inTree_of_isEscortDraft hbest
    have htree := h.addDraft (d := bestNode) (hbest'.keyed.symm ▸ hbest')
    exact ⟨htree.stored, htree.keyed, htree.height_eq, htree.linked⟩
  | prune d refs =>
    refine .of_inTree h.stored fun id d' hd' => h.inTree ?_
    exact (Option.filter_eq_some_iff.mp hd').1
  | addBlock blk appHash kv best hsource hhigher hkv =>
    refine .of_inTree (fun id b hb => ?_) fun id d' hd' => h.inTree hd'
    rcases hkv with rfl | ⟨-, -, hblocks⟩
    · exact h.stored id b hb
    · have hb' : kv.blocks id = some b := hb
      rw [hblocks, Function.update_apply] at hb'
      split at hb'
      · rename_i hid
        rw [← Option.some.inj hb', Block.id_withAppHash, hid]
      · exact h.stored id b hb'
  | _ => exact ⟨h.stored, h.keyed, h.height_eq, h.linked⟩

/-- A chain as a node finds it when it starts: no drafts, and every stored
block under its identifier. -/
structure Chain.Fresh (H : Hashes) (c : Chain) : Prop where
  no_drafts : ∀ id, c.proposals id = none
  stored : ∀ id b, c.kv.blocks id = some b → b.id H = id

theorem Chain.fresh_initializeStore (E : Env) (genesis : Block) (vset nextVSet : ValidatorSet)
    (writeOK : ℕ → Bool) : (Chain.initializeStore E genesis vset nextVSet writeOK).Fresh E.H where
  no_drafts _ := rfl
  stored id b hb := by
    obtain ⟨rfl, rfl⟩ := Chain.eq_of_blocks_initializeStore hb
    rfl

/-- What is looked up in such a chain is made up from a stored block. -/
theorem Chain.Fresh.stored_of_lookup {H : Hashes} {c : Chain} (h : c.Fresh H) {qc : QuorumCert}
    (hd : c.getDraftByEscortQC qc = some d) :
    ∃ blk, c.kv.blocks qc.blockID = some blk ∧ d = .stored c.nextRef blk qc.number qc.round := by
  unfold Chain.getDraftByEscortQC at hd
  rw [h.no_drafts] at hd
  obtain ⟨blk, hblk, rfl⟩ := Option.map_eq_some_iff.mp hd
  exact ⟨blk, hblk, rfl⟩

/-- A node that has just started has one draft, without a parent. -/
theorem DraftTree.start {R : DraftInfo → DraftInfo → Prop} {chain : Chain} {app : App}
    {myPubKey : Bytes} {now : Time} (hchain : chain.Fresh E.H)
    (h : startPacemaker E chain app myPubKey now = .ok p) : DraftTree E.H R p.core := by
  obtain ⟨bestNode, es, hbest, -, round, hcore⟩ := startPacemaker_core h
  obtain ⟨blk, hblk, rfl⟩ := hchain.stored_of_lookup hbest
  have hid : blk.id E.H = chain.bestQC.blockID := hchain.stored _ blk hblk
  rw [hcore]
  refine .of_inTree hchain.stored fun id d hd => ?_
  simp only [Function.update_apply] at hd
  split at hd
  · rename_i hid'
    obtain rfl := Option.some.inj hd
    refine ⟨hid'.symm, fun x hx => ?_, .singleton _⟩
    rw [List.mem_singleton.mp hx]
    show number chain.bestQC.blockID = blk.number
    rw [← hid, Block.number_id]
  · rw [hchain.no_drafts] at hd
    exact nomatch hd

/-! ## Numbers -/

/-- A block that is not numbered zero has one number more than its parent. -/
theorem Block.number_eq_of_ne {b : Block} (h : b.number ≠ 0) :
    b.number = LoragonBFT.number b.parentID + 1 := by
  unfold Block.number Header.number at h ⊢
  split at h
  · exact absurd rfl h
  · rename_i hparent
    rw [if_neg hparent]
    rfl

/-- A number that is not zero, without the wrapping around. -/
theorem Header.toNat_number_of_ne {h : Header} (hne : h.number ≠ 0) :
    h.number.toNat = (LoragonBFT.number h.parentID).toNat + 1 := by
  unfold Header.number at hne ⊢
  split at hne
  · exact absurd rfl hne
  rename_i hparent
  have hsum : (LoragonBFT.number h.parentID + 1).toNat ≠ 0 := fun h0 =>
    hne (UInt32.toNat.inj h0)
  have hone : (1 : UInt32).toNat = 1 := rfl
  have hlt := (LoragonBFT.number h.parentID).toNat_lt
  rw [UInt32.toNat_add, hone] at hsum
  rw [if_neg hparent, UInt32.toNat_add, hone]
  omega

theorem Block.toNat_number_of_ne {b : Block} (h : b.number ≠ 0) :
    b.number.toNat = (LoragonBFT.number b.parentID).toNat + 1 :=
  Header.toNat_number_of_ne h

/-- A draft and its parent, by identifier and number. -/
structure BlockLink (H : Hashes) (d parent : DraftInfo) : Prop where
  parentID_eq : d.proposedBlock.parentID = parent.proposedBlock.id H
  number_ne : d.proposedBlock.number ≠ 0

/-- What a step needs for the numbers to go up by one from a block to its
child: that they do not wrap around. -/
structure NumbersGrow (p : Pacemaker) (i : Input) : Prop where
  proposal : ∀ msg blk, p.Handles i (.proposal msg) → msg.decodedBlock = some blk → blk.number ≠ 0
  beat : i = .loop .beat → p.qcHigh.qc.blockID ≠ 0 ∧ p.qcHigh.qc.number + 1 ≠ 0

theorem BlockLink.of_accepted {R : DraftInfo → DraftInfo → Prop} {msg : PMProposalMessage}
    {parent bnew : DraftBlock} (hok : NumbersGrow s i)
    (haccepted : Accepted E s i msg blk parent bnew) (hparent : InTree E.H R blk.parentID parent) :
    BlockLink E.H bnew.toDraftInfo parent.toDraftInfo := by
  obtain ⟨ref, rfl⟩ := haccepted.bnew_eq
  exact ⟨hparent.keyed.symm, hok.proposal msg blk haccepted.handles haccepted.decoded⟩

theorem BlockLink.of_proposed {R : DraftInfo → DraftInfo → Prop} {parent : DraftBlock}
    {timestamp : UInt64} {txs : List Bytes} {msg : Option PMProposalMessage} (hok : NumbersGrow s i)
    (hbeat : i = .loop .beat) (hparent : InTree E.H R s.qcHigh.qc.blockID parent)
    (hd : d = { buildBlock E p timestamp parent s.qcHigh round txs with msg := msg }) :
    BlockLink E.H d.toDraftInfo parent.toDraftInfo := by
  obtain ⟨hzero, hnumber⟩ := hok.beat hbeat
  subst hd
  refine ⟨rfl, ?_⟩
  show (if parent.proposedBlock.id E.H = 0 then 0
    else number (parent.proposedBlock.id E.H) + 1) ≠ 0
  rw [hparent.keyed, if_neg hzero]
  exact hnumber

/-- As long as the numbers do not wrap, the drafts are a tree after every
action. -/
theorem blockTree_steps {c : Core} (hok : NumbersGrow s i)
    (hs : DraftTree E.H (BlockLink E.H) s.core) (hsteps : CoreSteps E s i s.core c) :
    DraftTree E.H (BlockLink E.H) c := by
  induction hsteps with
  | refl => exact hs
  | tail _ hlast ih =>
    exact DraftTree.step hlast (fun _ _ _ _ haccepted _ hparent =>
      .of_accepted hok haccepted hparent)
      (fun _ _ _ _ _ _ _ hbeat _ hparent hd _ => .of_proposed hok hbeat hparent hd) hs ih

/-- Heights go down by one along the parent pointers. -/
theorem BlockLink.height_eq {H : Hashes} {d parent : DraftInfo} (h : BlockLink H d parent)
    (hd : d.height = d.proposedBlock.number)
    (hparent : parent.height = parent.proposedBlock.number) :
    d.height.toNat = parent.height.toNat + 1 := by
  have hnumber := Block.number_eq_of_ne h.number_ne
  rw [h.parentID_eq, Block.number_id, ← hparent, ← hd] at hnumber
  have hne : d.height ≠ 0 := hd ▸ h.number_ne
  rw [hnumber] at hne ⊢
  have hlt := parent.height.toNat_lt
  have hone : (1 : UInt32).toNat = 1 := rfl
  have hsum : (parent.height + 1).toNat ≠ 0 := fun h0 => hne (UInt32.toNat.inj h0)
  rw [UInt32.toNat_add, hone] at hsum ⊢
  omega

/-- Every ancestor of a draft is lower. -/
theorem height_lt_of_mem {H : Hashes} (x : DraftInfo) (l : List DraftInfo)
    (hlinked : (x :: l).IsChain (BlockLink H))
    (hheight : ∀ y ∈ x :: l, y.height = y.proposedBlock.number) :
    ∀ y ∈ l, y.height.toNat < x.height.toNat := by
  induction l generalizing x with
  | nil => exact fun _ hy => absurd hy List.not_mem_nil
  | cons parent rest ih =>
    intro y hy
    obtain ⟨hlink, hrest⟩ := List.isChain_cons_cons.mp hlinked
    have hheight' : ∀ y ∈ parent :: rest, y.height = y.proposedBlock.number :=
      fun y hy => hheight y (List.mem_cons_of_mem _ hy)
    have hdown := hlink.height_eq (hheight x List.mem_cons_self)
      (hheight' parent List.mem_cons_self)
    rcases List.mem_cons.mp hy with rfl | hy
    · omega
    · have := ih parent hrest hheight' y hy
      omega

/-- The heights go down along the parent pointers. -/
theorem pairwise_height {H : Hashes} {l : List DraftInfo} (hlinked : l.IsChain (BlockLink H))
    (hheight : ∀ y ∈ l, y.height = y.proposedBlock.number) :
    l.Pairwise (fun x y => y.height < x.height) := by
  induction l with
  | nil => exact .nil
  | cons x l ih =>
    refine List.pairwise_cons.mpr ⟨fun y hy => ?_, ih hlinked.of_cons fun y hy =>
      hheight y (List.mem_cons_of_mem x hy)⟩
    exact UInt32.lt_iff_toNat_lt.mpr (height_lt_of_mem x l hlinked hheight y hy)

/-! ## Certificates that match -/

/-- A draft and its parent as `Update` expects them: the certificate the
draft carries is its parent's. -/
structure CertifiedLink (H : Hashes) (d parent : DraftInfo) : Prop where
  parentID_eq : d.proposedBlock.parentID = parent.proposedBlock.id H
  number_ne : d.proposedBlock.number ≠ 0
  justify_eq : d.justify = some ⟨some parent.ref, d.proposedBlock.qc⟩
  blockID_eq : d.proposedBlock.qc.blockID = parent.proposedBlock.id H
  round_eq : d.proposedBlock.qc.round = parent.round

theorem CertifiedLink.blockLink {H : Hashes} {d parent : DraftInfo} (h : CertifiedLink H d parent) :
    BlockLink H d parent := ⟨h.parentID_eq, h.number_ne⟩

/-- What a step needs for the certificates to match. A proposal carries the
certificate of the parent it names, and its number has not wrapped to zero. A
beat finds, for the highest certificate, the very draft that certificate
points to. -/
structure CertificatesMatch (p : Pacemaker) (i : Input) : Prop where
  proposal : ∀ msg blk parent, p.Handles i (.proposal msg) → msg.decodedBlock = some blk →
    p.core.IsDraft blk.parentID parent →
    blk.number ≠ 0 ∧ blk.qc.blockID = blk.parentID ∧ blk.qc.round = parent.round
  beat : ∀ parent, i = .loop .beat → p.core.IsEscortDraft p.qcHigh.qc parent →
    p.qcHigh.qcNode.map (fun d => d.ref) = some parent.ref
      ∧ p.qcHigh.qc.blockID ≠ 0 ∧ p.qcHigh.qc.number + 1 ≠ 0

/-- A test for `CertificatesMatch` on inputs that are no beat. -/
def matchTest (p : Pacemaker) : Input → Bool
  | .loop .message => match p.inQueue.head?.map IncomingMsg.msg with
    | some (.proposal msg) => msg.decodedBlock.all (fun blk =>
        (p.chain.getDraft blk.parentID).all (fun parent => decide (blk.number ≠ 0
          ∧ blk.qc.blockID = blk.parentID ∧ blk.qc.round = parent.round)))
    | _ => true
  | .loop .beat => false
  | _ => true

/-- A draft that can be looked up has the round of the one that is. -/
theorem exists_getDraft_of_isDraft (h : p.core.IsDraft id d) :
    ∃ d', p.chain.getDraft id = some d' ∧ d'.round = d.round := by
  unfold Chain.getDraft
  rcases h with hd | ⟨hnone, blk, ref, hblk, rfl⟩
  · have hd' : p.chain.proposals id = some d := hd
    exact ⟨d, by rw [hd'], rfl⟩
  · have hnone' : p.chain.proposals id = none := hnone
    have hblk' : p.chain.getBlock id = some blk := hblk
    rw [hnone', hblk']
    exact ⟨_, rfl, rfl⟩

theorem CertificatesMatch.of_test {i : Input} (h : matchTest p i = true) :
    CertificatesMatch p i where
  proposal := by
    rintro msg blk parent ⟨rfl, mi, rest, hqueue, hmsg⟩ hdecoded hparent
    obtain ⟨parent', hlookup, hround⟩ := exists_getDraft_of_isDraft hparent
    rw [← hround]
    simpa [matchTest, hqueue, hmsg, hdecoded, hlookup] using h
  beat := by
    rintro parent rfl
    exact nomatch h

theorem CertifiedLink.of_accepted {R : DraftInfo → DraftInfo → Prop} {msg : PMProposalMessage}
    {parent bnew : DraftBlock} (hok : CertificatesMatch s i)
    (haccepted : Accepted E s i msg blk parent bnew) (hparent : InTree E.H R blk.parentID parent) :
    CertifiedLink E.H bnew.toDraftInfo parent.toDraftInfo := by
  obtain ⟨hnumber, hid, hround⟩ := hok.proposal msg blk parent haccepted.handles haccepted.decoded
    haccepted.parent_isDraft
  obtain ⟨ref, rfl⟩ := haccepted.bnew_eq
  exact ⟨hparent.keyed.symm, hnumber, rfl, hid.trans hparent.keyed.symm, hround⟩

theorem CertifiedLink.of_proposed {R : DraftInfo → DraftInfo → Prop} {parent : DraftBlock}
    {timestamp : UInt64} {txs : List Bytes} {msg : Option PMProposalMessage}
    (hok : CertificatesMatch s i) (hbeat : i = .loop .beat)
    (hescort : s.core.IsEscortDraft s.qcHigh.qc parent)
    (hparent : InTree E.H R s.qcHigh.qc.blockID parent)
    (hd : d = { buildBlock E p timestamp parent s.qcHigh round txs with msg := msg }) :
    CertifiedLink E.H d.toDraftInfo parent.toDraftInfo := by
  obtain ⟨hnode, hzero, hnumber⟩ := hok.beat parent hbeat hescort
  subst hd
  refine ⟨rfl, ?_, ?_, hparent.keyed.symm, ?_⟩
  · show (if parent.proposedBlock.id E.H = 0 then 0
      else number (parent.proposedBlock.id E.H) + 1) ≠ 0
    rw [hparent.keyed, if_neg hzero]
    exact hnumber
  · show some s.qcHigh.toJustify = some ⟨some parent.ref, s.qcHigh.qc⟩
    rw [DraftQC.toJustify, hnode]
  · rcases hescort with ⟨-, hround⟩ | ⟨-, blk, ref, -, rfl⟩
    · exact hround.symm
    · rfl

theorem certifiedTree_step {c c' : Core} (hok : CertificatesMatch s i)
    (hstep : CoreStep E s i c c') (hs : DraftTree E.H (CertifiedLink E.H) s.core)
    (h : DraftTree E.H (CertifiedLink E.H) c) :
    DraftTree E.H (CertifiedLink E.H) c' :=
  DraftTree.step hstep (fun _ _ _ _ haccepted _ hparent => .of_accepted hok haccepted hparent)
    (fun _ _ _ _ _ _ _ hbeat hescort hparent hd _ => .of_proposed hok hbeat hescort hparent hd) hs h

/-- **The certificates match in every state a run reaches** whose steps all
meet the condition. -/
theorem certifiedTree_run {p₀ : Pacemaker} (hrun : Run E CertificatesMatch p₀ p)
    (h₀ : DraftTree E.H (CertifiedLink E.H) p₀.core) :
    DraftTree E.H (CertifiedLink E.H) p.core :=
  Run.core_invariant hrun h₀ fun _ _ hok hq _ _ hstep _ hc =>
    certifiedTree_step hok hstep hq hc

/-- **The draft-tree invariant**: an uncommitted draft that has a parent is
its child by identifier and by height, points to it from its certificate, and
the certificate is of that block in that round. -/
def DraftsJustified (H : Hashes) (p : Pacemaker) : Prop :=
  ∀ id d parent, p.chain.proposals id = some d → p.chain.isCommitted d.toDraftInfo = false →
    d.parent = some parent →
    d.proposedBlock.parentID = parent.proposedBlock.id H ∧ d.height = parent.height + 1
      ∧ ∃ justify, d.justify = some justify ∧ justify.qcNode = some parent.ref
        ∧ justify.qc.blockID = parent.proposedBlock.id H ∧ justify.qc.round = parent.round

/-- What the tree says about a draft and its parent. -/
theorem InTree.parent {H : Hashes} {R : DraftInfo → DraftInfo → Prop} {parent : DraftBlock}
    (h : InTree H R id d) (hparent : d.parent = some parent) :
    R d.toDraftInfo parent.toDraftInfo ∧ d.ancestors = parent.chain := by
  have hancestors : d.ancestors = parent.chain := by
    unfold DraftBlock.parent at hparent
    split at hparent
    · exact nomatch hparent
    · rename_i hd
      rw [hd, ← Option.some.inj hparent]
      rfl
  have hlinked := h.linked
  rw [DraftBlock.chain, hancestors, DraftBlock.chain] at hlinked
  exact ⟨(List.isChain_cons_cons.mp hlinked).1, hancestors⟩

/-- **Drafts are justified by their parents' certificates** in every run in
which every proposal carries its parent's certificate. -/
theorem draftsJustified_of_certificatesMatch {chain : Chain} {app : App} {myPubKey : Bytes}
    {now : Time} {p₀ p : Pacemaker} (hchain : chain.Fresh E.H)
    (hstart : startPacemaker E chain app myPubKey now = .ok p₀)
    (hrun : Run E CertificatesMatch p₀ p) : DraftsJustified E.H p := by
  intro id d parent hd _ hparent
  have htree := (certifiedTree_run hrun (DraftTree.start hchain hstart)).inTree hd
  obtain ⟨hlink, hancestors⟩ := htree.parent hparent
  refine ⟨hlink.parentID_eq, ?_, _, hlink.justify_eq, rfl, hlink.blockID_eq, hlink.round_eq⟩
  have hheight : d.height = d.proposedBlock.number := htree.height_eq _ List.mem_cons_self
  have hheight' : parent.height = parent.proposedBlock.number := by
    refine htree.height_eq parent.toDraftInfo (List.mem_cons_of_mem _ ?_)
    rw [hancestors]
    exact List.mem_cons_self
  rw [hheight, Block.number_eq_of_ne hlink.number_ne, hlink.parentID_eq, Block.number_id, hheight']

theorem Testnet.fresh_chain : Testnet.chain.Fresh Testnet.hashes :=
  Chain.fresh_initializeStore Testnet.env Testnet.genesis Testnet.committee Testnet.committee _

open Testnet in
/-- A block and its child, each with its parent's certificate. -/
theorem draftsJustified_of_two_blocks :
    ∃ p₀, start 1 = .ok p₀
      ∧ let b := block genesis 1 genesisQC []
        let b' := block b 2 (certificate b 1) []
        let p := p₀.play env (deliver b 1 ++ deliver b' 2)
        ((p.chain.proposals (b'.id hashes)).bind DraftBlock.parent).isSome = true
          ∧ Run env CertificatesMatch p₀ p ∧ DraftsJustified hashes p := by
  obtain ⟨p₀, hstart, htest⟩ := exists_of_start (k := 1)
    (fun p₀ =>
      let b := block genesis 1 genesisQC []
      let b' := block b 2 (certificate b 1) []
      Machine.passes (Pacemaker.step env) matchTest p₀ (deliver b 1 ++ deliver b' 2)
        && ((((p₀.play env (deliver b 1 ++ deliver b' 2)).chain.proposals (b'.id hashes)).bind
          DraftBlock.parent).isSome))
    (by decide +kernel)
  obtain ⟨hpasses, hsome⟩ := Bool.and_eq_true_iff.mp htest
  have hplays : Machine.Plays (Pacemaker.step env) CertificatesMatch p₀ _ :=
    .of_test matchTest (fun _ _ => CertificatesMatch.of_test) _ hpasses
  have hrun := Machine.Run.of_plays _ hplays
  exact ⟨p₀, hstart, hsome, hrun,
    draftsJustified_of_certificatesMatch (E := env) fresh_chain hstart hrun⟩

/-- A test for a draft whose certificate is of another block than its
parent. -/
def mismatchTest (H : Hashes) (p : Pacemaker) (id : Bytes32) : Bool :=
  (p.chain.proposals id).any (fun d => !p.chain.isCommitted d.toDraftInfo
    && d.parent.any (fun parent => d.justify.any (fun justify =>
      decide (justify.qc.blockID ≠ parent.proposedBlock.id H))))

theorem not_draftsJustified_of_test {H : Hashes} (htest : mismatchTest H p id = true) :
    ¬ DraftsJustified H p := by
  obtain ⟨d, hd, htest⟩ := (Option.any_eq_true _ _).mp htest
  obtain ⟨hcommitted, htest⟩ := Bool.and_eq_true_iff.mp htest
  obtain ⟨parent, hparent, htest⟩ := (Option.any_eq_true _ _).mp htest
  obtain ⟨justify, hjustify, htest⟩ := (Option.any_eq_true _ _).mp htest
  intro h
  obtain ⟨-, -, justify', hjustify', -, hid, -⟩ := h id d parent hd (by simpa using hcommitted)
    hparent
  obtain rfl := Option.some.inj (hjustify.symm.trans hjustify')
  exact of_decide_eq_true htest hid

open Testnet in
/-- **A child is accepted with the certificate of its grandparent**, which
was found valid before. -/
theorem draft_with_grandparents_certificate :
    ∃ p₀, start 1 = .ok p₀
      ∧ let b := block genesis 1 genesisQC []
        let p := p₀.play env (deliver b 1 ++ deliver (block b 2 genesisQC []) 2)
        Run env (fun _ _ => True) p₀ p ∧ ¬ DraftsJustified hashes p := by
  obtain ⟨p₀, hstart, htest⟩ := exists_of_start (k := 1)
    (fun p₀ =>
      let b := block genesis 1 genesisQC []
      let b' := block b 2 genesisQC []
      mismatchTest hashes (p₀.play env (deliver b 1 ++ deliver b' 2)) (b'.id hashes))
    (by decide +kernel)
  exact ⟨p₀, hstart, Machine.run_play _ _,
    not_draftsJustified_of_test htest⟩

end LoragonBFT
