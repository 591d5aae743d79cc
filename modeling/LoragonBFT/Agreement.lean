import LoragonBFT.Network

/-!
# Agreement

Two honest nodes must not commit different blocks of one number. What makes
two-chain HotStuff safe is the lock: a node that voted for a block has seen
the certificate of its parent, and from then on votes only for blocks that
extend that parent. `OnReceiveProposal` has two guards instead – the height
must not be below the height of the last vote, and the block must extend the
last *committed* block – and neither keeps a node from voting, height by
height, for two branches side by side. With one faulty validator of four,
two nodes then commit the two branches.

With the lock agreement holds. The condition is stated on the proposals a
node is about to vote on, from what it voted for before; that the votes then
keep their locks is a matter of one node, and the rest is the general
argument.
-/

namespace LoragonBFT

variable {E : Env}

/-- **Honest nodes do not disagree**: blocks that two of them have stored
under one number are one block. -/
def Agreement (N : Network E) (nodes : Nodes) : Prop :=
  ∀ j ∈ N.honest, ∀ k ∈ N.honest, ∀ id id' b b', (nodes j).chain.getBlock id = some b →
    (nodes k).chain.getBlock id' = some b' → b.number = b'.number → b.id E.H = b'.id E.H

/-- What the voting guard is missing: a proposal whose parent is known, and
that is not below the last vote, extends the parent of every block the node
voted for before. -/
def LocksKept (E : Env) (tree : BlockTree) (p : Pacemaker) (i : Input) : Prop :=
  ∀ msg blk parent, p.Handles i (.proposal msg) → msg.decodedBlock = some blk →
    p.core.IsDraft blk.parentID parent → p.lastVotingHeight ≤ blk.number →
    ∀ d v, Event.voted d v ∈ p.trace → tree.Extends (blk.id E.H) d.proposedBlock.parentID

/-! ## The votes of one node -/

variable {trace : List Event} {x : Bytes32} {tree : BlockTree} {p : Pacemaker}

theorem mem_votedIDs {H : Hashes} :
    x ∈ votedIDs H trace ↔ ∃ d v, Event.voted d v ∈ trace ∧ d.proposedBlock.id H = x := by
  unfold votedIDs
  rw [List.mem_filterMap]
  constructor
  · rintro ⟨e, he, hx⟩
    cases e with
    | voted d v => exact ⟨d, v, he, Option.some.inj hx⟩
    | _ => exact nomatch hx
  · rintro ⟨d, v, he, rfl⟩
    exact ⟨_, he, rfl⟩

/-- The votes of a trace, in the middle of a step from `s` on the input
`i`: they are for blocks of the tree and keep their locks, and those of the
step itself are for the block of the proposal it handles. -/
structure VotesLocked (H : Hashes) (tree : BlockTree) (s : Pacemaker) (i : Input)
    (trace : List Event) : Prop where
  linked : ∀ d v, Event.voted d v ∈ trace →
    tree.Link (d.proposedBlock.id H) d.proposedBlock.parentID
  locked : TwoChain.Locked tree (votedIDs H trace)
  source : ∀ d v, Event.voted d v ∈ trace → Event.voted d v ∈ s.trace
    ∨ ∃ msg, s.Handles i (.proposal msg) ∧ msg.decodedBlock = some d.proposedBlock

theorem VotesLocked.append {H : Hashes} {s : Pacemaker} {i : Input}
    (h : VotesLocked H tree s i trace) {e : Event} (he : ∀ d v, e ≠ .voted d v) :
    VotesLocked H tree s i (trace ++ [e]) := by
  have hmem : ∀ d v, Event.voted d v ∈ trace ++ [e] → Event.voted d v ∈ trace := by
    intro d v hmem
    rcases List.mem_append.mp hmem with hold | hnew
    · exact hold
    · exact absurd (List.mem_singleton.mp hnew).symm (he d v)
  have hvotes : votedIDs H (trace ++ [e]) = votedIDs H trace := by
    unfold votedIDs
    rw [List.filterMap_append]
    cases e with
    | voted d v => exact absurd rfl (he d v)
    | _ => exact List.append_nil _
  refine ⟨fun d v hd => h.linked d v (hmem d v hd), ?_, fun d v hd => h.source d v (hmem d v hd)⟩
  rw [hvotes]
  exact h.locked

section Step

variable {N : Network E} {D : Preimages} {nodes : Nodes} {a : ℕ × Input} {c c' : Core}
  {signed : ℕ → Bytes32 → Prop}

/-- **A vote keeps the locks** of the votes before. -/
theorem VotesLocked.vote (hok : N.Admissible D nodes a) (hlock : LocksKept E D.tree (nodes a.1) a.2)
    (hs : N.Sound D signed (nodes a.1).core) (h : VotesLocked E.H D.tree (nodes a.1) a.2 trace)
    {msg : PMProposalMessage} {blk : Block} {parent bnew : DraftBlock} (v : PMVoteMessage)
    (haccepted : Accepted E (nodes a.1) a.2 msg blk parent bnew)
    (hvotable : (nodes a.1).lastVotingHeight ≤ blk.number) :
    VotesLocked E.H D.tree (nodes a.1) a.2 (trace ++ [.voted bnew v]) := by
  have hlink := hs.link_of_accepted hok haccepted
  have hblk : bnew.proposedBlock = blk := by
    obtain ⟨ref, rfl⟩ := haccepted.bnew_eq
    rfl
  have hkeeps : ∀ x ∈ votedIDs E.H trace, TwoChain.KeepsLock D.tree x (blk.id E.H) := by
    intro x hx
    obtain ⟨d, v', hd, rfl⟩ := mem_votedIDs.mp hx
    rcases h.source d v' hd with hold | ⟨msg', hhandles, hdecoded⟩
    · intro w hw
      obtain rfl := TwoChain.Tree.link_unique (h.linked d v' hd) hw
      exact hlock msg blk parent haccepted.handles haccepted.decoded haccepted.parent_isDraft
        hvotable d v' hold
    · -- the same proposal, voted for in this very step
      obtain rfl := ConsensusMessage.proposal.inj (hhandles.unique haccepted.handles)
      rw [Option.some.inj (hdecoded.symm.trans haccepted.decoded)]
      exact .refl _
  have hvotes : votedIDs E.H (trace ++ [.voted bnew v])
      = votedIDs E.H trace ++ [blk.id E.H] := by
    unfold votedIDs
    rw [List.filterMap_append, ← hblk]
    rfl
  refine ⟨fun d v' hd => ?_, ?_, fun d v' hd => ?_⟩
  · rcases List.mem_append.mp hd with hold | hnew
    · exact h.linked d v' hold
    · obtain ⟨rfl, rfl⟩ := Event.voted.inj (List.mem_singleton.mp hnew)
      rw [hblk]
      exact hlink
  · rw [hvotes]
    refine List.pairwise_append.mpr ⟨h.locked, List.pairwise_singleton _ _, ?_⟩
    intro x hx y hy
    rw [List.mem_singleton.mp hy]
    exact hkeeps x hx
  · rcases List.mem_append.mp hd with hold | hnew
    · exact h.source d v' hold
    · obtain ⟨rfl, rfl⟩ := Event.voted.inj (List.mem_singleton.mp hnew)
      exact .inr ⟨msg, haccepted.handles, hblk ▸ haccepted.decoded⟩

theorem VotesLocked.action (hok : N.Admissible D nodes a)
    (hlock : LocksKept E D.tree (nodes a.1) a.2) (hs : N.Sound D signed (nodes a.1).core)
    (hstep : CoreStep E (nodes a.1) a.2 c c')
    (h : VotesLocked E.H D.tree (nodes a.1) a.2 c.trace) :
    VotesLocked E.H D.tree (nodes a.1) a.2 c'.trace := by
  cases hstep with
  | vote msg blk parent bnew v haccepted hvalid hextended hid hvotable =>
    exact h.vote hok hlock hs v haccepted hvotable
  | record e hquiet =>
    refine h.append fun d v he => ?_
    rw [he] at hquiet
    exact nomatch hquiet
  | sendVote => exact h.append fun d v he => nomatch he
  | commitList => exact h.append fun d v he => nomatch he
  | propose => exact h.append fun d v he => nomatch he
  | _ => exact h

end Step

/-! ## The network -/

/-- What is kept of an honest node from step to step. -/
structure Network.NodeSafe (N : Network E) (D : Preimages) (signed : ℕ → Bytes32 → Prop)
    (p : Pacemaker) : Prop where
  sound : N.Sound D signed p.core
  linked : ∀ d v, Event.voted d v ∈ p.trace →
    D.tree.Link (d.proposedBlock.id E.H) d.proposedBlock.parentID
  locked : TwoChain.Locked D.tree (votedIDs E.H p.trace)
  /-- What was signed besides votes is no block. -/
  signed_none : ∀ x, Event.signed x ∈ p.trace → D.tree.parentOf x = none

/-- A step forgets nothing that was done before. -/
theorem Pacemaker.trace_prefix_step (s : Pacemaker) (i : Input) :
    s.trace <+: (s.step E i).trace :=
  s.step_invariant (P := fun c => s.trace <+: c.trace) E i (List.prefix_refl _)
    fun _ _ hstep _ h => h.trans hstep.trace_prefix

theorem HasSigned.mono {H : Hashes} {trace' : List Event} (h : trace <+: trace')
    (hx : HasSigned H trace x) : HasSigned H trace' x := by
  rcases hx with hvote | hsigned
  · obtain ⟨d, v, hd, hid⟩ := mem_votedIDs.mp hvote
    exact .inl (mem_votedIDs.mpr ⟨d, v, h.subset hd, hid⟩)
  · exact .inr (h.subset hsigned)

/-- Signatures are never taken back. -/
theorem Nodes.signed_step (nodes : Nodes) (a : ℕ × Input) (j : ℕ) (x : Bytes32)
    (h : nodes.signed E.H j x) : (nodes.step E a).signed E.H j x := by
  unfold Nodes.signed Nodes.step at *
  by_cases hj : j = a.1
  · subst hj
    rw [Function.update_self]
    exact h.mono ((nodes a.1).trace_prefix_step a.2)
  · rw [Function.update_of_ne hj]
    exact h

namespace Network

variable {N : Network E} {D : Preimages} {nodes : Nodes} {a : ℕ × Input}

theorem NodeSafe.mono {signed signed' : ℕ → Bytes32 → Prop} (h : N.NodeSafe D signed p)
    (hmono : ∀ j ∈ N.honest, ∀ x, signed j x → signed' j x) :
    N.NodeSafe D signed' p :=
  ⟨h.sound.mono hmono, h.linked, h.locked, h.signed_none⟩

/-- **A node stays safe in a step of its own.** -/
theorem NodeSafe.step (hok : N.Admissible D nodes a)
    (hlock : LocksKept E D.tree (nodes a.1) a.2)
    (h : N.NodeSafe D (nodes.signed E.H) (nodes a.1)) :
    N.NodeSafe D (nodes.signed E.H) ((nodes a.1).step E a.2) := by
  have hvotes₀ : VotesLocked E.H D.tree (nodes a.1) a.2 (nodes a.1).core.trace :=
    ⟨h.linked, h.locked, fun _ _ hd => .inl hd⟩
  have hboth : N.Sound D (nodes.signed E.H) ((nodes a.1).step E a.2).core
      ∧ VotesLocked E.H D.tree (nodes a.1) a.2 ((nodes a.1).step E a.2).core.trace := by
    refine (nodes a.1).step_invariant (P := fun c => N.Sound D (nodes.signed E.H) c
      ∧ VotesLocked E.H D.tree (nodes a.1) a.2 c.trace) E a.2 ⟨h.sound, hvotes₀⟩ ?_
    intro c c' hstep htrace hc
    exact ⟨h.sound.action hok hstep htrace hc.1, hc.2.action hok hlock h.sound hstep⟩
  exact ⟨hboth.1, hboth.2.linked, hboth.2.locked, hok.signed⟩

/-- **Every honest node stays safe**, whichever of them takes the step. -/
theorem nodesSafe_step (hok : N.Admissible D nodes a)
    (hlock : LocksKept E D.tree (nodes a.1) a.2)
    (h : ∀ j ∈ N.honest, N.NodeSafe D (nodes.signed E.H) (nodes j)) :
    ∀ j ∈ N.honest, N.NodeSafe D ((nodes.step E a).signed E.H) (nodes.step E a j) := by
  intro j hj
  have hsafe : N.NodeSafe D (nodes.signed E.H) (nodes.step E a j) := by
    unfold Nodes.step
    by_cases heq : j = a.1
    · rw [heq, Function.update_self]
      exact NodeSafe.step hok hlock (h a.1 hok.honest)
    · rw [Function.update_of_ne heq]
      exact h j hj
  exact hsafe.mono fun k _ x => nodes.signed_step a k x

theorem nodesSafe_start (hstart : N.Starts nodes) :
    ∀ j ∈ N.honest, N.NodeSafe D (nodes.signed E.H) (nodes j) := by
  intro j hj
  obtain ⟨v, app, now, writeOK, -, hnode⟩ := hstart j hj
  have hsound : N.Sound D (nodes.signed E.H) (nodes j).core := .start hnode
  obtain ⟨bestNode, es, -, -, round, hcore⟩ := startPacemaker_core hnode
  have htrace : (nodes j).trace = [] := congrArg Core.trace hcore
  refine ⟨hsound, ?_, ?_, ?_⟩ <;> rw [htrace]
  · exact fun d v hd => absurd hd List.not_mem_nil
  · exact List.Pairwise.nil
  · exact fun x hx => absurd hx List.not_mem_nil

/-- **Safe nodes agree.** -/
theorem agreement_of_nodesSafe
    (h : ∀ j ∈ N.honest, N.NodeSafe D (nodes.signed E.H) (nodes j)) : Agreement N nodes := by
  intro j hj k hk id id' b b' hb hb' hnumber
  have hid : b.id E.H = id := (h j hj).sound.tree.stored id b hb
  have hid' : b'.id E.H = id' := (h k hk).sound.tree.stored id' b' hb'
  have hlevel : (number id).toNat = (number id').toNat := by
    rw [← hid, ← hid', Block.number_id, Block.number_id, hnumber]
  rw [hid, hid']
  rcases (h j hj).sound.store.blocks id b hb with rfl | ⟨hne, hfinal⟩ <;>
    rcases (h k hk).sound.store.blocks id' b' hb' with rfl | ⟨hne', hfinal'⟩
  · exact hid.symm.trans hid'
  · exact absurd (hnumber.symm.trans N.genesis_number) hne'
  · exact absurd (hnumber.trans N.genesis_number) hne
  · refine TwoChain.agreement (C := N.places) (fun i => votedIDs E.H (nodes i).trace)
      (fun i hi => (h i hi).locked) ?_ hfinal hfinal' hlevel
    -- what was signed of the tree was voted for
    intro i hi x w hsigned hlink
    rcases hsigned with hvoted | hother
    · exact hvoted
    · exact nomatch ((h i hi).signed_none x hother).symm.trans hlink

end Network

/-- **Agreement holds in every run in which votes keep their locks**, whatever
messages arrive in whatever order. -/
theorem agreement_of_locksKept (N : Network E) (D : Preimages) {nodes₀ nodes : Nodes}
    (hstart : N.Starts nodes₀)
    (hrun : Machine.Run (Nodes.step E) (fun nodes a => N.Admissible D nodes a
      ∧ LocksKept E D.tree (nodes a.1) a.2) nodes₀ nodes) : Agreement N nodes :=
  Network.agreement_of_nodesSafe (D := D) (Machine.Run.invariant
    (P := fun nodes => ∀ j ∈ N.honest, N.NodeSafe D (nodes.signed E.H) (nodes j)) hrun
    (Network.nodesSafe_start hstart) fun _ _ hok h => Network.nodesSafe_step hok.1 hok.2 h)

/-! ## Two runs -/

/-- The tree a list of blocks spans. -/
def BlockTree.ofBlocks (H : Hashes) (blocks : List Block) : BlockTree where
  parentOf id := (blocks.find? (fun b => decide (b.id H = id ∧ b.number ≠ 0))).map Block.parentID
  level_eq u w h := by
    obtain ⟨b, hb, rfl⟩ := Option.map_eq_some_iff.mp h
    obtain ⟨rfl, hne⟩ : b.id H = u ∧ b.number ≠ 0 := by simpa using List.find?_some hb
    have hnumber := Block.number_eq_of_ne hne
    rw [Block.number_id, hnumber]
    rw [hnumber] at hne
    have hlt := (number b.parentID).toNat_lt
    have hone : (1 : UInt32).toNat = 1 := rfl
    have hsum : (number b.parentID + 1).toNat ≠ 0 := fun h0 => hne (UInt32.toNat.inj h0)
    rw [UInt32.toNat_add, hone] at hsum ⊢
    omega

namespace Testnet

/-- The committee of four, with its first validator faulty. -/
def network : Network env where
  committee := committee
  genesis := genesis
  honest := {1, 2, 3}
  honest_lt := by decide
  few_faults := by decide
  size_lt := by decide
  keys_bls := by decide
  committee_sorted := rfl
  genesis_number := by decide +kernel
  genesis_hash := rfl

/-- The digests of a list of blocks. -/
def preimages (blocks : List Block) : Preimages where
  tree := .ofBlocks hashes blocks
  qcOf x := ((blocks.map Block.qc).find? (fun qc => decide (qcID hashes qc = x))).getD genesisQC

/-- Whether a node signed the hash these bytes spell. -/
def signedTest (trace : List Event) (bytes : Bytes) : Bool :=
  trace.any (fun e => match e with
    | .voted d _ => decide (Bytes32.bytes (d.proposedBlock.id hashes) = bytes)
    | .signed x => decide (Bytes32.bytes x = bytes)
    | _ => false)

/-- A test for genuine messages: a signature spells out what was signed and
by whom. -/
def genuineTest (D : Preimages) (nodes : Nodes) (m : ConsensusMessage) : Bool :=
  m.signatures.all (fun sig => [1, 2, 3].all (fun j =>
      !(sig.drop 32).contains (UInt8.ofNat j) || signedTest (nodes j).trace (sig.take 32)))
    && match m with
      | .proposal msg => msg.decodedBlock.all (fun blk =>
          decide (blk.number ≠ 0 → D.tree.parentOf (blk.id hashes) = some blk.parentID)
            && decide (D.qcOf (qcID hashes blk.qc) = blk.qc))
      | _ => true

/-- The proposal a node is about to handle, if it is one. -/
def nextBlock (p : Pacemaker) : Option Block :=
  match p.inQueue.head?.map IncomingMsg.msg with
  | some (.proposal msg) => msg.decodedBlock
  | _ => none

/-- A test for admissible steps. -/
def admissibleTest (D : Preimages) (nodes : Nodes) (a : ℕ × Input) : Bool :=
  decide (a.1 ∈ [1, 2, 3])
    && (match a.2 with
      | .sync _ _ => false
      | .receive msg _ => genuineTest D nodes msg
      | .loop .message => (nextBlock (nodes a.1)).all (fun blk => decide (blk.number ≠ 0))
      | _ => true)
    && ((nodes a.1).step env a.2).trace.all (fun e => match e with
      | .proposed d => decide (D.tree.parentOf (d.proposedBlock.id hashes)
          = some d.proposedBlock.parentID)
      | .signed x => decide (D.tree.parentOf x = none)
      | _ => true)

/-- A test for extension, following so many parents. -/
def extendsTest (tree : BlockTree) : ℕ → Bytes32 → Bytes32 → Bool
  | 0, u, w => decide (u = w)
  | fuel + 1, u, w => decide (u = w)
      || (tree.parentOf u).any (fun u' => extendsTest tree fuel u' w)

/-- A test for kept locks. -/
def locksTest (tree : BlockTree) (p : Pacemaker) : Input → Bool
  | .loop .message => (nextBlock p).all (fun blk => p.trace.all (fun e => match e with
      | .voted d _ => extendsTest tree 3 (blk.id hashes) d.proposedBlock.parentID
      | _ => true))
  | _ => true

theorem hasSigned_of_test (h : signedTest trace (Bytes32.bytes x) = true) :
    HasSigned hashes trace x := by
  obtain ⟨e, he, htest⟩ := List.any_eq_true.mp h
  cases e with
  | voted d v =>
    exact .inl (mem_votedIDs.mpr ⟨d, v, he, Bytes32.bytes_injective (of_decide_eq_true htest)⟩)
  | signed x' => exact .inr (Bytes32.bytes_injective (of_decide_eq_true htest) ▸ he)
  | _ => exact nomatch htest

theorem extends_of_test (fuel : ℕ) {u w : Bytes32} (h : extendsTest tree fuel u w = true) :
    tree.Extends u w := by
  induction fuel generalizing u with
  | zero => exact of_decide_eq_true h ▸ .refl
  | succ fuel ih =>
    rcases Bool.or_eq_true_iff.mp h with heq | hrest
    · exact of_decide_eq_true heq ▸ .refl
    · obtain ⟨u', hlink, hu'⟩ := (Option.any_eq_true _ _).mp hrest
      exact .head hlink (ih hu')

theorem mem_honest {j : ℕ} : j ∈ network.honest ↔ j ∈ [1, 2, 3] := by
  show j ∈ ({1, 2, 3} : Finset ℕ) ↔ _
  simp

variable {v : Validator}

/-- The key of a validator is its number. -/
theorem key_eq {j : ℕ} (hj : j ∈ [1, 2, 3]) (hv : committee.validators[j]? = some v) :
    v.pubKey.bytes = [UInt8.ofNat j] := by
  have hkeys : ∀ j ∈ [1, 2, 3], (committee.validators[j]?).map (fun v => v.pubKey.bytes)
      = some [UInt8.ofNat j] := by decide
  have hkey := hkeys j hj
  rw [hv] at hkey
  exact Option.some.inj hkey

/-- What verifies under keys of which one is a validator's ends in the
keys. -/
theorem spelled_of_verify {j : ℕ} (hj : j ∈ [1, 2, 3]) (hv : committee.validators[j]? = some v)
    {sig : Bytes} (hx : bls.verify v.pubKey.bytes x sig = true
      ∨ ∃ keys, v.pubKey.bytes ∈ keys ∧ bls.fastAggregateVerify keys x sig = true) :
    ∃ keys : List Bytes, [UInt8.ofNat j] ∈ keys ∧ sig = Bytes32.bytes x ++ keys.flatten := by
  have hkey := key_eq hj hv
  rcases hx with hone | ⟨keys, hmem, hmany⟩
  · refine ⟨[[UInt8.ofNat j]], List.mem_singleton_self _, ?_⟩
    rw [hkey] at hone
    simpa [bls] using hone
  · have hsig : keys ≠ [] ∧ sig = Bytes32.bytes x ++ keys.flatten := by simpa [bls] using hmany
    exact ⟨keys, hkey ▸ hmem, hsig.2⟩

/-- A signature that verifies under keys of which one is a validator's ends
in that validator's number. -/
theorem unforged_of_test {nodes : Nodes} {sig : Bytes} (htest : [1, 2, 3].all (fun j =>
      !(sig.drop 32).contains (UInt8.ofNat j) || signedTest (nodes j).trace (sig.take 32)) = true)
    {j : ℕ} (hj : j ∈ network.honest) (hv : network.committee.validators[j]? = some v)
    (hx : env.B.verify v.pubKey.bytes x sig = true
      ∨ ∃ keys, v.pubKey.bytes ∈ keys ∧ env.B.fastAggregateVerify keys x sig = true) :
    nodes.signed env.H j x := by
  have hj' := mem_honest.mp hj
  obtain ⟨keys, hmem, hsig⟩ := spelled_of_verify hj' hv hx
  rw [hsig, List.drop_left' (length_bytes x), List.take_left' (length_bytes x)] at htest
  have hcontains : keys.flatten.contains (UInt8.ofNat j) = true :=
    List.contains_iff_mem.mpr (List.mem_flatten.mpr ⟨_, hmem, List.mem_singleton_self _⟩)
  have htest' : (!keys.flatten.contains (UInt8.ofNat j)
      || signedTest (nodes j).trace (Bytes32.bytes x)) = true := List.all_eq_true.mp htest j hj'
  rw [hcontains, Bool.not_true, Bool.false_or] at htest'
  have hsigned : HasSigned hashes (nodes j).trace x := hasSigned_of_test htest'
  exact hsigned

theorem genuine_of_test {D : Preimages} {nodes : Nodes} {m : ConsensusMessage}
    (h : genuineTest D nodes m = true) : network.Genuine D (nodes.signed env.H) m := by
  obtain ⟨hsigs, hblock⟩ := Bool.and_eq_true_iff.mp h
  refine ⟨fun sig hsig j hj v hv x hx => ?_, ?_, ?_⟩
  · exact unforged_of_test (List.all_eq_true.mp hsigs sig hsig) hj hv
      (hx.imp_right (Exists.imp fun keys hkeys => ⟨hkeys.1, hkeys.2.2⟩))
  · rintro msg blk rfl hdecoded hne
    simp only [hdecoded, Option.all_some] at hblock
    exact of_decide_eq_true (Bool.and_eq_true_iff.mp hblock).1 hne
  · rintro msg blk rfl hdecoded
    simp only [hdecoded, Option.all_some] at hblock
    exact of_decide_eq_true (Bool.and_eq_true_iff.mp hblock).2

theorem nextBlock_of_handles {i : Input} {msg : PMProposalMessage} {blk : Block}
    (h : p.Handles i (.proposal msg)) (hdecoded : msg.decodedBlock = some blk) :
    i = .loop .message ∧ nextBlock p = some blk := by
  obtain ⟨rfl, mi, rest, hqueue, hmsg⟩ := h
  refine ⟨rfl, ?_⟩
  unfold nextBlock
  rw [hqueue, List.head?_cons, Option.map_some, hmsg]
  exact hdecoded

theorem admissible_of_test {D : Preimages} {nodes : Nodes} {a : ℕ × Input}
    (h : admissibleTest D nodes a = true) : network.Admissible D nodes a := by
  obtain ⟨h, htrace⟩ := Bool.and_eq_true_iff.mp h
  obtain ⟨hhonest, hinput⟩ := Bool.and_eq_true_iff.mp h
  have hevents := List.all_eq_true.mp htrace
  refine ⟨?_, fun blk qc hsync => ?_, fun msg senderAddr hreceive => ?_,
    fun msg blk parent hhandles hdecoded _ => ?_, fun d hd => ?_, fun x hx => ?_⟩
  · exact mem_honest.mpr (of_decide_eq_true hhonest)
  · rw [hsync] at hinput
    exact nomatch hinput
  · rw [hreceive] at hinput
    exact genuine_of_test hinput
  · obtain ⟨hi, hnext⟩ := nextBlock_of_handles hhandles hdecoded
    rw [hi, hnext] at hinput
    exact of_decide_eq_true hinput
  · have htest : decide (D.tree.parentOf (d.proposedBlock.id hashes)
        = some d.proposedBlock.parentID) = true := hevents _ hd
    have hlink := of_decide_eq_true htest
    exact hlink
  · have htest : decide (D.tree.parentOf x = none) = true := hevents _ hx
    exact of_decide_eq_true htest

theorem locksKept_of_test {i : Input} (h : locksTest tree p i = true) : LocksKept env tree p i := by
  intro msg blk parent hhandles hdecoded _ _ d v hd
  obtain ⟨rfl, hnext⟩ := nextBlock_of_handles hhandles hdecoded
  unfold locksTest at h
  rw [hnext, Option.all_some] at h
  have htest := List.all_eq_true.mp h (.voted d v) hd
  dsimp only at htest
  exact extends_of_test 3 htest

/-- Three nodes at their places. -/
def nodesOf (p₁ p₂ p₃ : Pacemaker) : Nodes :=
  fun j => if j = 1 then p₁ else if j = 2 then p₂ else p₃

/-- What a test finds out about the three nodes once started is true of
them. -/
theorem exists_of_starts (test : Nodes → Bool)
    (h : ((start 1).toOption.any fun p₁ => (start 2).toOption.any fun p₂ =>
      (start 3).toOption.any fun p₃ => test (nodesOf p₁ p₂ p₃)) = true) :
    ∃ nodes, network.Starts nodes ∧ test nodes = true := by
  obtain ⟨p₁, h₁, htest⟩ := exists_of_start _ h
  obtain ⟨p₂, h₂, htest⟩ := exists_of_start _ htest
  obtain ⟨p₃, h₃, htest⟩ := exists_of_start _ htest
  refine ⟨nodesOf p₁ p₂ p₃, fun j hj => ?_, htest⟩
  have hj' : j = 1 ∨ j = 2 ∨ j = 3 := by simpa using mem_honest.mp hj
  rcases hj' with rfl | rfl | rfl
  · exact ⟨_, app, 1000000000, fun _ => true, rfl, h₁⟩
  · exact ⟨_, app, 1000000000, fun _ => true, rfl, h₂⟩
  · exact ⟨_, app, 1000000000, fun _ => true, rfl, h₃⟩

/-- A proposal arrives at a place and the main loop there takes it. -/
def deliverTo (j : ℕ) (b : Block) (round : UInt32) : List (ℕ × Input) :=
  (deliver b round).map (fun i => (j, i))

/-- A branch of three blocks, each with its parent's certificate. -/
def branch (timestamp : UInt64) : Block × Block × Block :=
  let b₁ := block genesis timestamp genesisQC []
  let b₂ := block b₁ timestamp (certificate b₁ 1) []
  (b₁, b₂, block b₂ timestamp (certificate b₂ 2) [])

/-- One branch, to two nodes. -/
def oneBranch : List (ℕ × Input) :=
  let (b₁, b₂, b₃) := branch 1
  deliverTo 1 b₁ 1 ++ deliverTo 2 b₁ 1 ++ deliverTo 1 b₂ 2 ++ deliverTo 2 b₂ 2
    ++ deliverTo 1 b₃ 3 ++ deliverTo 2 b₃ 3

/-- The digests of two branches. -/
def twoPreimages : Preimages :=
  preimages [(branch 1).1, (branch 1).2.1, (branch 1).2.2, (branch 2).1, (branch 2).2.1,
    (branch 2).2.2]

/-- Two branches side by side, to two nodes, and at last one branch to one
node and the other to the other. -/
def twoBranches : List (ℕ × Input) :=
  let (b₁, b₂, b₃) := branch 1
  let (c₁, c₂, c₃) := branch 2
  deliverTo 1 b₁ 1 ++ deliverTo 1 c₁ 1 ++ deliverTo 2 b₁ 1 ++ deliverTo 2 c₁ 1
    ++ deliverTo 1 b₂ 2 ++ deliverTo 1 c₂ 2 ++ deliverTo 2 b₂ 2 ++ deliverTo 2 c₂ 2
    ++ deliverTo 1 b₃ 3 ++ deliverTo 2 c₃ 3

/-- A test for two nodes that have stored different blocks under one
number. -/
def disagreeTest (nodes : Nodes) (id id' : Bytes32) : Bool :=
  ((nodes 1).chain.getBlock id).any (fun b => ((nodes 2).chain.getBlock id').any (fun b' =>
    decide (b.number = b'.number ∧ b.id hashes ≠ b'.id hashes)))

theorem not_agreement_of_test {nodes : Nodes} {id id' : Bytes32}
    (h : disagreeTest nodes id id' = true) : ¬ Agreement network nodes := by
  obtain ⟨b, hb, h⟩ := (Option.any_eq_true _ _).mp h
  obtain ⟨b', hb', h⟩ := (Option.any_eq_true _ _).mp h
  obtain ⟨hnumber, hne⟩ := of_decide_eq_true h
  intro hagree
  exact hne (hagree 1 (mem_honest.mpr (by decide)) 2 (mem_honest.mpr (by decide)) id id' b b' hb
    hb' hnumber)

/-- One branch: the two nodes commit its first block. -/
theorem agreement_on_one_branch :
    ∃ nodes₀, network.Starts nodes₀
      ∧ let nodes := Machine.play (Nodes.step env) nodes₀ oneBranch
        ((nodes 1).chain.getBlock ((branch 1).1.id hashes)).isSome = true
          ∧ ((nodes 2).chain.getBlock ((branch 1).1.id hashes)).isSome = true
          ∧ Machine.Run (Nodes.step env) (fun nodes a => network.Admissible twoPreimages nodes a
            ∧ LocksKept env twoPreimages.tree (nodes a.1) a.2) nodes₀ nodes
          ∧ Agreement network nodes := by
  obtain ⟨nodes₀, hstart, htest⟩ := exists_of_starts
    (fun nodes₀ =>
      let nodes := Machine.play (Nodes.step env) nodes₀ oneBranch
      Machine.passes (Nodes.step env) (fun nodes a => admissibleTest twoPreimages nodes a
          && locksTest twoPreimages.tree (nodes a.1) a.2) nodes₀ oneBranch
        && (((nodes 1).chain.getBlock ((branch 1).1.id hashes)).isSome
          && ((nodes 2).chain.getBlock ((branch 1).1.id hashes)).isSome))
    (by decide +kernel)
  obtain ⟨hpasses, hstored⟩ := Bool.and_eq_true_iff.mp htest
  obtain ⟨hstored₁, hstored₂⟩ := Bool.and_eq_true_iff.mp hstored
  have hplays : Machine.Plays (Nodes.step env) (fun nodes a =>
      network.Admissible twoPreimages nodes a
        ∧ LocksKept env twoPreimages.tree (nodes a.1) a.2) nodes₀ oneBranch :=
    .of_test _ (fun nodes a h => ⟨admissible_of_test (Bool.and_eq_true_iff.mp h).1,
      locksKept_of_test (Bool.and_eq_true_iff.mp h).2⟩) _ hpasses
  have hrun := Machine.Run.of_plays _ hplays
  exact ⟨nodes₀, hstart, hstored₁, hstored₂, hrun,
    agreement_of_locksKept network twoPreimages hstart hrun⟩

/-- **Two honest nodes commit different first blocks**: both vote for two
branches, height by height, and with the votes of the faulty validator both
branches have certificates. -/
theorem two_branches_committed :
    ∃ nodes₀, network.Starts nodes₀
      ∧ let nodes := Machine.play (Nodes.step env) nodes₀ twoBranches
        Machine.Run (Nodes.step env) (network.Admissible twoPreimages) nodes₀ nodes
          ∧ ¬ Agreement network nodes := by
  obtain ⟨nodes₀, hstart, htest⟩ := exists_of_starts
    (fun nodes₀ => Machine.passes (Nodes.step env) (admissibleTest twoPreimages) nodes₀ twoBranches
      && disagreeTest (Machine.play (Nodes.step env) nodes₀ twoBranches)
        ((branch 1).1.id hashes) ((branch 2).1.id hashes))
    (by decide +kernel)
  obtain ⟨hpasses, hdisagree⟩ := Bool.and_eq_true_iff.mp htest
  have hplays : Machine.Plays (Nodes.step env) (network.Admissible twoPreimages) nodes₀
      twoBranches :=
    .of_test (admissibleTest twoPreimages) (fun _ _ => admissible_of_test) _ hpasses
  exact ⟨nodes₀, hstart, Machine.Run.of_plays _ hplays, not_agreement_of_test hdisagree⟩

end Testnet

end LoragonBFT
