import LoragonBFT.Util.TwoChain
import LoragonBFT.QuorumSoundness
import LoragonBFT.Pacemaker.CommitLists

/-!
# A network of nodes

A fixed committee runs one node a validator. Less than a third of the
validators is faulty; the others run the code, from one genesis block. A
step of the network is a step of one honest node on one input, in any order:
a message that is never received is lost, a message received twice was
duplicated, and whatever the faulty validators do shows only in the messages
that arrive.

Two things are assumed of what arrives. Signatures are not forged: where a
message carries something that verifies under an honest validator's key, that
validator signed it before. And digests do not collide: the identifiers that
occur belong to one tree of blocks, the digests of certificates to one
certificate each, and what an honest node signs besides its votes is no
block identifier. These are conditions on the steps of a run, so they speak
about the values of that run only.

A node's state is then sound in a sense that only refers to who signed what
(`Network.Sound`), and stays so when more is signed. Its main clause is that
a committed block has a descendant a quorum voted for.
-/

namespace LoragonBFT

open TwoChain (Certified Final)

/-! ## The setting -/

/-- A fixed committee and the block all of its nodes start from. Validators
are known by their place. -/
structure Network (E : Env) where
  committee : ValidatorSet
  genesis : Block
  honest : Finset ℕ
  honest_lt : ∀ j ∈ honest, j < committee.size
  few_faults : 3 * (committee.size - honest.card) < committee.size
  size_lt : committee.size < 2 ^ 32
  keys_bls : ∀ v ∈ committee.validators, v.pubKey.type = KeyType.bls12381
  /-- The committee is in the order `NewValidatorSet` brings it into. -/
  committee_sorted : E.newValidatorSet committee.validators = some committee
  genesis_number : genesis.number = 0
  genesis_hash : genesis.header.validatorsHash = E.validatorSetHash committee

/-- A block tree: parents by identifier, with the number as the level. -/
abbrev BlockTree := TwoChain.Tree (fun id : Bytes32 => (number id).toNat)

/-- What the digests of a run stand for: the tree its block identifiers
belong to, and the certificates behind the entries of `validQCs`. -/
structure Preimages where
  tree : BlockTree
  qcOf : Bytes32 → QuorumCert

/-- The blocks a node voted for, oldest first. -/
def votedIDs (H : Hashes) (trace : List Event) : List Bytes32 :=
  trace.filterMap (fun e => match e with | .voted d _ => some (d.proposedBlock.id H) | _ => none)

/-- The node signed the hash, as a vote or otherwise. -/
def HasSigned (H : Hashes) (trace : List Event) (x : Bytes32) : Prop :=
  x ∈ votedIDs H trace ∨ Event.signed x ∈ trace

/-- One pacemaker a place. -/
abbrev Nodes := ℕ → Pacemaker

/-- Who signed what so far. -/
def Nodes.signed (H : Hashes) (nodes : Nodes) (j : ℕ) (x : Bytes32) : Prop :=
  HasSigned H (nodes j).trace x

/-- **A step of the network**: the node at a place takes an input. -/
def Nodes.step (E : Env) (nodes : Nodes) (a : ℕ × Input) : Nodes :=
  Function.update nodes a.1 ((nodes a.1).step E a.2)

namespace Network

variable {E : Env} (N : Network E) (D : Preimages)

/-- The places, as a committee. -/
def places : TwoChain.Committee ℕ where
  members := Finset.range N.committee.size
  honest := N.honest
  honest_subset j hj := Finset.mem_range.mpr (N.honest_lt j hj)
  few_faults := by
    have hsub : N.honest ⊆ Finset.range N.committee.size :=
      fun j hj => Finset.mem_range.mpr (N.honest_lt j hj)
    rw [Finset.card_sdiff_of_subset hsub, Finset.card_range]
    exact N.few_faults

/-- The keys are those of some of the members, each taken once. -/
def IsMemberKeys (keys : List Bytes) : Prop :=
  keys.Sublist N.committee.keys

/-- The honest nodes have just started, each with its own key, application
and clock. -/
def Starts (nodes : Nodes) : Prop :=
  ∀ j ∈ N.honest, ∃ v app now writeOK, N.committee.validators[j]? = some v
    ∧ startPacemaker E (Chain.initializeStore E N.genesis N.committee N.committee writeOK) app
      v.pubKey.bytes now = .ok (nodes j)

/-- **A message that can arrive**: none of the signatures it carries is
forged, and the digests of the block it carries do not collide with others. An
aggregate counts as the signature of every honest member among those it
verifies under; under other keys than the committee's it may verify as it
likes, since keys add up and any key is a summand of any sum. -/
structure Genuine (signed : ℕ → Bytes32 → Prop) (m : ConsensusMessage) : Prop where
  unforged : ∀ sig ∈ m.signatures, ∀ j ∈ N.honest, ∀ v, N.committee.validators[j]? = some v →
    ∀ x, (E.B.verify v.pubKey.bytes x sig = true
      ∨ ∃ keys, v.pubKey.bytes ∈ keys ∧ N.IsMemberKeys keys
        ∧ E.B.fastAggregateVerify keys x sig = true) → signed j x
  linked : ∀ msg blk, m = .proposal msg → msg.decodedBlock = some blk → blk.number ≠ 0 →
    D.tree.Link (blk.id E.H) blk.parentID
  certificate : ∀ msg blk, m = .proposal msg → msg.decodedBlock = some blk →
    D.qcOf (qcID E.H blk.qc) = blk.qc

/-- **A step that can happen**: an honest node takes an input other than a
synced block; what it receives is genuine; numbers do not wrap around; and
what it makes and signs itself collides with nothing. -/
structure Admissible (nodes : Nodes) (a : ℕ × Input) : Prop where
  honest : a.1 ∈ N.honest
  no_sync : ∀ blk qc, a.2 ≠ .sync blk qc
  genuine : ∀ msg senderAddr, a.2 = .receive msg senderAddr →
    N.Genuine D (nodes.signed E.H) msg
  number_ne : ∀ msg blk parent, (nodes a.1).Handles a.2 (.proposal msg) →
    msg.decodedBlock = some blk → (nodes a.1).core.IsDraft blk.parentID parent → blk.number ≠ 0
  proposed : ∀ d, Event.proposed d ∈ ((nodes a.1).step E a.2).trace →
    D.tree.Link (d.proposedBlock.id E.H) d.proposedBlock.parentID
  signed : ∀ x, Event.signed x ∈ ((nodes a.1).step E a.2).trace → D.tree.parentOf x = none

/-! ## What a node knows -/

/-- The draft of a block and the draft of its parent. -/
def TreeLink (E : Env) (D : Preimages) (d parent : DraftInfo) : Prop :=
  D.tree.Link (d.proposedBlock.id E.H) (parent.proposedBlock.id E.H)

/-- A vote manager whose votes are genuine, one a validator. -/
structure VotesSound (signed : ℕ → Bytes32 → Prop) (m : QCVoteManager) : Prop where
  size_eq : m.committeeSize = UInt32.ofNat N.committee.size
  nodup : ∀ key, ((m.votes key).map Prod.fst).Nodup
  member : ∀ key, ∀ v ∈ m.votes key, v.1.toNat < N.committee.size
  genuine : ∀ key, ∀ v ∈ m.votes key, v.1.toNat ∈ N.honest → signed v.1.toNat key.2

/-- The store holds the genesis block, blocks with a certified descendant,
and the committee. -/
structure StoreSound (signed : ℕ → Bytes32 → Prop) (kv : KV) : Prop where
  blocks : ∀ id b, kv.blocks id = some b →
    b = N.genesis ∨ b.number ≠ 0 ∧ Final N.places D.tree signed id
  validators_only : ∀ hash vset, kv.validators hash = some vset → vset = N.committee
  validators_mem : kv.validators (E.validatorSetHash N.committee) = some N.committee

/-- **A node whose certificates and commits are backed by votes.** -/
structure Sound (signed : ℕ → Bytes32 → Prop) (c : Core) : Prop where
  received : ∀ mi ∈ c.messages, N.Genuine D signed mi.msg
  tree : DraftTree E.H (TreeLink E D) c
  /-- A draft with number zero was made up from the genesis block. -/
  drafts : ∀ id d, c.proposals id = some d → d.proposedBlock.number = 0 →
    d.proposedBlock.header.validatorsHash = E.validatorSetHash N.committee
  store : N.StoreSound D signed c.kv
  /-- What `OnCommit` is called with has a certified descendant. -/
  lists : ∀ last l, Event.onCommit last l ∈ c.trace → ∀ b ∈ l, ∀ d, b.block = some d →
    d.proposedBlock.number ≠ 0 ∧ Final N.places D.tree signed (d.proposedBlock.id E.H)
  committee : c.epochState.committee = N.committee
  votes : N.VotesSound signed c.epochState.qcVoteManager
  /-- A certificate found valid is a quorum's, unless it is of one of the
  first two blocks or has a bit array of another size. -/
  cached : ∀ x ∈ c.validQCs, (D.qcOf x).number.toNat ≤ 1
    ∨ ((D.qcOf x).bitArray.size = N.committee.size →
      Certified N.places signed (D.qcOf x).blockID)

variable {N D} {signed signed' : ℕ → Bytes32 → Prop}

variable {m : ConsensusMessage} {qc : QuorumCert} {myPubKey : Bytes}

/-- **Soundness survives further signatures.** -/
theorem Genuine.mono (h : N.Genuine D signed m)
    (hmono : ∀ j ∈ N.honest, ∀ x, signed j x → signed' j x) : N.Genuine D signed' m :=
  ⟨fun sig hsig j hj v hv x hx => hmono j hj x (h.unforged sig hsig j hj v hv x hx),
    h.linked, h.certificate⟩

theorem Sound.mono {c : Core} (h : N.Sound D signed c)
    (hmono : ∀ j ∈ N.honest, ∀ x, signed j x → signed' j x) : N.Sound D signed' c where
  received mi hmi := (h.received mi hmi).mono hmono
  tree := h.tree
  drafts := h.drafts
  store :=
    { blocks := fun id b hb => (h.store.blocks id b hb).imp_right
        fun hfinal => ⟨hfinal.1, hfinal.2.mono hmono⟩
      validators_only := h.store.validators_only
      validators_mem := h.store.validators_mem }
  lists last l hl b hb d hd := (h.lists last l hl b hb d hd).imp_right fun hfinal =>
    hfinal.mono hmono
  committee := h.committee
  votes :=
    { size_eq := h.votes.size_eq
      nodup := h.votes.nodup
      member := h.votes.member
      genuine := fun key v hv hj => hmono _ hj _ (h.votes.genuine key v hv hj) }
  cached x hx := (h.cached x hx).imp_right fun hcert hsize => (hcert hsize).mono hmono

/-! ## Certificates are backed by votes -/

/-- A list of two thirds of the places is a quorum. -/
theorem isQuorum_toFinset {l : List ℕ} (hnodup : l.Nodup) (hlt : ∀ j ∈ l, j < N.committee.size)
    (hmany : 2 * N.committee.size ≤ 3 * l.length) : N.places.IsQuorum l.toFinset := by
  refine ⟨fun j hj => Finset.mem_range.mpr (hlt j (List.mem_toFinset.mp hj)), ?_⟩
  show 2 * (Finset.range N.committee.size).card ≤ _
  rw [Finset.card_range, List.toFinset_card_of_nodup hnodup]
  exact hmany

/-- **Enough votes under one key make their block certified.** -/
theorem VotesSound.certified {m : QCVoteManager} (h : N.VotesSound signed m)
    {key : UInt32 × Bytes32}
    (hmajority : majorityTwoThird (UInt32.ofNat (m.votes key).length) m.committeeSize = true) :
    Certified N.places signed key.2 := by
  set voters : List ℕ := (m.votes key).map (fun v => v.1.toNat)
  have hnodup : voters.Nodup := by
    have hmap : voters = ((m.votes key).map Prod.fst).map UInt32.toNat := by
      rw [List.map_map]
      rfl
    rw [hmap]
    exact (h.nodup key).map fun _ _ hij => UInt32.toNat.inj hij
  have hlt : ∀ j ∈ voters, j < N.committee.size := by
    intro j hj
    obtain ⟨v, hv, rfl⟩ := List.mem_map.mp hj
    exact h.member key v hv
  have hlength : voters.length = (m.votes key).length := List.length_map _
  -- there are no more voters than places, so their number fits its field
  have hle : (m.votes key).length ≤ N.committee.size := by
    rw [← hlength, ← List.length_range (n := N.committee.size)]
    exact (List.subperm_of_subset hnodup
      fun j hj => List.mem_range.mpr (hlt j hj)).length_le
  rw [majorityTwoThird_iff, h.size_eq, UInt32.toNat_ofNat_of_lt' N.size_lt,
    UInt32.toNat_ofNat_of_lt' (lt_of_le_of_lt hle N.size_lt), ← hlength] at hmajority
  refine ⟨voters.toFinset, isQuorum_toFinset hnodup hlt hmajority.2, fun j hj hhonest => ?_⟩
  obtain ⟨v, hv, rfl⟩ := List.mem_map.mp (List.mem_toFinset.mp hj)
  exact h.genuine key v hv hhonest

/-- **A certificate that verifies is a quorum's**, unless it is of one of the
first two blocks, if its bit array has the size of the committee. -/
theorem Genuine.certified (h : N.Genuine D signed m) {b : Block}
    (hcarried : qc.aggSig ∈ m.signatures)
    (hverify : b.verifyQC E.H E.B qc N.committee = .ok (true, none)) :
    qc.number.toNat ≤ 1
      ∨ (qc.bitArray.size = N.committee.size → Certified N.places signed qc.blockID) := by
  rcases Block.verifyQC_eq_true_iff.mp hverify with ⟨hid, hfirst⟩ | hverified
  · left
    rw [QuorumCert.number, ← hid, Block.number_id]
    rcases hfirst with h | h <;> rw [h] <;> decide
  right
  intro hsize
  obtain ⟨count, keys, hcount, hmajority, hkeys, -, hsig⟩ := hverified
  set voters : List ℕ := (List.range N.committee.size).filter qc.bitArray.bit
  have hlength : voters.length = count := by rw [BitArray.count_eq hcount, hsize]
  have hmany : 2 * N.committee.size ≤ 3 * voters.length := by
    rw [hlength]
    exact ((majority_iff_of_count hcount N.size_lt).mp hmajority).2
  have hvoter : ∀ j ∈ voters, j < N.committee.size ∧ qc.bitArray.bit j = true := by
    intro j hj
    obtain ⟨hrange, hbit⟩ := List.mem_filter.mp hj
    exact ⟨List.mem_range.mp hrange, hbit⟩
  refine ⟨voters.toFinset, isQuorum_toFinset (List.nodup_range.filter _)
    (fun j hj => (hvoter j hj).1) hmany, fun j hj hhonest => ?_⟩
  -- the key of a voter is among those the signature was verified under
  obtain ⟨hlt, hbit⟩ := hvoter j (List.mem_toFinset.mp hj)
  obtain ⟨v, hv⟩ : ∃ v, N.committee.validators[j]? = some v := ⟨_, List.getElem?_eq_getElem hlt⟩
  refine h.unforged qc.aggSig hcarried j hhonest v hv _ (.inr ⟨keys, ?_, ?_, hsig⟩)
  · rw [signerKeys_eq 0 _ N.keys_bls hkeys]
    refine List.mem_map.mpr ⟨(v, j), List.mem_filter.mpr ⟨?_, hbit⟩, rfl⟩
    exact List.mk_mem_zipIdx_iff_getElem?.mpr hv
  · rw [IsMemberKeys, signerKeys_eq 0 _ N.keys_bls hkeys]
    exact sublist_keys_signers N.committee qc.bitArray

/-! ## Counting a vote -/

theorem VotesSound.new (N : Network E) (signed : ℕ → Bytes32 → Prop) :
    N.VotesSound signed (.new (UInt32.ofNat N.committee.size)) where
  size_eq := rfl
  nodup _ := List.nodup_nil
  member _ _ hv := absurd hv List.not_mem_nil
  genuine _ _ hv := absurd hv List.not_mem_nil

/-- **Only genuine votes are counted.** -/
theorem VotesSound.addQCVote {es es' : EpochState} {signerIndex round : UInt32} {blockID : Bytes32}
    {sig : Bytes} {qc : Option QuorumCert} (h : N.VotesSound signed es.qcVoteManager)
    (hcommittee : es.committee = N.committee) (hm : N.Genuine D signed m)
    (hcarried : sig ∈ m.signatures)
    (hcount : es.addQCVote E.B signerIndex round blockID sig = .ok (qc, es')) :
    N.VotesSound signed es'.qcVoteManager := by
  rcases EpochState.addQCVote_cases hcount with ⟨-, rfl⟩ | ⟨hverify, manager, hadd, rfl⟩
  · exact h
  rcases QCVoteManager.addVote_cases hadd with ⟨-, rfl⟩ | ⟨-, hsize, hvotes, -⟩
  · exact h
  -- the signer is at its place and the signature verified
  obtain ⟨v, hv, hsig⟩ : ∃ v, N.committee.validators[signerIndex.toNat]? = some v
      ∧ E.B.verify v.pubKey.bytes blockID sig = true := by
    unfold EpochState.verifyVote at hverify
    rw [hcommittee] at hverify
    split at hverify
    · exact nomatch hverify
    · rename_i v hv
      exact ⟨v, hv, (Bool.and_eq_true_iff.mp (Except.ok.inj hverify)).2⟩
  have hplace : signerIndex.toNat < N.committee.size := (List.getElem?_eq_some_iff.mp hv).1
  have hsigned : signerIndex.toNat ∈ N.honest → signed signerIndex.toNat blockID := fun hj =>
    hm.unforged sig hcarried _ hj v hv blockID (.inl hsig)
  have hcases : ∀ key, manager.votes key = es.qcVoteManager.votes key
      ∨ key = (round, blockID)
        ∧ manager.votes key = (es.qcVoteManager.votes key).set signerIndex sig blockID := by
    intro key
    rw [hvotes, Function.update_apply]
    split
    · rename_i hkey
      subst hkey
      exact .inr ⟨rfl, rfl⟩
    · exact .inl rfl
  refine ⟨hsize.trans h.size_eq, fun key => ?_, fun key v' hv' => ?_, fun key v' hv' hj => ?_⟩
  · rcases hcases key with heq | ⟨-, heq⟩
    · exact heq ▸ h.nodup key
    · exact heq ▸ VoteMap.nodup_set signerIndex sig blockID (h.nodup key)
  · rcases hcases key with heq | ⟨-, heq⟩
    · exact h.member key v' (heq ▸ hv')
    · rcases VoteMap.mem_set (heq ▸ hv') with hold | rfl
      · exact h.member key v' hold
      · exact hplace
  · rcases hcases key with heq | ⟨rfl, heq⟩
    · exact h.genuine key v' (heq ▸ hv') hj
    · rcases VoteMap.mem_set (heq ▸ hv') with hold | rfl
      · exact h.genuine _ v' hold hj
      · exact hsigned hj

/-! ## The lists handed to `OnCommit` -/

/-- A draft descends from every draft its parent pointers lead to. -/
theorem descends_of_mem (x : DraftInfo) (l : List DraftInfo)
    (hlinked : (x :: l).IsChain (TreeLink E D)) {y : DraftInfo} (hy : y ∈ l) :
    D.tree.Descends (x.proposedBlock.id E.H) (y.proposedBlock.id E.H) := by
  induction l generalizing x with
  | nil => exact absurd hy List.not_mem_nil
  | cons parent rest ih =>
    obtain ⟨hlink, hrest⟩ := List.isChain_cons_cons.mp hlinked
    rcases List.mem_cons.mp hy with rfl | hy
    · exact .single hlink
    · exact .head hlink (ih parent hrest hy)

section Step

variable {nodes : Nodes} {a : ℕ × Input} {c c' : Core}

variable {s : Pacemaker}

/-- A message that is handled is genuine. -/
theorem Sound.handled {i : Input} (hs : N.Sound D signed s.core) (h : s.Handles i m) :
    N.Genuine D signed m := by
  obtain ⟨-, mi, rest, hqueue, rfl⟩ := h
  refine hs.received mi ?_
  have hmem : mi ∈ s.inQueue := hqueue ▸ List.mem_cons_self
  simp [Core.messages, Pacemaker.core, hmem]

/-- A block the executor takes for a parent and that has number zero is the
genesis block, as far as its validators are concerned. -/
theorem Sound.parentBlock_hash (hs : N.Sound D signed s.core) {blk parent : Block}
    (h : s.chain.parentBlock blk = some parent) (hzero : parent.number = 0) :
    parent.header.validatorsHash = E.validatorSetHash N.committee := by
  have hstored : ∀ id, s.chain.getBlock id = some parent →
      parent.header.validatorsHash = E.validatorSetHash N.committee := by
    intro id hid
    rcases hs.store.blocks id parent hid with rfl | ⟨hne, -⟩
    · exact N.genesis_hash
    · exact absurd hzero hne
  unfold Chain.parentBlock at h
  split at h
  · rename_i parent' hparent
    obtain rfl := Option.some.inj h
    exact hstored _ hparent
  · rename_i hnone
    obtain ⟨d, hd, rfl⟩ := Option.map_eq_some_iff.mp h
    unfold Chain.getDraft at hd
    split at hd
    · rename_i d' hd'
      obtain rfl := Option.some.inj hd
      exact hs.drafts _ _ hd' hzero
    · rw [hnone] at hd
      exact nomatch hd

/-- **A proposal is accepted only with a bit array of the committee's
size**: the application is asked, and the commit information it is given
counts the bits against the committee. -/
theorem Sound.size_of_accepted {i : Input} (hs : N.Sound D signed s.core) {msg : PMProposalMessage}
    {blk : Block} {parent bnew : DraftBlock} (haccepted : Accepted E s i msg blk parent bnew)
    (hne : blk.number ≠ 0) :
    blk.qc.bitArray.size = N.committee.size := by
  obtain ⟨parentBlock, info, hparent, hinfo⟩ := haccepted.commitInfo
  unfold Chain.buildLastCommitInfo at hinfo
  rw [if_neg hne] at hinfo
  dsimp only at hinfo
  split at hinfo
  · rename_i hnone
    split at hinfo
    · rename_i hzero
      rw [hs.parentBlock_hash hparent hzero] at hnone
      exact nomatch hnone.symm.trans hs.store.validators_mem
    · exact nomatch hinfo
  · rename_i vset hvset
    split at hinfo
    · exact nomatch hinfo
    · rename_i hsize
      rw [← hs.store.validators_only _ vset hvset]
      exact (not_not.mp hsize).symm

/-- **The certificate `Update` is given is a quorum's**, unless it is of one
of the first two blocks. -/
theorem Sound.certified_of_source (hok : N.Admissible D nodes a)
    (hs : N.Sound D signed (nodes a.1).core) (hc : N.Sound D signed c)
    (hsource : UpdateSource E (nodes a.1) a.2 c qc) :
    qc.number.toNat ≤ 1 ∨ Certified N.places signed qc.blockID := by
  cases hsource with
  | proposal msg blk parent bnew haccepted hqc hvalid hextended hkv hdrafts =>
    subst hqc
    have hne : blk.number ≠ 0 := hok.number_ne msg blk parent haccepted.handles haccepted.decoded
      haccepted.parent_isDraft
    have hqcOf : D.qcOf (qcID E.H blk.qc) = blk.qc :=
      (hs.handled haccepted.handles).certificate msg blk rfl haccepted.decoded
    have hcached := hc.cached _ hvalid
    rw [hqcOf] at hcached
    exact hcached.imp_right fun hcert => hcert (hs.size_of_accepted haccepted hne)
  | timeout msg hhandles hformed hdrafts hlast =>
    right
    have hvotes := hc.votes
    rcases EpochState.addQCVote_cases hformed with ⟨h, -⟩ | ⟨-, manager, hadd, hes⟩
    · exact nomatch h
    rcases QCVoteManager.addVote_cases hadd with
      ⟨h, -⟩ | ⟨-, hsize, -, ⟨h, -⟩ | ⟨q, hq, ⟨hid, -⟩, -, hmajority⟩⟩
    · exact nomatch h
    · exact nomatch h
    obtain rfl := Option.some.inj hq
    rw [hes] at hvotes
    rw [← hsize] at hmajority
    rw [hid]
    exact hvotes.certified hmajority

/-- **What is handed to `OnCommit` has a certified descendant.** -/
theorem Sound.final_of_commitList (hok : N.Admissible D nodes a)
    (hs : N.Sound D signed (nodes a.1).core) (hc : N.Sound D signed c) {bPrime : DraftBlock}
    {l : List CommitReadyBlock} (hsource : UpdateSource E (nodes a.1) a.2 c qc)
    (hprime : c.IsEscortDraft qc bPrime) (huncommitted : bPrime.committed = false)
    (hwalk : commitReadyBlocks c.lastCommitted.number bPrime.toDraftInfo bPrime.ancestors []
      = .ok l) {b : CommitReadyBlock} (hb : b ∈ l) {d : DraftBlock} (hd : b.block = some d) :
    d.proposedBlock.number ≠ 0 ∧ Final N.places D.tree signed (d.proposedBlock.id E.H) := by
  obtain ⟨hmap, -⟩ := hprime.in_map huncommitted
  have htree := hc.tree.inTree hmap
  rcases mem_commitReadyBlocks _ _ _ hwalk hb with h | ⟨_, x, rest, hx, -, hmem, hlast⟩
  · exact absurd h List.not_mem_nil
  obtain rfl := Option.some.inj (hd.symm.trans (congrArg CommitReadyBlock.block hx))
  have hne : x.proposedBlock.number ≠ 0 := by
    rw [← htree.height_eq x (List.mem_cons_of_mem _ hmem)]
    rintro hzero
    rw [hzero] at hlast
    exact absurd hlast UInt32.not_lt_zero
  have hdescends : D.tree.Descends qc.blockID (x.proposedBlock.id E.H) := by
    rw [← htree.keyed]
    exact descends_of_mem _ _ htree.linked hmem
  refine ⟨hne, qc.blockID, ?_, hdescends⟩
  rcases hs.certified_of_source hok hc hsource with hfirst | hcertified
  · -- below the first block there is only number zero
    have hlt : (number (x.proposedBlock.id E.H)).toNat < qc.number.toNat := hdescends.level_lt
    rw [Block.number_id] at hlt
    have hzero : x.proposedBlock.number.toNat = (0 : UInt32).toNat := by
      show _ = 0
      omega
    exact absurd (UInt32.toNat.inj hzero) hne
  · exact hcertified

/-! ## A step keeps a node sound -/

/-- A block whose parent is known is linked to it. -/
theorem Sound.link_of_accepted (hok : N.Admissible D nodes a)
    (hs : N.Sound D signed (nodes a.1).core) {msg : PMProposalMessage} {blk : Block}
    {parent bnew : DraftBlock} (haccepted : Accepted E (nodes a.1) a.2 msg blk parent bnew) :
    D.tree.Link (blk.id E.H) blk.parentID :=
  (hs.handled haccepted.handles).linked msg blk rfl haccepted.decoded
    (hok.number_ne msg blk parent haccepted.handles haccepted.decoded haccepted.parent_isDraft)

theorem Sound.tree_step (hok : N.Admissible D nodes a) (hs : N.Sound D signed (nodes a.1).core)
    (hstep : CoreStep E (nodes a.1) a.2 c c') (htrace : c'.trace <+: ((nodes a.1).step E a.2).trace)
    (h : DraftTree E.H (TreeLink E D) c) : DraftTree E.H (TreeLink E D) c' := by
  refine DraftTree.step hstep ?_ ?_ hs.tree h
  · intro msg blk parent bnew haccepted _ hparent
    have hlink := hs.link_of_accepted hok haccepted
    obtain ⟨ref, rfl⟩ := haccepted.bnew_eq
    show D.tree.Link (blk.id E.H) (parent.proposedBlock.id E.H)
    rw [hparent.keyed]
    exact hlink
  · intro parent d p timestamp round txs msg _ _ _ hd hevent
    have hlink := hok.proposed d (htrace.subset hevent)
    rw [hd] at hlink ⊢
    exact hlink

theorem Sound.drafts_step (hok : N.Admissible D nodes a) (hs : N.Sound D signed (nodes a.1).core)
    (hstep : CoreStep E (nodes a.1) a.2 c c') (htrace : c'.trace <+: ((nodes a.1).step E a.2).trace)
    (h : ∀ id d, c.proposals id = some d → d.proposedBlock.number = 0 →
      d.proposedBlock.header.validatorsHash = E.validatorSetHash N.committee) :
    ∀ id d, c'.proposals id = some d → d.proposedBlock.number = 0 →
      d.proposedBlock.header.validatorsHash = E.validatorSetHash N.committee := by
  -- a draft is added: it is enough to look at that one
  have hadd : ∀ d₀ : DraftBlock, (d₀.proposedBlock.number = 0 →
      d₀.proposedBlock.header.validatorsHash = E.validatorSetHash N.committee) →
      ∀ id d, (c.addDraft E.H d₀).proposals id = some d → d.proposedBlock.number = 0 →
        d.proposedBlock.header.validatorsHash = E.validatorSetHash N.committee := by
    intro d₀ hd₀ id d hd hzero
    simp only [Core.addDraft, Function.update_apply] at hd
    split at hd
    · obtain rfl := Option.some.inj hd
      exact hd₀ hzero
    · exact h id d hd hzero
  cases hstep with
  | accept msg blk parent bnew haccepted =>
    refine hadd bnew fun hzero => absurd ?_ (hok.number_ne msg blk parent haccepted.handles
      haccepted.decoded haccepted.parent_isDraft)
    obtain ⟨ref, rfl⟩ := haccepted.bnew_eq
    exact hzero
  | propose parent d =>
    refine hadd d fun hzero => ?_
    have hlevel := D.tree.level_eq _ _ (hok.proposed d (htrace.subset (by simp)))
    rw [Block.number_id, hzero] at hlevel
    exact absurd hlevel (by simp)
  | regulate bestNode es hcmd hbest =>
    refine hadd bestNode fun hzero => ?_
    rcases hbest with ⟨hd, -⟩ | ⟨-, blk, ref, hblk, rfl⟩
    · exact hs.drafts _ bestNode hd hzero
    · rcases hs.store.blocks _ blk hblk with rfl | ⟨hne, -⟩
      · exact N.genesis_hash
      · exact absurd hzero hne
  | prune d refs =>
    intro id d' hd'
    exact h id d' (Option.filter_eq_some_iff.mp hd').1
  | _ => exact h

theorem Sound.store_step (hok : N.Admissible D nodes a)
    (hstep : CoreStep E (nodes a.1) a.2 c c')
    (hlists : ∀ last l, Event.onCommit last l ∈ c.trace → ∀ b ∈ l, ∀ d, b.block = some d →
      d.proposedBlock.number ≠ 0 ∧ Final N.places D.tree signed (d.proposedBlock.id E.H))
    (h : N.StoreSound D signed c.kv) : N.StoreSound D signed c'.kv := by
  cases hstep with
  | addBlock blk appHash kv best hsource hhigher hkv =>
    rcases hkv with rfl | ⟨-, hvalidators, hblocks⟩
    · exact h
    have hfinal : blk.number ≠ 0 ∧ Final N.places D.tree signed (blk.id E.H) := by
      rcases hsource with ⟨last, l, b, d, hevent, hb, hd, rfl⟩ | ⟨qc, hsync⟩
      · exact hlists last l hevent b hb d hd
      · exact absurd hsync (hok.no_sync blk qc)
    refine ⟨fun id b hb => ?_, fun hash vset hvset => ?_, ?_⟩
    · have hb' : kv.blocks id = some b := hb
      rw [hblocks, Function.update_apply] at hb'
      split at hb'
      · rename_i hid
        obtain rfl := Option.some.inj hb'
        exact .inr ⟨hfinal.1, hid ▸ hfinal.2⟩
      · exact h.blocks id b hb'
    · refine h.validators_only hash vset ?_
      rw [← hvalidators]
      exact hvset
    · show kv.validators _ = _
      rw [hvalidators]
      exact h.validators_mem
  | _ => exact h

theorem Sound.lists_step (hok : N.Admissible D nodes a) (hs : N.Sound D signed (nodes a.1).core)
    (hc : N.Sound D signed c) (hstep : CoreStep E (nodes a.1) a.2 c c') :
    ∀ last l, Event.onCommit last l ∈ c'.trace → ∀ b ∈ l, ∀ d, b.block = some d →
      d.proposedBlock.number ≠ 0 ∧ Final N.places D.tree signed (d.proposedBlock.id E.H) := by
  have happend : ∀ e : Event, (∀ last l, e = .onCommit last l → ∀ b ∈ l, ∀ d, b.block = some d →
      d.proposedBlock.number ≠ 0 ∧ Final N.places D.tree signed (d.proposedBlock.id E.H)) →
      ∀ last l, Event.onCommit last l ∈ c.trace ++ [e] → ∀ b ∈ l, ∀ d, b.block = some d →
        d.proposedBlock.number ≠ 0 ∧ Final N.places D.tree signed (d.proposedBlock.id E.H) := by
    intro e he last l hmem
    rcases List.mem_append.mp hmem with hold | hnew
    · exact hc.lists last l hold
    · exact he last l (List.mem_singleton.mp hnew).symm
  cases hstep with
  | commitList qc bPrime l hsource hprime huncommitted hwalk =>
    refine happend _ fun last l' hl b hb d hd => ?_
    obtain ⟨rfl, rfl⟩ := Event.onCommit.inj hl
    exact hs.final_of_commitList hok hc hsource hprime huncommitted hwalk hb hd
  | record e hquiet =>
    refine happend e fun last l hl => ?_
    rw [hl] at hquiet
    exact nomatch hquiet
  | vote => exact happend _ fun _ _ hl => nomatch hl
  | sendVote => exact happend _ fun _ _ hl => nomatch hl
  | propose => exact happend _ fun _ _ hl => nomatch hl
  | _ => exact hc.lists

/-- An epoch state made from a sound store is of the committee. -/
theorem StoreSound.newEpochState {chain : Chain} (h : N.StoreSound D signed chain.kv) {leaf : Block}
    {es : EpochState} (hes : newEpochState E chain leaf myPubKey = .ok (some es)) :
    es.committee = N.committee ∧ N.VotesSound signed es.qcVoteManager := by
  unfold LoragonBFT.newEpochState at hes
  split at hes
  · exact nomatch hes
  split at hes
  · exact nomatch hes
  rename_i vset hvset
  obtain ⟨blk, -, hvset⟩ := Option.bind_eq_some_iff.mp hvset
  obtain rfl : vset = N.committee := h.validators_only _ vset hvset
  split at hes
  · exact nomatch hes
  rw [N.committee_sorted] at hes
  obtain rfl := Option.some.inj (Except.ok.inj hes)
  exact ⟨rfl, .new N signed⟩

theorem Sound.epoch_step (hs : N.Sound D signed (nodes a.1).core) (hc : N.Sound D signed c)
    (hstep : CoreStep E (nodes a.1) a.2 c c') :
    c'.epochState.committee = N.committee ∧ N.VotesSound signed c'.epochState.qcVoteManager := by
  cases hstep with
  | countQCVote m signerIndex round blockID sig qc es hhandles hcarried hcount =>
    refine ⟨?_, hc.votes.addQCVote hc.committee (hs.handled hhandles) hcarried hcount⟩
    obtain ⟨m, rfl⟩ := EpochState.addQCVote_eq hcount
    exact hc.committee
  | countTCVote signerIndex round sig hash tc es hcount =>
    obtain ⟨m, rfl⟩ := EpochState.addTCVote_eq hcount
    exact ⟨hc.committee, hc.votes⟩
  | regulate bestNode es hcmd hbest hround hes =>
    rcases hes with rfl | hes
    · exact ⟨hc.committee, hc.votes⟩
    · exact hs.store.newEpochState hes
  | _ => exact ⟨hc.committee, hc.votes⟩

theorem Sound.cached_step (hok : N.Admissible D nodes a) (hs : N.Sound D signed (nodes a.1).core)
    (hc : N.Sound D signed c) (hstep : CoreStep E (nodes a.1) a.2 c c') :
    ∀ x ∈ c'.validQCs, (D.qcOf x).number.toNat ≤ 1
      ∨ ((D.qcOf x).bitArray.size = N.committee.size →
        Certified N.places signed (D.qcOf x).blockID) := by
  cases hstep with
  | cacheQC b qc hverified hsource =>
    intro x hx
    rcases mem_of_mem_lruAdd hx with rfl | hold
    · rcases hsource with ⟨msg, blk, hhandles, hdecoded, rfl⟩ | ⟨blk, hsync⟩
      · have hgenuine := hs.handled hhandles
        rw [hgenuine.certificate msg blk rfl hdecoded]
        rw [hc.committee] at hverified
        exact hgenuine.certified (by simp [ConsensusMessage.signatures, hdecoded]) hverified
      · exact absurd hsync (hok.no_sync blk qc)
    · exact hc.cached x hold
  | _ => exact hc.cached

/-- **An action keeps a node sound.** -/
theorem Sound.action (hok : N.Admissible D nodes a)
    (hs : N.Sound D (nodes.signed E.H) (nodes a.1).core)
    (hstep : CoreStep E (nodes a.1) a.2 c c') (htrace : c'.trace <+: ((nodes a.1).step E a.2).trace)
    (hc : N.Sound D (nodes.signed E.H) c) : N.Sound D (nodes.signed E.H) c' where
  received mi hmi := by
    rcases hstep.mem_messages hmi with hold | hold | ⟨senderAddr, hreceived⟩ | hhandles
    · exact hc.received mi hold
    · exact hs.received mi hold
    · exact hok.genuine _ senderAddr hreceived
    · exact hs.handled hhandles
  tree := hs.tree_step hok hstep htrace hc.tree
  drafts := hs.drafts_step hok hstep htrace hc.drafts
  store := Sound.store_step hok hstep hc.lists hc.store
  lists := hs.lists_step hok hc hstep
  committee := (hs.epoch_step hc hstep).1
  votes := (hs.epoch_step hc hstep).2
  cached := hs.cached_step hok hc hstep

end Step

/-! ## Starting -/

theorem StoreSound.initializeStore (N : Network E) (D : Preimages) (signed : ℕ → Bytes32 → Prop)
    (writeOK : ℕ → Bool) :
    N.StoreSound D signed
      (Chain.initializeStore E N.genesis N.committee N.committee writeOK).kv where
  blocks id b hb := .inl (Chain.eq_of_blocks_initializeStore hb).2
  validators_only hash vset hvset := by
    simp only [Chain.initializeStore] at hvset
    split at hvset
    · exact (Option.some.inj hvset).symm
    · cases hvset
  validators_mem := by simp [Chain.initializeStore]

/-- A node that has just started on a chain with nothing but a genesis block
is sound. -/
theorem Sound.of_start {chain : Chain} {app : App} {now : Time} {p : Pacemaker}
    (hfresh : chain.Fresh E.H) (hstore : N.StoreSound D signed chain.kv)
    (hzero : number chain.bestQC.blockID = 0)
    (h : startPacemaker E chain app myPubKey now = .ok p) : N.Sound D signed p.core := by
  have htree : DraftTree E.H (TreeLink E D) p.core := DraftTree.start hfresh h
  obtain ⟨bestNode, es, hbest, hes, round, hcore⟩ := startPacemaker_core h
  obtain ⟨hcommittee, hvotes⟩ := hstore.newEpochState hes
  -- the only draft is made up from the genesis block
  have hgenesis : bestNode.proposedBlock = N.genesis := by
    unfold Chain.getDraftByEscortQC at hbest
    rw [hfresh.no_drafts] at hbest
    obtain ⟨blk, hblk, rfl⟩ := Option.map_eq_some_iff.mp hbest
    rcases hstore.blocks _ blk hblk with hblk' | ⟨hne, -⟩
    · exact hblk'
    · refine absurd ?_ hne
      rw [← Block.number_id E.H blk, hfresh.stored _ blk hblk, hzero]
  rw [hcore] at htree ⊢
  refine ⟨?_, htree, ?_, hstore, ?_, hcommittee, hvotes, ?_⟩
  · exact fun _ h => absurd h List.not_mem_nil
  · intro id d hd _
    simp only [Function.update_apply] at hd
    split at hd
    · rw [← Option.some.inj hd, hgenesis, N.genesis_hash]
    · rw [hfresh.no_drafts] at hd
      exact nomatch hd
  · exact fun _ _ h => absurd h List.not_mem_nil
  · exact fun _ h => absurd h List.not_mem_nil

/-- **A node that has just started is sound.** -/
theorem Sound.start {app : App} {now : Time} {writeOK : ℕ → Bool} {p : Pacemaker}
    (h : startPacemaker E (Chain.initializeStore E N.genesis N.committee N.committee writeOK) app
      myPubKey now = .ok p) : N.Sound D signed p.core := by
  refine .of_start (Chain.fresh_initializeStore E N.genesis N.committee N.committee writeOK)
    (StoreSound.initializeStore N D signed writeOK) ?_ h
  show number (N.genesis.id E.H) = 0
  rw [Block.number_id, N.genesis_number]

end Network

end LoragonBFT
