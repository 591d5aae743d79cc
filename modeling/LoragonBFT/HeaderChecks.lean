import LoragonBFT.BlockBinding
import LoragonBFT.Codec
import LoragonBFT.Pacemaker.Acceptance
import LoragonBFT.Pacemaker.Standing

/-!
# What is checked of a header

Two parts of the node look at the blocks of others. `OnReceiveProposal` looks
at a live proposal: at its certificate, its round and its transactions.
`validateBlock` looks at a block that a peer sends to a node that catches up:
at the certificate's block, the timestamp, the last block of the epoch before
and the root of the transactions. The two were written independently, and
they have no check in common. So what consensus accepts, and commits, can be a
block that no node can catch up with. The blocks an honest leader makes are
not of that kind, if only it had a sound parent to build on: one with a time
that a clock can pass, and that does not say its epoch began after itself.

Nor does either of them look at the three fields that decide which committee
takes over after the block. A leader computes them from the parent and from
the registry of announced validator sets (`buildBlock`); a receiver that has
the same parent and the same registry could compute them too, but takes
whatever the header says. They are as the receiver would compute them if the
proposal is an honest leader's and the two registries agree – and for an
honest leader's proposal that is the exact condition.
-/

namespace LoragonBFT

open EStateM

variable {E : Env}

/-! ## Blocks that can be caught up with -/

/-- A block as `validateBlock` wants it next to its parent: its certificate
is of the block it names as the parent, its time is later, the block its
epoch began with is not an earlier one, and its transactions are those its
header commits to. -/
structure SyncReady (H : Hashes) (blk parent : Block) : Prop where
  certificate : blk.qc.blockID = blk.parentID
  timestamp : parent.header.timestamp < blk.header.timestamp
  lastKBlock : parent.header.lastKBlock ≤ blk.header.lastKBlock
  txsRoot : blk.header.txsRoot = Block.rootHash H blk.txs

/-- A clock that can be read is far from the end of its range. -/
theorem le_add_blockInterval {timestamp now : UInt64} (hlater : timestamp ≤ now)
    (hclock : now.toNat < 2 ^ 63) : timestamp ≤ now + blockInterval := by
  have hten : blockInterval.toNat = 10 := rfl
  rw [UInt64.le_iff_toNat_le] at hlater ⊢
  rw [UInt64.toNat_add, hten, Nat.mod_eq_of_lt (by omega)]
  omega

/-- **What `validateBlock` asks for**, of a block and the parent that it
names. -/
theorem Pacemaker.validateBlock_eq_none_iff (p : Pacemaker) {blk parent : Block} {now : UInt64}
    (hparent : parent.id E.H = blk.parentID) (hlater : blk.header.timestamp ≤ now)
    (hclock : now.toNat < 2 ^ 63) :
    p.validateBlock E blk parent now false = none ↔ SyncReady E.H blk parent := by
  have hpresent : ¬ blk.header.timestamp > now + blockInterval :=
    UInt64.not_lt.mpr (le_add_blockInterval hlater hclock)
  have hcheck : ∀ (c : Prop) [Decidable c] (e : Err) (x : Option Err),
      (if c then some e else x) = none ↔ ¬ c ∧ x = none := by
    intro c _ e x
    split <;> simp [*]
  unfold Pacemaker.validateBlock
  rw [hparent, if_neg hpresent]
  simp only [hcheck, UInt64.not_le, UInt32.not_lt, not_not]
  constructor
  · rintro ⟨hqc, htime, hkblock, hroot, -⟩
    exact ⟨hqc.symm, htime, hkblock, hroot⟩
  · intro h
    exact ⟨h.certificate.symm, h.timestamp, h.lastKBlock, h.txsRoot, nofun, trivial⟩

/-- **What a leader builds on a parent is as `validateBlock` wants it** if the
time is later and, at a change of epoch, the parent does not name a later
block than itself as the last of the epoch before. -/
theorem syncReady_buildBlock_iff (p : Pacemaker) {timestamp : UInt64} {parent : DraftBlock}
    {justify : DraftQC} (round : UInt32) (txs : List Bytes)
    (hqc : justify.qc.blockID = parent.proposedBlock.id E.H) :
    SyncReady E.H (buildBlock E p timestamp parent justify round txs).proposedBlock.wire
        parent.proposedBlock
      ↔ parent.proposedBlock.header.timestamp < timestamp
        ∧ (parent.proposedBlock.isKBlock = true →
          parent.proposedBlock.header.lastKBlock ≤ parent.proposedBlock.number) := by
  have hkblock : parent.proposedBlock.header.lastKBlock
        ≤ (if parent.proposedBlock.isKBlock then parent.proposedBlock.number
          else parent.proposedBlock.header.lastKBlock)
      ↔ (parent.proposedBlock.isKBlock = true →
        parent.proposedBlock.header.lastKBlock ≤ parent.proposedBlock.number) := by
    split
    · rename_i hk
      exact ⟨fun h _ => h, fun h => h hk⟩
    · rename_i hk
      exact ⟨fun _ h => absurd h hk, fun _ => UInt32.le_refl _⟩
  constructor
  · rintro ⟨-, htime, hlast, -⟩
    exact ⟨htime, hkblock.mp hlast⟩
  · rintro ⟨htime, hlast⟩
    exact ⟨hqc, htime, hkblock.mpr hlast, rfl⟩

/-! ## The time of a new block -/

/-- The second before the first one that `time.Unix` takes for one of long
ago. -/
def Time.lastUnix : ℕ := 2 ^ 63 - 1 - 62135596800

theorem toInt_toInt64 (x : UInt64) :
    x.toInt64.toInt = if x.toNat < 2 ^ 63 then (x.toNat : ℤ) else x.toNat - 2 ^ 64 := by
  show x.toBitVec.toInt = _
  rw [BitVec.toInt_eq_toNat_cond, UInt64.toNat_toBitVec]
  split <;> split <;> omega

/-- **The time after a parent's** is one second later, or long ago. -/
theorem Time.ofUnix_add_one (x : UInt64) :
    Time.ofUnix (x + 1)
      = (if x.toNat < Time.lastUnix then (x.toNat : ℤ) + 1 else x.toNat + 1 - 2 ^ 64) * 10 ^ 9 := by
  have hx := x.toNat_lt
  have hsum : (x + 1 + 62135596800).toNat = (x.toNat + 62135596801) % 2 ^ 64 := by
    rw [UInt64.toNat_add, UInt64.toNat_add]
    show ((x.toNat + 1) % 2 ^ 64 + 62135596800) % 2 ^ 64 = _
    omega
  have hsec : (x + 1 + 62135596800).toInt64.toInt - 62135596800
      = if x.toNat < Time.lastUnix then (x.toNat : ℤ) + 1 else x.toNat + 1 - 2 ^ 64 := by
    rw [toInt_toInt64, hsum, Time.lastUnix]
    split <;> split <;> omega
  rw [Time.ofUnix, hsec]

/-- **A new block is later than its parent** if the parent's time is one that
a clock can pass. -/
theorem timestamp_lt_targetTime_iff {p : Pacemaker} {b : Block} (hpos : 0 ≤ p.clock)
    (hlast : p.clock < Time.lastUnix * 10 ^ 9) :
    b.header.timestamp < Time.unix (p.targetTime b) ↔ b.header.timestamp.toNat < Time.lastUnix := by
  have hseconds : ∀ (x : ℕ) (t : ℤ), x < 2 ^ 64 → 0 ≤ t → t < (Time.lastUnix : ℤ) * 10 ^ 9 →
      (x < (max t ((if x < Time.lastUnix then (x : ℤ) + 1 else x + 1 - 2 ^ 64) * 10 ^ 9)
        / 10 ^ 9).toNat % 2 ^ 64 ↔ x < Time.lastUnix) := by
    unfold Time.lastUnix
    intro x t hx hpos hlast
    split <;> omega
  rw [UInt64.lt_iff_toNat_lt, Time.unix, UInt64.toNat_ofNat', Pacemaker.targetTime,
    Time.ofUnix_add_one]
  exact hseconds _ _ b.header.timestamp.toNat_lt hpos hlast

/-! ## What is accepted -/

/-- **The drafts of a node stand under their blocks' identifiers**, whatever
it is sent. -/
theorem draftTree_of_runs {chain : Chain} {app : App} {myPubKey : Bytes} {clock : Time}
    {p₀ p : Pacemaker} (hchain : chain.Fresh E.H)
    (hstart : startPacemaker E chain app myPubKey clock = .ok p₀) (hrun : Runs E p₀ p) :
    DraftTree E.H (fun _ _ => True) p.core :=
  Run.core_invariant hrun (DraftTree.start hchain hstart) fun _ _ _ hq _ _ hstep _ hc =>
    DraftTree.step hstep (fun _ _ _ _ _ _ _ => trivial) (fun _ _ _ _ _ _ _ _ _ _ _ _ => trivial)
      hq hc

section Accepted

variable {chain : Chain} {app : App} {myPubKey : Bytes} {clock : Time} {p₀ p : Pacemaker}
  {cmdCh : Bool} {rest : List IncomingMsg} {mi : IncomingMsg} {msg : PMProposalMessage}
  {bnew P : DraftBlock}

/-- The draft of an accepted proposal is of the decoded block, and its parent
is the block's. -/
theorem accepted_parent (hchain : chain.Fresh E.H)
    (hstart : startPacemaker E chain app myPubKey clock = .ok p₀) (hrun : Runs E p₀ p)
    (haccept : (p.taking cmdCh rest).AcceptsProposal E mi msg bnew)
    (hparent : bnew.parent = some P) :
    msg.decodedBlock = some bnew.proposedBlock
      ∧ P.proposedBlock.id E.H = bnew.proposedBlock.parentID := by
  obtain ⟨p', haccept⟩ := haccept
  obtain ⟨blk, parent, ref, hpasses, rfl⟩ := ((passProposal_exact mi msg _).of_ok haccept).2 _ rfl
  obtain rfl : parent = P := Option.some.inj hparent
  have htree := draftTree_of_runs hchain hstart hrun
  have hdraft : p.core.IsDraft blk.parentID parent := isDraft_of_lookup hpasses.parent_eq
  exact ⟨hpasses.decoded, (htree.inTree_of_isDraft hdraft).keyed⟩

end Accepted

namespace Testnet

/-- The node accepts the proposal, and the test says yes to the draft made of
it and its parent. -/
def acceptedWith (p : Pacemaker) (msg : PMProposalMessage) (test : DraftBlock → DraftBlock → Bool) :
    Bool :=
  match passProposal env (newIncomingMsg hashes (.proposal msg) []) msg (p.taking false []) with
  | .ok (some bnew) _ => bnew.parent.any (test bnew)
  | _ => false

theorem exists_of_acceptedWith {p : Pacemaker} {msg : PMProposalMessage}
    {test : DraftBlock → DraftBlock → Bool} (h : acceptedWith p msg test = true) :
    ∃ bnew P, (p.taking false []).AcceptsProposal env (newIncomingMsg hashes (.proposal msg) []) msg
        bnew
      ∧ bnew.parent = some P ∧ test bnew P = true := by
  unfold acceptedWith at h
  split at h
  · rename_i bnew p' heq
    obtain ⟨P, hparent, htest⟩ := (Option.any_eq_true _ _).mp h
    exact ⟨bnew, P, ⟨p', heq⟩, hparent, htest⟩
  · exact nomatch h

/-- **Consensus accepts a block that no node can import**: the header of the
empty block over a transaction. -/
theorem refilledBlock_cannot_sync :
    ∃ p mi msg bnew P, start 1 = .ok p
      ∧ (p.taking false []).AcceptsProposal env mi msg bnew ∧ bnew.parent = some P
      ∧ bnew.proposedBlock.header.timestamp ≤ 5
      ∧ p.validateBlock env bnew.proposedBlock P.proposedBlock 5 false
        = some (.consensus "block txs root mismatch") := by
  obtain ⟨p, hstart, htest⟩ := exists_of_start (k := 1)
    (fun p => acceptedWith p (proposal refilledBlock 1)
      (fun bnew P => decide (bnew.proposedBlock.header.timestamp ≤ 5
        ∧ p.validateBlock env bnew.proposedBlock P.proposedBlock 5 false
          = some (.consensus "block txs root mismatch"))))
    (by decide +kernel)
  obtain ⟨bnew, P, haccept, hparent, hrefused⟩ := exists_of_acceptedWith htest
  obtain ⟨hlater, hrefused⟩ := of_decide_eq_true hrefused
  exact ⟨p, _, _, bnew, P, hstart, haccept, hparent, hlater, hrefused⟩

end Testnet

/-! ## Who takes over -/

/-- The hash `buildBlock` puts into a block's `NextValidatorsHash`. -/
def nextValidatorsHash (E : Env) (registry : ValidatorSetRegistry) (parent : Block) : Bytes :=
  match registry.nextVSet (parent.number + 1) with
  | some newVSet => E.validatorSetHash newVSet
  | none => parent.header.nextValidatorsHash

/-- The fields about validator sets are what `buildBlock` computes from the
parent and the registry. -/
structure ValidatorFields (E : Env) (registry : ValidatorSetRegistry) (parent : Block)
    (header : Header) : Prop where
  validatorsHash : header.validatorsHash = parent.header.nextValidatorsHash
  nextValidatorsHash : header.nextValidatorsHash = nextValidatorsHash E registry parent
  lastKBlock : header.lastKBlock
    = if parent.isKBlock then parent.number else parent.header.lastKBlock

/-- What an honest leader builds has the fields its own registry gives. -/
theorem ValidatorFields.of_buildBlock (p : Pacemaker) (timestamp : UInt64) (parent : DraftBlock)
    (justify : DraftQC) (round : UInt32) (txs : List Bytes) :
    ValidatorFields E p.validatorSetRegistry parent.proposedBlock
      (buildBlock E p timestamp parent justify round txs).proposedBlock.header :=
  ⟨rfl, rfl, rfl⟩

/-- **Blocks with one identifier announce the same validators**, and have one
number and time. -/
theorem NoCollision.validators_eq {H : Hashes} {b₁ b₂ : Block} (h : NoCollision H b₁ b₂)
    (hid : b₁.id H = b₂.id H) :
    b₁.number = b₂.number ∧ b₁.header.timestamp = b₂.header.timestamp
      ∧ b₁.header.lastKBlock = b₂.header.lastKBlock
      ∧ b₁.header.validatorsHash = b₂.header.validatorsHash
      ∧ b₁.header.nextValidatorsHash = b₂.header.nextValidatorsHash := by
  have hitem := h.signingItem_eq hid
  unfold Header.signingItem at hitem
  simp only [Rlp.Item.list.injEq, List.cons.injEq, Rlp.Item.str.injEq, and_true] at hitem
  obtain ⟨-, htime, -, hkblock, -, -, hvalidators, hnext⟩ := hitem
  have hlt : ∀ r : UInt32, r.toNat < 2 ^ 64 := fun r => r.toNat_lt.trans (by decide)
  refine ⟨?_,
    UInt64.toNat_inj.mp (Rlp.Item.uint_injOn (UInt64.toNat_lt _) (UInt64.toNat_lt _) htime),
    UInt32.toNat_inj.mp (Rlp.Item.uint_injOn (hlt _) (hlt _) hkblock), hvalidators, hnext⟩
  rw [← Block.number_id H b₁, hid, Block.number_id]

/-- The fields depend on the parent by what its identifier commits to. -/
theorem ValidatorFields.congr {registry : ValidatorSetRegistry} {b₁ b₂ : Block} {header : Header}
    (hcoll : NoCollision E.H b₁ b₂) (hid : b₁.id E.H = b₂.id E.H)
    (h : ValidatorFields E registry b₁ header) : ValidatorFields E registry b₂ header := by
  obtain ⟨hnumber, -, hkblock, hvalidators, hnext⟩ := hcoll.validators_eq hid
  obtain ⟨h₁, h₂, h₃⟩ := h
  unfold LoragonBFT.nextValidatorsHash Block.isKBlock at *
  rw [hnumber, hnext] at h₂
  rw [hnumber, hkblock, hvalidators, hnext] at h₃
  exact ⟨h₁.trans hnext, h₂, h₃⟩

section Forged

variable {chain : Chain} {app : App} {myPubKey : Bytes} {clock : Time} {p₀ p : Pacemaker}
  {cmdCh : Bool} {rest : List IncomingMsg} {mi : IncomingMsg} {msg : PMProposalMessage}
  {bnew P : DraftBlock}

/-- **A proposal is read back as the block that was built.** -/
theorem Pacemaker.Proposes.decodedBlock_eq {t : Pacemaker} {qc : DraftQC} {round : UInt32}
    {parent d : DraftBlock} (h : t.Proposes E qc round parent msg d)
    (hgossip : msg.rawBlock.length ≤ maxGossipSize) :
    msg.decodedBlock = some d.proposedBlock.wire := by
  have hlen : d.proposedBlock.item.encode.length < 2 ^ 64 := by
    rw [← h.rawBlock_eq]
    exact lt_of_le_of_lt hgossip (by decide)
  rw [msg.decoded, h.rawBlock_eq, blockDecodeFromBytes_encode hlen]

/-- **When the validator fields of an honest leader's proposal are what the
receiver would compute**: when the two registries give the same next
validators for the block. -/
theorem validatorFields_iff_registries_agree (hchain : chain.Fresh E.H)
    (hstart : startPacemaker E chain app myPubKey clock = .ok p₀) (hrun : Runs E p₀ p)
    (haccept : (p.taking cmdCh rest).AcceptsProposal E mi msg bnew) (hparent : bnew.parent = some P)
    (hgossip : msg.rawBlock.length ≤ maxGossipSize)
    {q q' : Pacemaker} {qc : DraftQC} {round : UInt32} {d leaderParent : DraftBlock}
    (hpropose : onPropose E qc round q = .ok (some d) q') (hmsg : d.msg = some msg)
    (hleader : d.parent = some leaderParent)
    (hcoll : NoCollision E.H leaderParent.proposedBlock P.proposedBlock) :
    ValidatorFields E p.validatorSetRegistry P.proposedBlock bnew.proposedBlock.header
      ↔ nextValidatorsHash E q.validatorSetRegistry P.proposedBlock
        = nextValidatorsHash E p.validatorSetRegistry P.proposedBlock := by
  obtain ⟨hdecoded, hid⟩ := accepted_parent hchain hstart hrun haccept hparent
  obtain ⟨parent, msg', hproposes⟩ := (onPropose_exact qc round q).of_ok hpropose d rfl
  obtain ⟨p₁, txs, hregistry, -, hd⟩ := hproposes.built
  obtain rfl : msg' = msg := by
    rw [hd] at hmsg
    exact Option.some.inj hmsg
  obtain rfl : parent = leaderParent := by
    rw [hd] at hleader
    exact Option.some.inj hleader
  -- the block is read back as the leader built it
  have hheader : bnew.proposedBlock.header = d.proposedBlock.header := by
    rw [← Option.some.inj ((hproposes.decodedBlock_eq hgossip).symm.trans hdecoded)]
    rfl
  have hfields : ValidatorFields E q.validatorSetRegistry P.proposedBlock
      bnew.proposedBlock.header := by
    refine ValidatorFields.congr hcoll ?_ ?_
    · rw [hid]
      show _ = bnew.proposedBlock.header.parentID
      rw [hheader, hd]
      rfl
    · rw [hheader, hd, ← hregistry]
      exact ValidatorFields.of_buildBlock _ _ _ _ round _
  constructor
  · intro h
    exact hfields.nextValidatorsHash.symm.trans h.nextValidatorsHash
  · intro h
    exact ⟨hfields.validatorsHash, hfields.nextValidatorsHash.trans h, hfields.lastKBlock⟩

end Forged

namespace Testnet

/-- A header that announces validators nobody knows, and an epoch that began
in the future. -/
def forgedBlock : Block := Builder.build hashes
  { parentID := genesis.id hashes, timestamp := 1, nonce := 0,
    validatorsHash := env.validatorSetHash committee, nextValidatorsHash := [9],
    proposerIndex := 0, lastKBlock := 7, qc := genesisQC, txs := [] }

/-- What `OnPropose` returns passes the test. -/
def proposedWith (q : Pacemaker) (test : DraftBlock → PMProposalMessage → DraftBlock → Bool) :
    Bool :=
  match onPropose env q.qcHigh 1 q with
  | .ok (some d) _ => d.msg.any (fun msg => d.parent.any (test d msg))
  | _ => false

theorem exists_of_proposedWith {q : Pacemaker}
    {test : DraftBlock → PMProposalMessage → DraftBlock → Bool} (h : proposedWith q test = true) :
    ∃ q' d msg P, onPropose env q.qcHigh 1 q = .ok (some d) q' ∧ d.msg = some msg
      ∧ d.parent = some P ∧ test d msg P = true := by
  unfold proposedWith at h
  split at h
  · rename_i d q' heq
    obtain ⟨msg, hmsg, h⟩ := (Option.any_eq_true _ _).mp h
    obtain ⟨P, hparent, htest⟩ := (Option.any_eq_true _ _).mp h
    exact ⟨q', d, msg, P, heq, hmsg, hparent, htest⟩
  · exact nomatch h

/-- The second validator proposes, and the third accepts. -/
theorem validatorFields_of_second_validator :
    ∃ q q' p mi msg bnew P d leaderParent, start 1 = .ok q ∧ start 2 = .ok p
      ∧ onPropose env q.qcHigh 1 q = .ok (some d) q' ∧ d.msg = some msg
      ∧ d.parent = some leaderParent
      ∧ (p.taking false []).AcceptsProposal env mi msg bnew ∧ bnew.parent = some P
      ∧ (ValidatorFields env p.validatorSetRegistry P.proposedBlock bnew.proposedBlock.header
        ↔ nextValidatorsHash env q.validatorSetRegistry P.proposedBlock
          = nextValidatorsHash env p.validatorSetRegistry P.proposedBlock) := by
  obtain ⟨q, hq, htest⟩ := exists_of_start (k := 1)
    (fun q => (start 2).toOption.any (fun p => proposedWith q (fun _ msg leaderParent =>
      decide (msg.rawBlock.length ≤ maxGossipSize ∧ leaderParent.proposedBlock = genesis)
        && acceptedWith p msg (fun _ P => decide (P.proposedBlock = genesis)))))
    (by decide +kernel)
  obtain ⟨p, hp, htest⟩ := exists_of_ok (x := start 2) _ htest
  obtain ⟨q', d, msg, leaderParent, hpropose, hmsg, hleader, htest⟩ := exists_of_proposedWith htest
  obtain ⟨hprops, htest⟩ := Bool.and_eq_true_iff.mp htest
  obtain ⟨hgossip, hgenesis⟩ := of_decide_eq_true hprops
  obtain ⟨bnew, P, haccept, hparent, hgenesis'⟩ := exists_of_acceptedWith htest
  have hcoll : NoCollision env.H leaderParent.proposedBlock P.proposedBlock := by
    rw [hgenesis, of_decide_eq_true hgenesis']
    exact ⟨fun _ => rfl, fun _ => rfl, fun _ => rfl, fun _ => rfl⟩
  exact ⟨q, q', p, _, msg, bnew, P, d, leaderParent, hq, hp, hpropose, hmsg, hleader, haccept,
    hparent, validatorFields_iff_registries_agree (Chain.fresh_initializeStore ..) hp .refl haccept
      hparent hgossip hpropose hmsg hleader hcoll⟩

/-- **A forged header is voted for.** -/
theorem forgedBlock_is_voted_for :
    ∃ p₀ q d v P, start 1 = .ok p₀ ∧ Runs env p₀ q ∧ (∀ d v, Event.voted d v ∉ q.trace)
      ∧ Event.voted d v ∈ (q.step env (.loop .message)).trace ∧ d.parent = some P
      ∧ d.proposedBlock.header.nextValidatorsHash
        ≠ nextValidatorsHash env q.validatorSetRegistry P.proposedBlock
      ∧ d.proposedBlock.header.lastKBlock
        ≠ if P.proposedBlock.isKBlock then P.proposedBlock.number
          else P.proposedBlock.header.lastKBlock := by
  obtain ⟨p₀, hstart, htest⟩ := exists_of_start (k := 1)
    (fun p₀ =>
      let q := p₀.play env [.receive (.proposal (proposal forgedBlock 1)) [], .enter 0]
      !anyVote (fun _ => true) q.trace
        && anyVote (fun d => d.parent.any (fun P => decide
          (d.proposedBlock.header.nextValidatorsHash
              ≠ nextValidatorsHash env q.validatorSetRegistry P.proposedBlock
            ∧ d.proposedBlock.header.lastKBlock
              ≠ if P.proposedBlock.isKBlock then P.proposedBlock.number
                else P.proposedBlock.header.lastKBlock)))
          (q.step env (.loop .message)).trace)
    (by decide +kernel)
  obtain ⟨hquiet, hvote⟩ := Bool.and_eq_true_iff.mp htest
  obtain ⟨d, v, hvoted, hd⟩ := exists_of_anyVote hvote
  obtain ⟨P, hparent, hforged⟩ := (Option.any_eq_true _ _).mp hd
  refine ⟨p₀, _, d, v, P, hstart,
    Machine.run_play _ _, fun d' v' hv => ?_, hvoted, hparent, of_decide_eq_true hforged⟩
  have hany : anyVote (fun _ => true) _ = true := List.any_eq_true.mpr ⟨_, hv, rfl⟩
  rw [hany] at hquiet
  exact nomatch hquiet

end Testnet

end LoragonBFT
