import LoragonBFT.Pacemaker.Proposers

/-!
# What a block identifier commits to

The identifier of a block is a digest of its header. The header in turn holds
a root of the transactions and a hash of the certificate, and
`Builder.Build` computes both from the body. So an identifier stands for a
whole block as long as whoever accepts the block computes the two again and
compares: `validateBlock` does so for the transactions of a block that comes
from a peer, and nobody does so for the certificate.

`OnReceiveProposal` compares neither. A header with one body and the same
header with another are two blocks with one identifier, and a node votes for
whichever it is sent.

No hash function is injective. What is assumed is that none of the values
the two identifiers at hand are computed from collide.
-/

namespace LoragonBFT

variable {E : Env}

/-- The body of a block is the one its header commits to, as in every block
that `Builder.Build` makes. -/
def Block.MatchesHeader (H : Hashes) (b : Block) : Prop :=
  b.header.txsRoot = Block.rootHash H b.txs ∧ b.header.qcHash = b.qc.hash H

instance (H : Hashes) (b : Block) : Decidable (b.MatchesHeader H) :=
  inferInstanceAs (Decidable (_ ∧ _))

/-- What a proposer builds matches its header. -/
theorem Builder.build_matchesHeader (H : Hashes) (b : Builder) :
    (b.build H).MatchesHeader H := ⟨rfl, rfl⟩

/-- No two different values hashed for the two blocks have the same hash. Of
the outer digest 28 bytes are left in an identifier. -/
structure NoCollision (H : Hashes) (b₁ b₂ : Block) : Prop where
  /-- The digest in the identifier. -/
  blake2b : tail28 (H.blake2b (b₁.header.idPreimage H))
    = tail28 (H.blake2b (b₂.header.idPreimage H)) → b₁.header.idPreimage H = b₂.header.idPreimage H
  /-- The signing hash. -/
  blake2bRlp : H.blake2bRlp b₁.header.signingItem = H.blake2bRlp b₂.header.signingItem
    → b₁.header.signingItem = b₂.header.signingItem
  /-- The root of the transactions. -/
  merkleRoot : H.merkleRoot b₁.txs = H.merkleRoot b₂.txs → b₁.txs = b₂.txs
  /-- The hash of the certificate. -/
  sha256Rlp : H.sha256Rlp b₁.qc.item = H.sha256Rlp b₂.qc.item → b₁.qc.item = b₂.qc.item

/-! ## From the identifier to the header -/

variable {H : Hashes} {b₁ b₂ : Block}

/-- Blocks with one identifier have one signing item. -/
theorem NoCollision.signingItem_eq (h : NoCollision H b₁ b₂) (hid : b₁.id H = b₂.id H) :
    b₁.header.signingItem = b₂.header.signingItem := by
  have hpre : b₁.header.idPreimage H = b₂.header.idPreimage H :=
    h.blake2b (tail28_of_putNumber_eq hid)
  have hbytes : Bytes32.bytes (b₁.header.signingHash H)
      = Bytes32.bytes (b₂.header.signingHash H) := by
    refine List.append_inj_left hpre ?_
    show (Rlp.beBytes 32 _).length = (Rlp.beBytes 32 _).length
    rw [Rlp.length_beBytes, Rlp.length_beBytes]
  exact h.blake2bRlp (Bytes32.bytes_injective hbytes)

/-- **Blocks with one identifier agree on what their headers commit to.** -/
theorem NoCollision.commitments_eq (h : NoCollision H b₁ b₂) (hid : b₁.id H = b₂.id H) :
    b₁.header.txsRoot = b₂.header.txsRoot ∧ b₁.header.qcHash = b₂.header.qcHash := by
  have hitem := h.signingItem_eq hid
  unfold Header.signingItem at hitem
  simp only [Rlp.Item.list.injEq, List.cons.injEq, Rlp.Item.str.injEq] at hitem
  obtain ⟨-, -, htxsRoot, -, -, hqcHash, -⟩ := hitem
  exact ⟨htxsRoot, hqcHash⟩

/-! ## From the header to the body -/

/-- **Certificates off the wire with one encoding are one certificate.** -/
theorem QuorumCert.eq_of_item_eq {qc qc' : QuorumCert} (h : qc.bitArray.Textual)
    (h' : qc'.bitArray.Textual) (hitem : qc.item = qc'.item) : qc = qc' := by
  unfold QuorumCert.item at hitem
  simp only [Rlp.Item.list.injEq, List.cons.injEq, Rlp.Item.str.injEq, and_true] at hitem
  obtain ⟨hepoch, hround, hblockID, haggSig, hbits⟩ := hitem
  have hepoch' : qc.epoch = qc'.epoch :=
    UInt64.toNat_inj.mp (Rlp.Item.uint_injOn qc.epoch.toNat_lt qc'.epoch.toNat_lt hepoch)
  have hround' : qc.round = qc'.round := by
    have hlt : ∀ r : UInt32, r.toNat < 2 ^ 64 := fun r => r.toNat_lt.trans (by decide)
    exact UInt32.toNat_inj.mp (Rlp.Item.uint_injOn (hlt _) (hlt _) hround)
  have hblockID' : qc.blockID = qc'.blockID := Bytes32.bytes_injective hblockID
  have hbits' : qc.bitArray = qc'.bitArray := h.eq_of_item_eq h' hbits
  cases qc
  cases qc'
  simp only [QuorumCert.mk.injEq]
  exact ⟨hepoch', hround', hblockID', haggSig, hbits'⟩

/-- The bit array of a decoded certificate was read from a text. -/
theorem QuorumCert.textual_of_ofItem {i : Rlp.Item} {qc : QuorumCert} {n : ℕ} (hn : n < 2 ^ 32)
    (hi : i.Within n) (h : QuorumCert.ofItem i = some qc) : qc.bitArray.Textual := by
  unfold QuorumCert.ofItem at h
  split at h
  · rename_i epoch round blockID aggSig bitArray
    cases hi with
    | list _ hwithin =>
      obtain ⟨_, -, h⟩ := Option.bind_eq_some_iff.mp h
      obtain ⟨_, -, h⟩ := Option.bind_eq_some_iff.mp h
      obtain ⟨_, -, h⟩ := Option.bind_eq_some_iff.mp h
      obtain ⟨_, -, h⟩ := Option.bind_eq_some_iff.mp h
      obtain ⟨bA, hbA, h⟩ := Option.bind_eq_some_iff.mp h
      obtain rfl := Option.some.inj h
      exact BitArray.textual_of_ofItem hn (hwithin bitArray (by simp)) hbA
  · exact nomatch h

/-- The same for the certificate in a decoded block. -/
theorem textual_of_blockDecodeFromBytes {raw : Bytes} {b : Block} (hlen : raw.length < 2 ^ 32)
    (h : blockDecodeFromBytes raw = some b) : b.qc.bitArray.Textual := by
  obtain ⟨i, hdecode, h⟩ := Option.bind_eq_some_iff.mp h
  have hi : i.Within raw.length := Rlp.within_of_decode hdecode
  unfold Block.ofItem at h
  split at h
  · rename_i header txs qcItem
    cases hi with
    | list _ hwithin =>
      obtain ⟨_, -, h⟩ := Option.bind_eq_some_iff.mp h
      obtain ⟨_, -, h⟩ := Option.bind_eq_some_iff.mp h
      obtain ⟨_, -, h⟩ := Option.bind_eq_some_iff.mp h
      obtain ⟨qc, hqc, h⟩ := Option.bind_eq_some_iff.mp h
      obtain rfl := Option.some.inj h
      exact QuorumCert.textual_of_ofItem hlen (hwithin qcItem (by simp)) hqc
  · exact nomatch h

/-- **Two blocks that match their headers and have one identifier have one
body.** -/
theorem NoCollision.body_eq (h : NoCollision H b₁ b₂) (ht₁ : b₁.qc.bitArray.Textual)
    (ht₂ : b₂.qc.bitArray.Textual) (hid : b₁.id H = b₂.id H) (h₁ : b₁.MatchesHeader H)
    (h₂ : b₂.MatchesHeader H) : b₁.txs = b₂.txs ∧ b₁.qc = b₂.qc := by
  obtain ⟨htxsRoot, hqcHash⟩ := h.commitments_eq hid
  rw [h₁.1, h₂.1] at htxsRoot
  rw [h₁.2, h₂.2] at hqcHash
  exact ⟨h.merkleRoot htxsRoot,
    QuorumCert.eq_of_item_eq ht₁ ht₂ (h.sha256Rlp (Bytes32.bytes_injective hqcHash))⟩

/-- Of two blocks with one identifier and one body, both match their header
or neither does. -/
theorem NoCollision.matchesHeader_iff (h : NoCollision H b₁ b₂) (hid : b₁.id H = b₂.id H)
    (htxs : b₁.txs = b₂.txs) (hqc : b₁.qc = b₂.qc) :
    b₁.MatchesHeader H ↔ b₂.MatchesHeader H := by
  obtain ⟨htxsRoot, hqcHash⟩ := h.commitments_eq hid
  unfold Block.MatchesHeader
  rw [htxsRoot, hqcHash, htxs, hqc]

/-! ## Accepted proposals -/

/-- `encoder.MaxGossipSize`: longer messages do not get through. -/
def maxGossipSize : ℕ := 10485760

/-- An honest node accepted the proposal: it came over gossip, and in some
run the node voted for the draft it made of it. -/
structure AcceptedProposal (E : Env) (msg : PMProposalMessage) (blk : Block) : Prop where
  gossip : msg.rawBlock.length ≤ maxGossipSize
  decoded : msg.decodedBlock = some blk
  voted : ∃ chain app myPubKey now p₀ p d v, startPacemaker E chain app myPubKey now = .ok p₀
    ∧ Runs E p₀ p ∧ Event.voted d v ∈ p.trace ∧ d.msg = some msg

theorem AcceptedProposal.textual {msg : PMProposalMessage} {blk : Block}
    (h : AcceptedProposal E msg blk) : blk.qc.bitArray.Textual := by
  have hlen : msg.rawBlock.length < 2 ^ 32 := lt_of_le_of_lt h.gossip (by decide)
  exact textual_of_blockDecodeFromBytes hlen (msg.decoded ▸ h.decoded)

/-- **When an identifier binds the body.** Two accepted blocks with one
identifier have one body, and it is the one their header commits to, exactly
when both match their header. So two that match are the same, and one that
matches differs from one that does not. -/
theorem one_body_iff_match {m₁ m₂ : PMProposalMessage} {b₁ b₂ : Block}
    (h₁ : AcceptedProposal E m₁ b₁) (h₂ : AcceptedProposal E m₂ b₂)
    (hcoll : NoCollision E.H b₁ b₂) (hid : b₁.id E.H = b₂.id E.H) :
    (b₁.txs = b₂.txs ∧ b₁.qc = b₂.qc) ∧ (b₁.MatchesHeader E.H ∨ b₂.MatchesHeader E.H)
      ↔ b₁.MatchesHeader E.H ∧ b₂.MatchesHeader E.H := by
  constructor
  · rintro ⟨⟨htxs, hqc⟩, hmatch⟩
    have hiff := hcoll.matchesHeader_iff hid htxs hqc
    rcases hmatch with hmatch | hmatch
    · exact ⟨hmatch, hiff.mp hmatch⟩
    · exact ⟨hiff.mpr hmatch, hmatch⟩
  · rintro ⟨hmatch₁, hmatch₂⟩
    exact ⟨hcoll.body_eq h₁.textual h₂.textual hid hmatch₁ hmatch₂, .inl hmatch₁⟩

namespace Testnet

/-- A node that is sent the block votes for it. -/
def acceptTest (b : Block) (p₀ : Pacemaker) : Bool :=
  anyVote (fun d => d.msg.any (fun msg =>
    decide (msg.rawBlock.length ≤ maxGossipSize ∧ msg.decodedBlock = some b)))
    (p₀.play env (deliver b 1)).trace

theorem exists_acceptedProposal {k : UInt8} (b : Block)
    (h : (start k).toOption.any (acceptTest b) = true) :
    ∃ msg, AcceptedProposal env msg b := by
  obtain ⟨p₀, hstart, htest⟩ := exists_of_start (acceptTest b) h
  obtain ⟨d, v, hvoted, hd⟩ := exists_of_anyVote htest
  obtain ⟨msg, hmsg, hprops⟩ := (Option.any_eq_true _ _).mp hd
  obtain ⟨hlen, hdecoded⟩ := of_decide_eq_true hprops
  exact ⟨msg, hlen, hdecoded, chain, app, [k], 1000000000, p₀, _, d, v, hstart,
    Machine.run_play _ _, hvoted, hmsg⟩

/-- A block without transactions. -/
def emptyBlock : Block := block genesis 1 genesisQC []

/-- The same header over a transaction. -/
def refilledBlock : Block := { emptyBlock with txs := [[1]] }

/-- The empty block with an application hash, which no identifier covers. -/
def executedBlock : Block := { emptyBlock with header.appHash := [1] }

/-- Two validators vote for two blocks with one identifier and one body. -/
theorem one_body_of_executedBlock :
    ∃ m₁ m₂, AcceptedProposal env m₁ emptyBlock ∧ AcceptedProposal env m₂ executedBlock
      ∧ emptyBlock ≠ executedBlock ∧ emptyBlock.id env.H = executedBlock.id env.H
      ∧ executedBlock.MatchesHeader env.H
      ∧ ((emptyBlock.txs = executedBlock.txs ∧ emptyBlock.qc = executedBlock.qc)
          ∧ (emptyBlock.MatchesHeader env.H ∨ executedBlock.MatchesHeader env.H)
        ↔ emptyBlock.MatchesHeader env.H ∧ executedBlock.MatchesHeader env.H) := by
  obtain ⟨m₁, h₁⟩ := exists_acceptedProposal (k := 1) emptyBlock (by decide +kernel)
  obtain ⟨m₂, h₂⟩ := exists_acceptedProposal (k := 2) executedBlock (by decide +kernel)
  have hmatch : emptyBlock.MatchesHeader hashes := Builder.build_matchesHeader hashes _
  exact ⟨m₁, m₂, h₁, h₂, by decide +kernel, rfl, ⟨hmatch.1, hmatch.2⟩,
    one_body_iff_match h₁ h₂ ⟨fun _ => rfl, fun _ => rfl, fun _ => rfl, fun _ => rfl⟩ rfl⟩

/-- **One identifier, two bodies.** The second validator votes for the empty
block, the third for the same header over a transaction. -/
theorem one_id_two_bodies :
    ∃ m₁ m₂, AcceptedProposal env m₁ emptyBlock ∧ AcceptedProposal env m₂ refilledBlock
      ∧ NoCollision env.H emptyBlock refilledBlock
      ∧ emptyBlock.id env.H = refilledBlock.id env.H
      ∧ emptyBlock.txs ≠ refilledBlock.txs := by
  obtain ⟨m₁, h₁⟩ := exists_acceptedProposal (k := 1) emptyBlock (by decide +kernel)
  obtain ⟨m₂, h₂⟩ := exists_acceptedProposal (k := 2) refilledBlock (by decide +kernel)
  refine ⟨m₁, m₂, h₁, h₂, ⟨fun _ => rfl, fun _ => rfl, fun hroot => ?_, fun _ => rfl⟩, rfl,
    by decide⟩
  exact absurd hroot (by decide +kernel)

end Testnet

end LoragonBFT
