import LoragonBFT.HonestLeader
import LoragonBFT.Pacemaker.CommitCalls
import LoragonBFT.Util.Branches

/-!
# Committing a transaction once

`ValidateProposal` collects the hashes of the transactions in the uncommitted
ancestors of a proposed block and refuses the block if it has one of them. It
does not look into the committed blocks, as the transaction pool does for its
own transactions, and it does not compare the transactions of the block with
each other. So a proposal that repeats a transaction of a committed block
passes, and so does one that has a transaction twice.

What the walk does check is worth something all the same. A block that enters
is compared with the drafts below it, and the drafts between the committed
blocks and the block at that time are the blocks that are committed before it,
if it is committed at all: `AddBlock` puts a block on the best one or nowhere.
This is the argument of `Ledger.Sound`, and this module shows that a node
keeps it. What the walk does not reach is a condition on the blocks that come
in (`RepeatsNothing`).

The walk looks ancestors up by identifier, and a commit follows pointers. That
the two meet the same transactions is what an identifier is for, and no check
of the node makes sure of it, so the condition also says what the identifiers
stand for.
-/

namespace LoragonBFT

open EStateM

variable {E : Env} {C : Ledger.Content Bytes32 Bytes32} {s : Pacemaker} {i : Input}

/-- The hashes of the transactions of a block. -/
def Block.txHashes (H : Hashes) (b : Block) : List Bytes32 := b.txs.map H.sha256

/-- **No transaction is committed twice**: whichever committed blocks are
taken, no hash is twice among the hashes of their transactions. -/
def CommittedOnce (H : Hashes) (p : Pacemaker) : Prop :=
  ∀ l : List Block, (∀ b ∈ l, p.chain.getBlock (b.id H) = some b) → (l.map (Block.id H)).Nodup →
    (l.flatMap (Block.txHashes H)).Nodup

/-! ## The condition -/

/-- The block is what its identifier stands for. -/
structure Block.Fits (H : Hashes) (C : Ledger.Content Bytes32 Bytes32) (b : Block) : Prop where
  parent_eq : C.parent (b.id H) = b.parentID
  items_eq : C.items (b.id H) = b.txHashes H

/-- Two blocks have no transaction in common, unless they are one block. -/
def Block.Apart (H : Hashes) (b b' : Block) : Prop :=
  b'.id H ≠ b.id H → (b.txHashes H).Disjoint (b'.txHashes H)

/-- A block that has no transaction twice and none of a committed block. -/
structure Pacemaker.Unrepeated (H : Hashes) (C : Ledger.Content Bytes32 Bytes32) (p : Pacemaker)
    (b : Block) : Prop where
  fits : b.Fits H C
  nodup : (b.txHashes H).Nodup
  committed : ∀ id b', p.chain.getBlock id = some b' → b.Apart H b'

/-- The node makes this block in the step. -/
def Pacemaker.Makes (E : Env) (s : Pacemaker) (i : Input) (d : DraftBlock) : Prop :=
  (s.step E i).proposed = s.proposed ++ [d]

/-- **What comes in repeats nothing that the node does not look for.** A
proposal, a block of the node's own and a block of a peer have no transaction
twice and none of a committed block. A proposal has none of an ancestor that
the walk of `ValidateProposal` does not reach; for a block of its own the node
does not walk at all. -/
structure RepeatsNothing (E : Env) (C : Ledger.Content Bytes32 Bytes32) (s : Pacemaker)
    (i : Input) : Prop where
  proposal : ∀ msg blk parent, s.Handles i (.proposal msg) → msg.decodedBlock = some blk →
    s.core.IsDraft blk.parentID parent → s.Unrepeated E.H C blk
      ∧ ∀ bs, s.chain.uncommitted (2 ^ 32 + 1) blk.parentID = some bs →
        ∀ x ∈ parent.chain, x.proposedBlock ∉ bs → blk.Apart E.H x.proposedBlock
  own : ∀ d, s.Makes E i d → s.Unrepeated E.H C d.proposedBlock
    ∧ ∀ x ∈ d.ancestors, d.proposedBlock.Apart E.H x.proposedBlock
  sync : ∀ blk qc, i = .sync blk qc → s.Unrepeated E.H C blk

/-! ## The ledger of a node -/

/-- The identifiers on the branch of a draft, its own first. -/
def DraftBlock.ids (H : Hashes) (d : DraftBlock) : List Bytes32 :=
  d.chain.map (fun x => x.proposedBlock.id H)

/-- The height of a block, as its identifier tells it. -/
abbrev heightOf (id : Bytes32) : ℕ := (number id).toNat

/-- **A node as a ledger**: the branches are what the parent pointers of the
drafts lead to. -/
def Pacemaker.ledger (H : Hashes) (p : Pacemaker) : Ledger.State Bytes32 where
  branches := { l | l ≠ [] ∧ ∃ id d, p.chain.proposals id = some d ∧ l <:+ d.ids H }
  stored := { id | (p.chain.kv.blocks id).isSome }
  best := p.chain.bestBlock.id H

theorem Pacemaker.ledger_down (H : Hashes) (p : Pacemaker) (x y : Bytes32) (rest : List Bytes32)
    (h : x :: y :: rest ∈ (p.ledger H).branches) : y :: rest ∈ (p.ledger H).branches := by
  obtain ⟨-, id, d, hd, hsuffix⟩ := h
  exact ⟨List.cons_ne_nil _ _, id, d, hd, (List.suffix_cons x _).trans hsuffix⟩

/-- The draft is on the branch, and its branch is of blocks that are what
their identifiers stand for. -/
structure DraftBlock.Placed (H : Hashes) (C : Ledger.Content Bytes32 Bytes32)
    (branches : Set (List Bytes32)) (d : DraftBlock) : Prop where
  mem : d.ids H ∈ branches
  fits : ∀ x ∈ d.chain, x.proposedBlock.Fits H C

/-- What holds of a node to which nothing came in that repeats something. -/
structure OnTrack (H : Hashes) (C : Ledger.Content Bytes32 Bytes32) (p : Pacemaker) : Prop where
  tree : DraftTree H (fun _ _ => True) p.core
  drafts : ∀ id d, p.chain.proposals id = some d → ∀ x ∈ d.chain, x.proposedBlock.Fits H C
  stored : ∀ id b, p.chain.kv.blocks id = some b → b.Fits H C
  sound : Ledger.Sound C heightOf (p.ledger H)

namespace OnTrack

/-- **A node on track has committed every transaction once.** -/
theorem committedOnce {H : Hashes} (h : OnTrack H C s) : CommittedOnce H s := by
  intro l hl hids
  have hstored : ∀ id ∈ l.map (Block.id H), id ∈ (s.ledger H).stored := by
    intro id hid
    obtain ⟨b, hb, rfl⟩ := List.mem_map.mp hid
    exact Option.isSome_iff_exists.mpr ⟨b, hl b hb⟩
  have hitems : (l.map (Block.id H)).flatMap C.items = l.flatMap (Block.txHashes H) := by
    rw [List.flatMap_map]
    exact List.flatMap_congr fun b hb => (h.stored _ b (hl b hb)).items_eq
  exact hitems ▸ h.sound.nodup_flatMap hstored hids

end OnTrack

/-! ## Committing a block -/

/-- **What `CommitBlock` makes of the store and the best block**: nothing, or
a block that is higher than the best one and has its parent in the store
becomes the best one, and is stored unless the write fails. -/
inductive BestMoves (H : Hashes) (blk : Block) (b b' : Books) : Prop
  | kept (kv_eq : b'.kv = b.kv) (best_eq : b'.bestBlock = b.bestBlock)
  | moved (appHash : Bytes) (higher : b.bestBlock.number < blk.number)
      (parent : (b.kv.blocks blk.parentID).isSome)
      (best_eq : b'.bestBlock = blk.withAppHash appHash)
      (blocks : b'.kv.blocks = b.kv.blocks ∨ b'.kv.blocks
        = Function.update b.kv.blocks (blk.id H) (some (blk.withAppHash appHash)))

variable {blk : Block} {branches : Set (List Bytes32)} {qc : QuorumCert}

theorem bestMoves_of_addBlock {H : Hashes} {c c' : Chain} {appHash : Bytes}
    {escortQC : Option QuorumCert} {result : Except Err Fork}
    (hhigher : c.bestBlock.number < blk.number)
    (h : c.addBlock H (blk.withAppHash appHash) escortQC = .ok (result, c')) (r r' : List _) :
    BestMoves H blk ⟨r, c.kv, c.bestBlock⟩ ⟨r', c'.kv, c'.bestBlock⟩ := by
  have htrunk : c.isTrunk H (blk.withAppHash appHash).header = true := Chain.isTrunk_of_lt H hhigher
  have hparent : c.ReachesWrite H (blk.withAppHash appHash) →
      (c.kv.blocks blk.parentID).isSome := by
    intro hreach
    have hheader := hreach.2.1
    rwa [Chain.getBlockHeader, Option.isSome_map] at hheader
  cases Chain.addBlock_cases h with
  | refused e unreached => exact .kept rfl rfl
  | extended fork qc reached => exact .moved appHash hhigher (hparent reached) rfl (.inr rfl)
  | unwritten e qc n reached => exact .moved appHash hhigher (hparent reached) rfl (.inl rfl)
  | branched fork reached trunk => cases htrunk.symm.trans trunk
  | lost e n reached trunk => cases htrunk.symm.trans trunk

theorem commitBlock_bestMoves (blk : Block) (escortQC : Option QuorumCert) (t : Pacemaker) :
    Ensures (commitBlock E blk escortQC) t (fun _ t' => BestMoves E.H blk t.books t'.books)
      (fun t' => BestMoves E.H blk t.books t'.books) := by
  have hkept : ∀ t' : Pacemaker, t'.chain = t.chain → BestMoves E.H blk t.books t'.books :=
    fun t' ht' => .kept (congrArg Chain.kv ht') (congrArg Chain.bestBlock ht')
  rw [commitBlock_eq, ensures_bind, ensures_get]
  cases hknown : t.isKnown blk with
  | true => exact hkept t rfl
  | false =>
    have hhigher : t.chain.bestBlock.number < blk.number := by
      simpa [Pacemaker.isKnown] using hknown
    rw [if_neg Bool.false_ne_true, ensures_bind]
    refine (executeBlock_outcome blk t hknown).imp (fun r t₁ h => ?_)
      (fun t₁ h => hkept t₁ h.1.2)
    obtain ⟨⟨-, hchain⟩, hresult⟩ := h
    cases r with
    | error e => exact hkept t₁ hchain
    | ok blk' =>
      obtain ⟨appHash, -, rfl⟩ := (hresult blk').mp rfl
      refine (addCommitted_adds _ escortQC t₁).imp (fun _ t' h => ?_) (fun _ h => hkept _ ?_)
      · obtain ⟨result, hadd, -⟩ := h
        exact bestMoves_of_addBlock hhigher (hchain ▸ hadd) _ _
      · rw [h.1, hchain]

/-- Books with a sound ledger, for some branches. -/
structure Books.OnTrack (H : Hashes) (C : Ledger.Content Bytes32 Bytes32)
    (branches : Set (List Bytes32)) (b : Books) : Prop where
  stored : ∀ id blk, b.kv.blocks id = some blk → blk.Fits H C
  sound : Ledger.Sound C heightOf
    ⟨branches, { id | (b.kv.blocks id).isSome }, b.bestBlock.id H⟩

/-- **A block of a branch keeps the books on track when it is committed.** -/
theorem Books.OnTrack.bestMoves {H : Hashes} {b b' : Books} (h : b.OnTrack H C branches)
    (hmoves : BestMoves H blk b b') (hready : (b.kv.blocks blk.parentID).isSome →
      blk.Fits H C ∧ ∃ rest, blk.id H :: rest ∈ branches) : b'.OnTrack H C branches := by
  cases hmoves with
  | kept kv_eq best_eq => exact ⟨kv_eq ▸ h.stored, kv_eq ▸ best_eq ▸ h.sound⟩
  | moved appHash higher parent best_eq blocks =>
    obtain ⟨hfits, rest, hrest⟩ := hready parent
    have hid : (blk.withAppHash appHash).id H = blk.id H := Block.id_withAppHash H blk appHash
    refine ⟨fun id blk' hblk' => ?_, ?_⟩
    · rcases blocks with hsame | hupdate
      · exact h.stored id blk' (hsame ▸ hblk')
      · rw [hupdate, Function.update_apply] at hblk'
        split at hblk'
        · rw [← Option.some.inj hblk']
          exact ⟨hfits.parent_eq, hfits.items_eq⟩
        · exact h.stored id blk' hblk'
    · rw [best_eq, hid]
      have hnumber : heightOf (blk.id H) = blk.number.toNat := by rw [heightOf, Block.number_id]
      have hheight : heightOf (blk.id H) = heightOf (C.parent (blk.id H)) + 1 := by
        rw [hnumber, hfits.parent_eq]
        exact Block.toNat_number_of_ne fun h0 => UInt32.not_lt_zero (h0 ▸ higher)
      refine h.sound.advance hrest ?_ hheight (hfits.parent_eq.symm ▸ parent) ?_
      · rw [hnumber, heightOf, Block.number_id]
        exact UInt32.lt_iff_toNat_lt.mp higher
      · rcases blocks with hsame | hupdate
        · exact .inl (by rw [hsame])
        · refine .inr ?_
          ext id
          show (b'.kv.blocks id).isSome ↔ id = blk.id H ∨ (b.kv.blocks id).isSome
          rw [hupdate, Function.update_apply]
          by_cases hid' : id = blk.id H <;> simp [hid']

/-- The loop of `OnCommit` keeps the books on track. -/
theorem onCommitLoop_onTrack (l : List CommitReadyBlock)
    (hl : ∀ b ∈ l, ∀ d, b.block = some d → d.Placed E.H C branches) (lastCommitted : Block)
    (t : Pacemaker) (ht : t.books.OnTrack E.H C branches) :
    Leaves (Books.OnTrack E.H C branches) (onCommitLoop E l lastCommitted) t := by
  refine (onCommitLoop_moves (R := fun t t' => t.books.OnTrack E.H C branches →
    t'.books.OnTrack E.H C branches) (fun _ h => h) (fun h h' ht => h' (h ht)) l
    (fun b hb d hd t => ?_) lastCommitted t).imp (fun _ _ h => h ht) (fun _ h => h ht)
  have hplaced := hl b hb d hd
  have hmoves : ∀ t' : Pacemaker, BestMoves E.H d.proposedBlock t.books t'.books →
      t.books.OnTrack E.H C branches → t'.books.OnTrack E.H C branches := fun t' h ht =>
    ht.bestMoves h fun _ => ⟨hplaced.fits _ List.mem_cons_self, _, hplaced.mem⟩
  exact (commitBlock_bestMoves d.proposedBlock b.escortQC t).imp (fun _ t' h => hmoves t' h) hmoves

/-- **`OnCommit` keeps the books on track**, for the list that is walked up
from a draft on a branch. -/
theorem onCommit_onTrack {d : DraftBlock} {lastNum : UInt32} {l : List CommitReadyBlock}
    (hd : d.Placed E.H C branches)
    (hwalk : commitReadyBlocks lastNum d.toDraftInfo d.ancestors [] = .ok l) (t : Pacemaker)
    (ht : t.books.OnTrack E.H C branches) :
    Leaves (Books.OnTrack E.H C branches) (onCommit E l) t := by
  have hl : ∀ b ∈ l, ∀ d', b.block = some d' → d'.Placed E.H C branches := by
    intro b hb d' hd'
    rcases mem_commitReadyBlocks _ _ _ hwalk hb with hnil | ⟨y, x, rest, rfl, hsuffix, -, -⟩
    · exact absurd hnil List.not_mem_nil
    · obtain rfl := Option.some.inj hd'
      have hbelow : x :: rest <:+ d.chain := (List.suffix_cons y _).trans hsuffix
      have hids : DraftBlock.ids E.H ⟨x, rest⟩ <:+ d.ids E.H := hbelow.map _
      exact ⟨ht.sound.suffix_mem hd.mem hids, fun z hz => hd.fits z (hbelow.subset hz)⟩
  unfold Leaves onCommit
  rw [ensures_bind, ensures_get, ensures_bind, ensures_record]
  set t₁ : Pacemaker := { t with trace := t.trace ++ [.onCommit t.lastCommitted l] }
  have ht₁ : t₁.books.OnTrack E.H C branches := ⟨ht.stored, ht.sound⟩
  split
  · exact ht₁
  · rw [ensures_bind, ensures_ofExcept]
    refine ⟨fun blk _ => ?_, fun _ _ => ht₁⟩
    exact Leaves.bind (onCommitLoop_onTrack _ hl _ t₁ ht₁) fun _ => Keeps.pure _

/-! ## The drafts a step adds -/

/-- A draft that a step adds to the map, and what is known of it. -/
inductive Enters (E : Env) (s : Pacemaker) (i : Input) (events : List Event) (d : DraftBlock) : Prop
  | accepted (msg : PMProposalMessage) (blk : Block) (parent : DraftBlock)
      (accepted : Accepted E s i msg blk parent d)
  | proposed (parent : DraftBlock) (beat : i = .loop .beat)
      (parent_isDraft : s.core.IsEscortDraft s.qcHigh.qc parent)
      (ancestors_eq : d.ancestors = parent.chain)
      (parentID_eq : d.proposedBlock.parentID = parent.proposedBlock.id E.H)
      (made : Event.proposed d ∈ events)
  | regulated (cmd : i = .loop .cmd) (isDraft : s.core.IsEscortDraft s.regulateQC d)

/-- **A draft of the map after a step was there before or has entered.** -/
theorem enters_of_coreSteps {c : Core} (hsteps : CoreSteps E s i s.core c) :
    ∃ events, c.trace = s.trace ++ events ∧ ∀ id d, c.proposals id = some d →
      s.chain.proposals id = some d ∨ Enters E s i events d := by
  induction hsteps with
  | refl => exact ⟨[], (List.append_nil _).symm, fun id d hd => .inl hd⟩
  | @tail c c' _ hlast ih =>
    obtain ⟨events, htrace, hdrafts⟩ := ih
    obtain ⟨more, hmore⟩ := hlast.trace_prefix
    refine ⟨events ++ more, by rw [← hmore, htrace, List.append_assoc], fun id d hd => ?_⟩
    have hold : ∀ id d, c.proposals id = some d →
        s.chain.proposals id = some d ∨ Enters E s i (events ++ more) d := by
      intro id d hd
      refine (hdrafts id d hd).imp_right fun hentered => ?_
      cases hentered with
      | accepted msg blk parent h => exact .accepted msg blk parent h
      | proposed parent beat hparent hancestors hid made =>
        exact .proposed parent beat hparent hancestors hid (List.mem_append_left _ made)
      | regulated cmd h => exact .regulated cmd h
    have hadded : ∀ bnew, (c.addDraft E.H bnew).proposals id = some d →
        d = bnew ∨ c.proposals id = some d := by
      intro bnew hd
      have hd' : Function.update c.proposals (bnew.proposedBlock.id E.H) (some bnew) id
          = some d := hd
      rw [Function.update_apply] at hd'
      split at hd'
      · exact .inl (Option.some.inj hd').symm
      · exact .inr hd'
    cases hlast with
    | accept msg blk parent bnew haccepted =>
      rcases hadded bnew hd with rfl | hd
      · exact .inr (.accepted msg blk parent haccepted)
      · exact hold id d hd
    | propose parent bnew hbeat hparent hbnew =>
      rcases hadded bnew hd with rfl | hd
      · obtain ⟨p, timestamp, round, txs, msg, rfl⟩ := hbnew
        refine .inr (.proposed parent hbeat hparent rfl rfl (List.mem_append_right _ ?_))
        rw [List.append_cancel_left hmore]
        exact List.mem_singleton_self _
      · exact hold id d hd
    | regulate bestNode es hcmd hbest =>
      rcases hadded bestNode hd with rfl | hd
      · exact .inr (.regulated hcmd hbest)
      · exact hold id d hd
    | prune d' refs => exact hold id d (Option.filter_eq_some_iff.mp hd).1
    | _ => exact hold id d hd

/-- A step makes one block at most. -/
theorem Pacemaker.step_proposed (E : Env) (s : Pacemaker) (i : Input) :
    (s.step E i).proposed = s.proposed ∨ ∃ d, s.Makes E i d := by
  have hproposed : ∀ {t t' : Pacemaker}, t'.beats = t.beats → t'.proposed = t.proposed :=
    fun h => congrArg (fun b => b.2.2) h
  refine Pacemaker.step_beats
    (Q := fun t => t.proposed = s.proposed ∨ ∃ d, t.proposed = s.proposed ++ [d])
    (fun ht h => by rwa [hproposed h]) (.inl rfl) (fun b cmdCh t _ _ hbeaten => ?_)
    (fun epoch t _ _ _ h => .inl (congrArg (fun b => b.2.2) h))
  cases hbeaten with
  | skipped hbeats => exact .inl (hproposed hbeats)
  | failed _ hbeats => exact .inl (congrArg (fun b => b.2.2) hbeats)
  | proposed _ d _ hbeats => exact .inr ⟨d, congrArg (fun b => b.2.2) hbeats⟩

/-- A block that is recorded as proposed is the one the step makes. -/
theorem Pacemaker.makes_of_event {events : List Event} {d : DraftBlock}
    (htrace : (s.step E i).trace = s.trace ++ events) (hmade : Event.proposed d ∈ events) :
    s.Makes E i d := by
  have hproposed : (s.step E i).proposed = s.proposed ++ proposedDrafts events := by
    unfold Pacemaker.proposed
    rw [htrace, proposedDrafts_append]
  have hmem : d ∈ proposedDrafts events := List.mem_filterMap.mpr ⟨_, hmade, rfl⟩
  rcases s.step_proposed E i with hnone | ⟨d', hone⟩
  · rw [hnone, List.self_eq_append_right] at hproposed
    rw [hproposed] at hmem
    exact absurd hmem List.not_mem_nil
  · have hevents : [d'] = proposedDrafts events :=
      List.append_cancel_left (hone.symm.trans hproposed)
    rw [← hevents] at hmem
    rw [List.mem_singleton.mp hmem]
    exact hone

/-! ## Proposals that do not pass -/

theorem keeps_proposals_passProposal (mi : IncomingMsg) (msg : PMProposalMessage) :
    Keeps (fun p : Pacemaker => p.chain.proposals) (passProposal E mi msg) := by
  have hrecord : ∀ e, Keeps (fun p : Pacemaker => p.chain.proposals) (record e) := fun _ _ => rfl
  have hbroadcast : ∀ m, Keeps (fun p : Pacemaker => p.chain.proposals) (broadcast m) := fun m =>
    Keeps.get.bind fun _ => (keeps_ofExcept _).bind fun _ => (keeps_ofExcept _).bind fun _ =>
      hrecord _
  refine keeps_passProposal (fun _ => rfl) (fun mi blk => ?_) (fun b qc t => ?_)
    (fun b parent t => ?_) mi msg
  · have hback : Keeps (fun p : Pacemaker => p.chain.proposals) (modify (fun p : Pacemaker =>
        { p with delayed := p.delayed ++ [{ mi with processCount := mi.processCount + 1 }] }) :
        PM Unit) := fun _ => rfl
    refine Keeps.get.bind fun p => ?_
    split
    · split
      · exact ((hrecord _).bind fun _ => hbroadcast _).bind fun _ => hback
      · exact hback
    · exact Keeps.pure _
  · refine (validateQC_spec b qc t).imp (fun r t' h => ?_) (fun t' h => by rw [h])
    rcases h.1 with rfl | ⟨-, rfl⟩ <;> rfl
  · refine (validateProposal_spec b parent t).imp (fun r t' h => ?_) (fun t' h => ?_)
    · rcases h.1 with rfl | ⟨call, rfl⟩ <;> rfl
    · rcases h with rfl | ⟨call, rfl⟩ <;> rfl

/-- **A proposal that does not pass the checks changes nothing** that is
committed or can be. -/
theorem Pacemaker.passes_or_kept {msg : PMProposalMessage}
    (hhandles : s.Handles i (.proposal msg)) : (∃ blk parent, s.Passes E msg blk parent)
      ∨ (s.step E i).chain.proposals = s.chain.proposals ∧ (s.step E i).books = s.books := by
  obtain ⟨rfl, mi, rest, hqueue, hmsg⟩ := hhandles
  set Q : Pacemaker → Prop := fun t => (∃ blk parent, s.Passes E msg blk parent)
    ∨ t.chain.proposals = s.chain.proposals ∧ t.books = s.books with hQ
  have hsame : ∀ t : Pacemaker, t.chain = s.chain → t.trace = s.trace → Q t := by
    intro t hchain htrace
    refine .inr ⟨by rw [hchain], ?_⟩
    unfold Pacemaker.books Pacemaker.requests
    rw [hchain, htrace]
  have hproposal : ∀ cmdCh, Ensures (onReceiveProposal E mi msg) (s.taking cmdCh rest)
      (fun _ => Q) Q := by
    intro cmdCh
    have hbooks : Keeps Pacemaker.books (passProposal E mi msg) :=
      keeps_books (keeps_settled_passProposal mi msg)
    rw [onReceiveProposal, ensures_bind]
    refine ((passProposal_exact mi msg (s.taking cmdCh rest)).and
      ((keeps_proposals_passProposal mi msg _).and (hbooks _))).imp (fun r t h => ?_)
      (fun t h => .inr h.2)
    obtain ⟨⟨-, hpasses⟩, hkept⟩ := h
    cases r with
    | none => exact .inr hkept
    | some bnew =>
      obtain ⟨blk, parent, -, hpass, -⟩ := hpasses bnew rfl
      exact ensures_of_forall
        (fun _ _ => .inl ⟨blk, parent, ⟨hpass.certificate, hpass.round, hpass.valid⟩,
          hpass.decoded, hpass.recent, hpass.parent_eq⟩)
        (fun _ => .inl ⟨blk, parent, ⟨hpass.certificate, hpass.round, hpass.valid⟩,
          hpass.decoded, hpass.recent, hpass.parent_eq⟩)
  have hhandle : Ensures (Pacemaker.handle E (.loop .message)) s (fun _ => Q) Q := by
    refine ensures_message (fun _ _ _ => hsame _ rfl rfl) fun mi' rest' cmdCh h => ?_
    obtain ⟨rfl, rfl⟩ := List.cons.inj (hqueue.symm.trans h.queue)
    unfold handleMessage
    rw [hmsg]
    exact hproposal cmdCh
  show Q (s.step E (.loop .message))
  unfold Pacemaker.step
  split
  · exact hsame s rfl rfl
  unfold Ensures at hhandle
  split <;> rename_i heq <;> rw [heq] at hhandle <;> exact hhandle

/-! ## The branches of a step -/

/-- The draft is one of the map, or made up from a stored block. -/
def Pacemaker.Draws (p : Pacemaker) (d : DraftBlock) : Prop :=
  (∃ id, p.chain.proposals id = some d)
    ∨ ∃ id blk ref height round, p.chain.kv.blocks id = some blk
      ∧ d = .stored ref blk height round

theorem Core.IsDraft.draws {id : Bytes32} {d : DraftBlock} (h : s.core.IsDraft id d) :
    s.Draws d := by
  rcases h with hd | ⟨-, blk, ref, hblk, rfl⟩
  · exact .inl ⟨id, hd⟩
  · exact .inr ⟨id, blk, ref, _, _, hblk, rfl⟩

theorem Core.IsEscortDraft.draws {d : DraftBlock} (h : s.core.IsEscortDraft qc d) : s.Draws d := by
  rcases h with ⟨hd, -⟩ | ⟨-, blk, ref, hblk, rfl⟩
  · exact .inl ⟨_, hd⟩
  · exact .inr ⟨_, blk, ref, _, _, hblk, rfl⟩

/-- Whichever pointer it gets, a draft that is looked up has the same
branch. -/
theorem Core.IsDraft.ids_eq {H : Hashes} {c : Core} {id : Bytes32} {d d' : DraftBlock}
    (h : c.IsDraft id d) (h' : c.IsDraft id d') : d.ids H = d'.ids H := by
  rcases h with hd | ⟨hnone, blk, ref, hblk, rfl⟩ <;>
    rcases h' with hd' | ⟨hnone', blk', ref', hblk', rfl⟩
  · rw [Option.some.inj (hd.symm.trans hd')]
  · exact nomatch hd.symm.trans hnone'
  · exact nomatch hnone.symm.trans hd'
  · rw [Option.some.inj (hblk.symm.trans hblk')]
    rfl

namespace OnTrack

variable {H : Hashes} {d parent : DraftBlock} {b : Block}

theorem mem_branches (p : Pacemaker) {id : Bytes32} (hd : p.chain.proposals id = some d) :
    d.ids H ∈ (p.ledger H).branches :=
  ⟨List.cons_ne_nil _ _, id, d, hd, List.suffix_refl _⟩

theorem fits_of_draws (h : OnTrack H C s) (hd : s.Draws d) :
    ∀ x ∈ d.chain, x.proposedBlock.Fits H C := by
  rcases hd with ⟨id, hd⟩ | ⟨id, blk, ref, height, round, hblk, rfl⟩
  · exact h.drafts id d hd
  · intro x hx
    rw [List.mem_singleton.mp hx]
    exact h.stored id blk hblk

/-- The branch of a draft that is looked up may be added. -/
theorem sound_of_draws (h : OnTrack H C s) (hd : s.Draws d) :
    Ledger.Sound C heightOf
      { s.ledger H with branches := insert (d.ids H) (s.ledger H).branches } := by
  rcases hd with ⟨id, hd⟩ | ⟨id, blk, ref, height, round, hblk, rfl⟩
  · rw [Set.insert_eq_of_mem (mem_branches s hd)]
    exact h.sound
  · refine h.sound.root ?_
    show (s.chain.kv.blocks (blk.id H)).isSome
    rw [h.tree.stored id blk hblk]
    exact Option.isSome_iff_exists.mpr ⟨blk, hblk⟩

/-- **A block that repeats nothing may be put on a draft.** -/
theorem sound_extend (h : OnTrack H C s) (hparent : s.Draws parent)
    (hblock : s.Unrepeated H C b) (hlink : b.parentID = parent.proposedBlock.id H)
    (hapart : ∀ x ∈ parent.chain, b.Apart H x.proposedBlock) :
    Ledger.Sound C heightOf { s.ledger H with
      branches := insert (b.id H :: parent.ids H)
        (insert (parent.ids H) (s.ledger H).branches) } := by
  have hbase := h.sound_of_draws hparent
  refine hbase.extend (y := parent.proposedBlock.id H) (.inl rfl)
    (hblock.fits.parent_eq.trans hlink) ?_ ?_ ?_
  · rw [hblock.fits.items_eq]
    exact hblock.nodup
  · intro z hz hne
    obtain ⟨x, hx, rfl⟩ := List.mem_map.mp (show z ∈ parent.ids H from hz)
    rw [hblock.fits.items_eq, (h.fits_of_draws hparent x hx).items_eq]
    exact hapart x hx hne
  · intro id hid hne
    obtain ⟨b', hb'⟩ := Option.isSome_iff_exists.mp hid
    obtain rfl : b'.id H = id := h.tree.stored id b' hb'
    rw [hblock.fits.items_eq, (h.stored _ b' hb').items_eq]
    exact hblock.committed _ b' hb' hne

/-- `Update` walks up from drafts of the map only. -/
theorem placed_of_isEscortDraft (h : OnTrack H C s) (hd : s.core.IsEscortDraft qc d)
    (hne : d.ancestors ≠ []) :
    d.Placed H C (s.ledger H).branches := by
  rcases hd with ⟨hd, -⟩ | ⟨-, blk, ref, hblk, rfl⟩
  · exact ⟨mem_branches s hd, h.drafts _ d hd⟩
  · exact absurd rfl hne

end OnTrack

theorem DraftBlock.Placed.mono {H : Hashes} {branches' : Set (List Bytes32)} {d : DraftBlock}
    (h : d.Placed H C branches) (hsub : branches ⊆ branches') :
    d.Placed H C branches' := ⟨hsub h.mem, h.fits⟩

/-- **The branches a step may touch**: the old ones and the drafts that
enter. -/
structure Covers (E : Env) (C : Ledger.Content Bytes32 Bytes32) (s : Pacemaker) (i : Input)
    (events : List Event) (branches : Set (List Bytes32)) : Prop where
  old : (s.ledger E.H).branches ⊆ branches
  sound : Ledger.Sound C heightOf { s.ledger E.H with branches }
  enters : ∀ d, Enters E s i events d → d.Placed E.H C branches
  updates : ∀ d, s.UpdatesFrom E i d → d.ancestors ≠ [] → d.Placed E.H C branches
  sync : ∀ blk qc, i = .sync blk qc → (s.chain.kv.blocks blk.parentID).isSome →
    blk.Fits E.H C ∧ ∃ rest, blk.id E.H :: rest ∈ branches

namespace OnTrack

variable {events : List Event}

/-- The old branches will do if nothing enters. -/
theorem covers_old (h : OnTrack E.H C s) (henters : ∀ d, ¬ Enters E s i events d)
    (hproposal : ∀ msg, ¬ s.Handles i (.proposal msg))
    (hsync : ∀ blk qc, i = .sync blk qc → s.chain.kv.blocks blk.parentID = none) :
    Covers E C s i events (s.ledger E.H).branches where
  old := Set.Subset.refl _
  sound := h.sound
  enters d hd := absurd hd (henters d)
  updates d hd hne := by
    cases hd with
    | proposal msg blk d hhandles => exact absurd hhandles (hproposal msg)
    | itself msg blk parent ref hhandles => exact absurd hhandles (hproposal msg)
    | timeout msg qc es d _ _ hd => exact h.placed_of_isEscortDraft hd hne
  sync blk qc hi hsome := by
    rw [hsync blk qc hi] at hsome
    exact nomatch hsome

/-- The branches of a step that handles a proposal that passes. -/
theorem covers_of_passes (h : OnTrack E.H C s) (hok : RepeatsNothing E C s i)
    {msg : PMProposalMessage} {parent : DraftBlock} (hhandles : s.Handles i (.proposal msg))
    (hpasses : s.Passes E msg blk parent) :
    ∃ branches, Covers E C s i events branches := by
  have hparent : s.core.IsDraft blk.parentID parent := isDraft_of_lookup hpasses.parent_eq
  obtain ⟨hblock, hunreached⟩ := hok.proposal msg blk parent hhandles hpasses.decoded hparent
  -- the walk of `ValidateProposal` has compared the block with what it reaches
  have hapart : ∀ x ∈ parent.chain, blk.Apart E.H x.proposedBlock := by
    intro x hx hne tx htx htx'
    obtain ⟨raw, hraw, rfl⟩ := List.mem_map.mp htx
    rcases (knownTxs_iff_uncommitted hpasses.parent_eq).mp hpasses.valid.fresh with
      hnone | ⟨bs, hbs, hfresh⟩
    · rw [hnone] at hraw
      exact absurd hraw List.not_mem_nil
    · by_cases hmem : x.proposedBlock ∈ bs
      · exact hfresh raw hraw _ hmem htx'
      · exact hunreached bs hbs x hx hmem hne htx htx'
  have hsound := h.sound_extend hparent.draws hblock
    ((h.tree.inTree_of_isDraft hparent).keyed).symm hapart
  have hold : (s.ledger E.H).branches ⊆ insert (blk.id E.H :: parent.ids E.H)
      (insert (parent.ids E.H) (s.ledger E.H).branches) := fun l hl => .inr (.inr hl)
  have hnew : ∀ parent' ref, s.core.IsDraft blk.parentID parent' →
      DraftBlock.Placed E.H C (insert (blk.id E.H :: parent.ids E.H)
        (insert (parent.ids E.H) (s.ledger E.H).branches))
        { newDraft msg blk parent' ref with successProcessed := true } := by
    intro parent' ref hparent'
    refine ⟨.inl ?_, fun x hx => ?_⟩
    · show blk.id E.H :: parent'.ids E.H = blk.id E.H :: parent.ids E.H
      rw [hparent'.ids_eq hparent]
    · rcases List.mem_cons.mp hx with rfl | hx
      · exact hblock.fits
      · exact h.fits_of_draws hparent'.draws x hx
  have hmsg : ∀ msg', s.Handles i (.proposal msg') → msg' = msg := by
    rintro msg' ⟨-, mi', rest', hqueue', hmi'⟩
    obtain ⟨-, mi, rest, hqueue, hmi⟩ := hhandles
    obtain ⟨rfl, -⟩ := List.cons.inj (hqueue.symm.trans hqueue')
    exact ConsensusMessage.proposal.inj (hmi'.symm.trans hmi)
  have hi : i = .loop .message := hhandles.1
  refine ⟨_, hold, hsound, fun d hd => ?_, fun d hd hne => ?_, fun blk' qc hsync => ?_⟩
  · cases hd with
    | accepted msg' blk' parent' haccepted =>
      obtain rfl := hmsg msg' haccepted.handles
      obtain rfl := Option.some.inj (haccepted.decoded.symm.trans hpasses.decoded)
      obtain ⟨ref, rfl⟩ := haccepted.bnew_eq
      exact hnew parent' ref haccepted.parent_isDraft
    | proposed _ hbeat => exact nomatch hi.symm.trans hbeat
    | regulated hcmd => exact nomatch hi.symm.trans hcmd
  · cases hd with
    | proposal _ _ d _ _ hd => exact (h.placed_of_isEscortDraft hd hne).mono hold
    | itself msg' blk' parent' ref hhandles' hdecoded hparent' =>
      obtain rfl := hmsg msg' hhandles'
      obtain rfl := Option.some.inj (hdecoded.symm.trans hpasses.decoded)
      exact hnew parent' ref hparent'
    | timeout _ _ _ d _ _ hd => exact (h.placed_of_isEscortDraft hd hne).mono hold
  · exact nomatch hi.symm.trans hsync

/-- The branches of a step that handles no proposal, and a draft enters. -/
theorem covers_of_enters (h : OnTrack E.H C s) (hok : RepeatsNothing E C s i)
    (htrace : (s.step E i).trace = s.trace ++ events)
    (hproposal : ∀ msg, ¬ s.Handles i (.proposal msg)) {d : DraftBlock}
    (hd : Enters E s i events d) : ∃ branches, Covers E C s i events branches := by
  have hupdates : ∀ {branches : Set (List Bytes32)}, (s.ledger E.H).branches ⊆ branches →
      ∀ d, s.UpdatesFrom E i d → d.ancestors ≠ [] → d.Placed E.H C branches := by
    intro branches hold d hd hne
    cases hd with
    | proposal msg _ _ hhandles => exact absurd hhandles (hproposal msg)
    | itself msg _ _ _ hhandles => exact absurd hhandles (hproposal msg)
    | timeout _ _ _ d _ _ hd => exact (h.placed_of_isEscortDraft hd hne).mono hold
  cases hd with
  | accepted msg _ _ haccepted => exact absurd haccepted.handles (hproposal msg)
  | proposed parent hbeat hparent hancestors hlink hmade =>
    obtain ⟨hblock, hapart⟩ := hok.own d (s.makes_of_event htrace hmade)
    rw [hancestors] at hapart
    refine ⟨_, fun l hl => .inr (.inr hl),
      h.sound_extend hparent.draws hblock hlink hapart, fun d' hd' => ?_,
      hupdates fun l hl => .inr (.inr hl), fun blk qc hsync => nomatch hbeat.symm.trans hsync⟩
    cases hd' with
    | accepted msg _ _ haccepted => exact absurd haccepted.handles (hproposal msg)
    | regulated hcmd => exact nomatch hbeat.symm.trans hcmd
    | proposed parent' _ hparent' hancestors' hlink' hmade' =>
      -- one block is made in a step
      have hsame : [d'] = [d] := List.append_cancel_left
        ((s.makes_of_event htrace hmade').symm.trans (s.makes_of_event htrace hmade))
      obtain rfl := List.singleton_inj.mp hsame
      refine ⟨.inl ?_, fun x hx => ?_⟩
      · show d'.proposedBlock.id E.H :: d'.ancestors.map (fun x => x.proposedBlock.id E.H) = _
        rw [hancestors]
        rfl
      · rcases List.mem_cons.mp hx with rfl | hx
        · exact hblock.fits
        · exact h.fits_of_draws hparent.draws x (hancestors ▸ hx)
  | regulated hcmd hd =>
    refine ⟨_, fun l hl => .inr hl, h.sound_of_draws hd.draws, fun d' hd' => ?_,
      hupdates fun l hl => .inr hl, fun blk qc hsync => nomatch hcmd.symm.trans hsync⟩
    cases hd' with
    | accepted msg _ _ haccepted => exact absurd haccepted.handles (hproposal msg)
    | proposed _ hbeat => exact nomatch hcmd.symm.trans hbeat
    | regulated _ hd' =>
      refine ⟨.inl ?_, h.fits_of_draws hd'.draws⟩
      rcases hd with ⟨hd, hround⟩ | ⟨hnone, blk, ref, hblk, rfl⟩ <;>
        rcases hd' with ⟨hd', hround'⟩ | ⟨hnone', blk', ref', hblk', rfl⟩
      · rw [Option.some.inj (hd.symm.trans hd')]
      · exact absurd hround (hnone' _ hd)
      · exact absurd hround' (hnone _ hd')
      · rw [Option.some.inj (hblk.symm.trans hblk')]
        rfl

/-- The branches of a step with a block of a peer: the block is put on the
stored one that it names. -/
theorem covers_of_sync (h : OnTrack E.H C s) {b : Block} (hok : RepeatsNothing E C s (.sync blk qc))
    (hb : s.chain.kv.blocks blk.parentID = some b)
    (henters : ∀ d, ¬ Enters E s (.sync blk qc) events d) :
    ∃ branches, Covers E C s (.sync blk qc) events branches := by
  have hblock := hok.sync blk qc rfl
  have hkey : b.id E.H = blk.parentID := h.tree.stored _ b hb
  have hparent : s.Draws (.stored 0 b 0 0) := .inr ⟨_, b, 0, 0, 0, hb, rfl⟩
  refine ⟨_, fun l hl => .inr (.inr hl), h.sound_extend hparent hblock hkey.symm fun x hx => ?_,
    fun d hd => absurd hd (henters d), fun d hd => ?_, fun blk' qc' hsync _ => ?_⟩
  · rw [List.mem_singleton.mp hx]
    exact hblock.committed _ b hb
  · cases hd with
    | proposal _ _ _ hhandles => exact nomatch hhandles.1
    | itself _ _ _ _ hhandles => exact nomatch hhandles.1
    | timeout _ _ _ _ hhandles => exact nomatch hhandles.1
  · obtain ⟨rfl, -⟩ := Input.sync.inj hsync
    exact ⟨hblock.fits, _, .inl rfl⟩

/-- **Every step has its branches**, unless it handles a proposal that does
not pass. -/
theorem exists_covers (h : OnTrack E.H C s) (hok : RepeatsNothing E C s i)
    (htrace : (s.step E i).trace = s.trace ++ events)
    (hpasses : ∀ msg, s.Handles i (.proposal msg) → ∃ blk parent, s.Passes E msg blk parent) :
    ∃ branches, Covers E C s i events branches := by
  by_cases hproposal : ∃ msg, s.Handles i (.proposal msg)
  · obtain ⟨msg, hhandles⟩ := hproposal
    obtain ⟨blk, parent, hpass⟩ := hpasses msg hhandles
    exact h.covers_of_passes hok hhandles hpass
  rw [not_exists] at hproposal
  by_cases henters : ∃ d, Enters E s i events d
  · obtain ⟨d, hd⟩ := henters
    exact h.covers_of_enters hok htrace hproposal hd
  rw [not_exists] at henters
  by_cases hsync : ∃ blk qc b, i = .sync blk qc ∧ s.chain.kv.blocks blk.parentID = some b
  · obtain ⟨blk, qc, b, rfl, hb⟩ := hsync
    exact h.covers_of_sync hok hb henters
  · refine ⟨_, h.covers_old henters hproposal fun blk qc hi => ?_⟩
    cases hb : s.chain.kv.blocks blk.parentID with
    | none => rfl
    | some b => exact absurd ⟨blk, qc, b, hi, hb⟩ hsync

/-! ## Steps and runs -/

theorem tree_step (h : OnTrack E.H C s) (i : Input) :
    DraftTree E.H (fun _ _ => True) (s.step E i).core :=
  s.step_invariant E i h.tree fun _ _ hstep _ hc =>
    DraftTree.step hstep (fun _ _ _ _ _ _ _ => trivial)
      (fun _ _ _ _ _ _ _ _ _ _ _ _ => trivial) h.tree hc

/-- **A step keeps a node on track** if what comes in repeats nothing. -/
theorem step (h : OnTrack E.H C s) (hok : RepeatsNothing E C s i) :
    OnTrack E.H C (s.step E i) := by
  -- a proposal that does not pass leaves the ledger alone
  by_cases hkept : (s.step E i).chain.proposals = s.chain.proposals
      ∧ (s.step E i).books = s.books
  · obtain ⟨hproposals, hbooks⟩ := hkept
    have hkv : (s.step E i).chain.kv = s.chain.kv := congrArg Books.kv hbooks
    have hbest : (s.step E i).chain.bestBlock = s.chain.bestBlock :=
      congrArg Books.bestBlock hbooks
    refine ⟨h.tree_step i, hproposals ▸ h.drafts, hkv ▸ h.stored, ?_⟩
    unfold Pacemaker.ledger
    rw [hproposals, hkv, hbest]
    exact h.sound
  have hpasses : ∀ msg, s.Handles i (.proposal msg) → ∃ blk parent, s.Passes E msg blk parent :=
    fun msg hhandles => (Pacemaker.passes_or_kept hhandles).resolve_right hkept
  obtain ⟨events, htrace, hdrafts⟩ := enters_of_coreSteps (s.step_refines E i)
  obtain ⟨branches, hcovers⟩ := h.exists_covers hok htrace hpasses
  have hbooks : (s.step E i).books.OnTrack E.H C branches := by
    refine Commits.step ⟨⟨h.stored, hcovers.sound⟩, fun t d l ht hd hl => ?_,
      fun t blk qc ht hsync _ => ?_⟩
    · have hne : d.ancestors ≠ [] := by
        intro hnil
        rw [hnil] at hl
        exact nomatch hl
      exact onCommit_onTrack (hcovers.updates d hd hne) hl t (ht ▸ ⟨h.stored, hcovers.sound⟩)
    · have hbefore : t.books.OnTrack E.H C branches := ht ▸ ⟨h.stored, hcovers.sound⟩
      have hready : (t.books.kv.blocks blk.parentID).isSome →
          blk.Fits E.H C ∧ ∃ rest, blk.id E.H :: rest ∈ branches := by
        rw [ht]
        exact hcovers.sync blk qc hsync
      exact (commitBlock_bestMoves blk (some qc) t).imp
        (fun _ t' hmoves => hbefore.bestMoves hmoves hready)
        (fun t' hmoves => hbefore.bestMoves hmoves hready)
  have hplaced : ∀ id d, (s.step E i).chain.proposals id = some d →
      d.Placed E.H C branches := by
    intro id d hd
    rcases hdrafts id d hd with hold | hentered
    · exact ⟨hcovers.old (mem_branches s hold), h.drafts id d hold⟩
    · exact hcovers.enters d hentered
  refine ⟨h.tree_step i, fun id d hd => (hplaced id d hd).fits, hbooks.stored,
    hbooks.sound.forget ?_ ((s.step E i).ledger_down E.H)⟩
  rintro l ⟨hne, id, d, hd, hsuffix⟩
  obtain ⟨x, rest, rfl⟩ := List.exists_cons_of_ne_nil hne
  exact hbooks.sound.suffix_mem (hplaced id d hd).mem hsuffix

end OnTrack

/-- A chain as a node finds it when it starts, with every transaction in it
once: no stored block is above the best one, none beside it, and no two have
a transaction in common. -/
structure Chain.Clean (H : Hashes) (C : Ledger.Content Bytes32 Bytes32) (c : Chain) : Prop
    extends c.Fresh H where
  fits : ∀ id b, c.kv.blocks id = some b → b.Fits H C
  le_best : ∀ id b, c.kv.blocks id = some b → b.number ≤ c.bestBlock.number
  eq_best : ∀ id b, c.kv.blocks id = some b → b.number = c.bestBlock.number →
    b.id H = c.bestBlock.id H
  nodup : ∀ id b, c.kv.blocks id = some b → (b.txHashes H).Nodup
  apart : ∀ id id' b b', c.kv.blocks id = some b → c.kv.blocks id' = some b' → b.Apart H b'

/-- A store with nothing but a genesis block in it. -/
theorem Chain.clean_initializeStore {genesis : Block} (hfits : genesis.Fits E.H C)
    (hnodup : (genesis.txHashes E.H).Nodup) (vset nextVSet : ValidatorSet) (writeOK : ℕ → Bool) :
    (Chain.initializeStore E genesis vset nextVSet writeOK).Clean E.H C := by
  have honly : ∀ id b, (Chain.initializeStore E genesis vset nextVSet writeOK).kv.blocks id
      = some b → b = genesis := fun id b hb => (Chain.eq_of_blocks_initializeStore hb).2
  refine ⟨Chain.fresh_initializeStore E genesis vset nextVSet writeOK, fun id b hb => ?_,
    fun id b hb => ?_, fun id b hb _ => ?_, fun id b hb => ?_, fun id id' b b' hb hb' hne => ?_⟩
  · rw [honly id b hb]
    exact hfits
  · rw [honly id b hb]
    exact UInt32.le_refl _
  · rw [honly id b hb]
    rfl
  · rw [honly id b hb]
    exact hnodup
  · rw [honly id b hb, honly id' b' hb'] at hne
    exact absurd rfl hne

/-- Such a chain is a sound ledger, as yet without branches. -/
theorem Chain.Clean.sound {H : Hashes} {c : Chain} (h : c.Clean H C) :
    Ledger.Sound C heightOf ⟨∅, { id | (c.kv.blocks id).isSome }, c.bestBlock.id H⟩ := by
  have hstored : ∀ id ∈ { id | (c.kv.blocks id).isSome }, ∃ b, c.kv.blocks id = some b
      ∧ b.id H = id := by
    intro id hid
    obtain ⟨b, hb⟩ := Option.isSome_iff_exists.mp hid
    exact ⟨b, hb, h.stored id b hb⟩
  have hheight : ∀ b : Block, heightOf (b.id H) = b.number.toNat := fun b => by
    rw [heightOf, Block.number_id]
  refine ⟨fun id hid => ?_, fun id hid heq => ?_, fun id hid => ?_, fun id hid id' hid' hne => ?_,
    fun _ _ _ hx => hx.elim, fun _ _ _ hx => hx.elim, fun _ hx => hx.elim, fun _ _ hx => hx.elim,
    fun _ _ hx => hx.elim⟩
  · obtain ⟨b, hb, rfl⟩ := hstored id hid
    rw [hheight, hheight]
    exact UInt32.le_iff_toNat_le.mp (h.le_best _ b hb)
  · obtain ⟨b, hb, rfl⟩ := hstored id hid
    rw [hheight, hheight] at heq
    exact h.eq_best _ b hb (UInt32.toNat.inj heq)
  · obtain ⟨b, hb, rfl⟩ := hstored id hid
    rw [(h.fits _ b hb).items_eq]
    exact h.nodup _ b hb
  · obtain ⟨b, hb, rfl⟩ := hstored id hid
    obtain ⟨b', hb', rfl⟩ := hstored id' hid'
    rw [(h.fits _ b hb).items_eq, (h.fits _ b' hb').items_eq]
    exact h.apart _ _ b b' hb hb' (Ne.symm hne)

/-- **A node starts on track.** -/
theorem OnTrack.start {chain : Chain} {app : App} {myPubKey : Bytes} {now : Time} {p : Pacemaker}
    (hchain : chain.Clean E.H C) (h : startPacemaker E chain app myPubKey now = .ok p) :
    OnTrack E.H C p := by
  obtain ⟨bestNode, es, hbest, -, round, hcore⟩ := startPacemaker_core h
  obtain ⟨blk, hblk, rfl⟩ := hchain.stored_of_lookup hbest
  have hkv : p.chain.kv = chain.kv := congrArg Core.kv hcore
  have hbestBlock : p.chain.bestBlock = chain.bestBlock := congrArg Core.bestBlock hcore
  have hkey : blk.id E.H = chain.bestQC.blockID := hchain.stored _ blk hblk
  -- the only draft is made up from a stored block
  have honly : ∀ id d, p.chain.proposals id = some d →
      d = .stored chain.nextRef blk chain.bestQC.number chain.bestQC.round := by
    intro id d hd
    have hproposals : p.chain.proposals = _ := congrArg Core.proposals hcore
    rw [hproposals] at hd
    dsimp only at hd
    rw [Function.update_apply] at hd
    split at hd
    · exact (Option.some.inj hd).symm
    · rw [hchain.no_drafts] at hd
      exact nomatch hd
  have hroot : (p.ledger E.H).branches ⊆ insert [blk.id E.H] ∅ := by
    rintro l ⟨hne, id, d, hd, hsuffix⟩
    rw [honly id d hd] at hsuffix
    rcases List.suffix_cons_iff.mp hsuffix with hl | hl
    · exact .inl hl
    · exact absurd (List.suffix_nil.mp hl) hne
  have hsome : (chain.kv.blocks (blk.id E.H)).isSome := by
    rw [hkey, hblk]
    rfl
  refine ⟨DraftTree.start hchain.toFresh h, fun id d hd x hx => ?_, hkv ▸ hchain.fits, ?_⟩
  · rw [honly id d hd] at hx
    rw [List.mem_singleton.mp hx]
    exact hchain.fits _ blk hblk
  · have hsound := (hchain.sound.root hsome).forget hroot (p.ledger_down E.H)
    rw [← hkv, ← hbestBlock] at hsound
    exact hsound

/-- **No transaction is committed twice** in a run in which what comes in
repeats nothing that the node does not look for. -/
theorem committedOnce_of_repeatsNothing {chain : Chain} {app : App} {myPubKey : Bytes} {now : Time}
    {p₀ p : Pacemaker} (hchain : chain.Clean E.H C)
    (hstart : startPacemaker E chain app myPubKey now = .ok p₀)
    (hrun : Run E (RepeatsNothing E C) p₀ p) : CommittedOnce E.H p := by
  have htrack : OnTrack E.H C p :=
    Machine.Run.invariant hrun (OnTrack.start hchain hstart) fun _ _ hok h => h.step hok
  exact htrack.committedOnce

/-! ## Runs -/

/-- What the identifiers of some blocks stand for. -/
def contentsOf (H : Hashes) (pool : List Block) : Ledger.Content Bytes32 Bytes32 where
  parent id := ((pool.find? (fun b => b.id H == id)).map Block.parentID).getD 0
  items id := ((pool.find? (fun b => b.id H == id)).map (Block.txHashes H)).getD []

/-- Blocks with identifiers of their own, and no transaction among them
twice. -/
structure IsPool (H : Hashes) (pool : List Block) : Prop where
  ids : (pool.map (Block.id H)).Nodup
  txs : (pool.flatMap (Block.txHashes H)).Nodup

namespace IsPool

variable {H : Hashes} {pool : List Block} {b b' : Block}

theorem fits (h : IsPool H pool) (hb : b ∈ pool) : b.Fits H (contentsOf H pool) := by
  have hfind : pool.find? (fun b' => b'.id H == b.id H) = some b := by
    cases hfound : pool.find? (fun b' => b'.id H == b.id H) with
    | none => exact absurd (beq_self_eq_true (b.id H)) (List.find?_eq_none.mp hfound b hb)
    | some b' =>
      have hid := List.find?_some hfound
      rw [List.inj_on_of_nodup_map h.ids (List.mem_of_find?_eq_some hfound) hb
        (eq_of_beq hid)]
  refine ⟨?_, ?_⟩
  · show ((pool.find? _).map Block.parentID).getD 0 = b.parentID
    rw [hfind]
    rfl
  · show ((pool.find? _).map (Block.txHashes H)).getD [] = b.txHashes H
    rw [hfind]
    rfl

/-- A block of the pool has nothing in common with any other block that fits
it. -/
theorem apart (h : IsPool H pool) (hb : b ∈ pool) (hfits : b'.Fits H (contentsOf H pool)) :
    b.Apart H b' := by
  intro hne
  rw [← hfits.items_eq]
  show (b.txHashes H).Disjoint (((pool.find? _).map (Block.txHashes H)).getD [])
  cases hfound : pool.find? (fun b'' => b''.id H == b'.id H) with
  | none => exact fun _ _ hnil => absurd hnil List.not_mem_nil
  | some b'' =>
    have hid := List.find?_some hfound
    have hmem := List.mem_of_find?_eq_some hfound
    have hpairs := (List.nodup_flatMap.mp h.txs).2
    have hsymm : Std.Symm (Function.onFun List.Disjoint (Block.txHashes H)) :=
      ⟨fun _ _ hdisjoint tx htx htx' => hdisjoint htx' htx⟩
    exact hpairs.forall hb hmem (by rintro rfl; exact hne (eq_of_beq hid).symm)

/-- A test for steps that let nothing in but the blocks of a pool, with a
proposal. -/
def test (E : Env) (pool : List Block) (s : Pacemaker) (i : Input) : Bool :=
  decide ((s.step E i).proposed.length = s.proposed.length) && match i with
    | .sync _ _ => false
    | .loop .message => match s.inQueue.head?.map IncomingMsg.msg with
      | some (.proposal msg) => msg.decodedBlock.all (fun blk => decide (blk ∈ pool))
      | _ => true
    | _ => true

theorem repeatsNothing (h : IsPool E.H pool) (hs : OnTrack E.H (contentsOf E.H pool) s)
    (htest : test E pool s i = true) : RepeatsNothing E (contentsOf E.H pool) s i := by
  obtain ⟨hlength, htest⟩ := Bool.and_eq_true_iff.mp htest
  refine ⟨fun msg blk parent hhandles hdecoded hparent => ?_, fun d hd => ?_, fun blk qc hi => ?_⟩
  · obtain ⟨rfl, mi, rest, hqueue, hmsg⟩ := hhandles
    have hblk : blk ∈ pool := by simpa [hqueue, hmsg, hdecoded] using htest
    refine ⟨⟨h.fits hblk, (List.nodup_flatMap.mp h.txs).1 blk hblk, fun id b' hb' => ?_⟩,
      fun bs _ x hx _ => ?_⟩
    · exact h.apart hblk (hs.stored id b' hb')
    · exact h.apart hblk (hs.fits_of_draws hparent.draws x hx)
  · have hlength' := of_decide_eq_true hlength
    rw [hd, List.length_append] at hlength'
    exact absurd hlength' (by simp)
  · rw [hi] at htest
    exact nomatch htest

end IsPool

namespace Testnet

/-- A block with a transaction. -/
def carrier : Block := block genesis 1 genesisQC [[1]]

/-- The second block, with another one. -/
def carrier₂ : Block := block carrier 2 (certificate carrier 1) [[2]]

/-- The third block, with yet another one. -/
def carrier₃ : Block := block carrier₂ 3 (certificate carrier₂ 2) [[3]]

/-- The blocks that come in, and what they stand for. -/
def pool : List Block := [genesis, carrier, carrier₂, carrier₃]

theorem isPool : IsPool env.H pool := ⟨by decide +kernel, by decide +kernel⟩

theorem clean_chain : chain.Clean env.H (contentsOf env.H pool) :=
  Chain.clean_initializeStore (isPool.fits List.mem_cons_self) List.nodup_nil _ _ _

def carriers : List Input := deliver carrier 1 ++ deliver carrier₂ 2 ++ deliver carrier₃ 3

/-- **Three blocks with three transactions**, the first of which is
committed. -/
theorem carriers_committedOnce :
    ∃ p₀, start 1 = .ok p₀ ∧ let p := p₀.play env carriers
      (p.chain.getBlock (carrier.id hashes)).isSome = true
        ∧ Run env (RepeatsNothing env (contentsOf env.H pool)) p₀ p ∧ CommittedOnce env.H p := by
  obtain ⟨p₀, hstart, htest⟩ := exists_of_start (k := 1)
    (fun p₀ => Machine.passes (Pacemaker.step env) (IsPool.test env pool) p₀ carriers
      && ((p₀.play env carriers).chain.getBlock (carrier.id hashes)).isSome) (by decide +kernel)
  obtain ⟨hpasses, hsome⟩ := Bool.and_eq_true_iff.mp htest
  have hrun : Run env (RepeatsNothing env (contentsOf env.H pool)) p₀ (p₀.play env carriers) :=
    .of_plays _ (Machine.Plays.of_test_along (I := OnTrack env.H _) (IsPool.test env pool)
      (fun _ _ hs ht => isPool.repeatsNothing hs ht) (fun _ _ hs hok => hs.step hok) _
      (OnTrack.start clean_chain hstart) hpasses)
  exact ⟨p₀, hstart, hsome, hrun, committedOnce_of_repeatsNothing clean_chain hstart hrun⟩

/-- The fourth block has the transaction of the first one again. -/
def repeater : Block := block carrier₃ 4 (certificate carrier₃ 3) [[1]]

/-- The fifth and the sixth block, by which the fourth one is committed. -/
def repeater₂ : Block := block repeater 5 (certificate repeater 4) []

def repeater₃ : Block := block repeater₂ 6 (certificate repeater₂ 5) []

def repetition : List Input :=
  carriers ++ deliver repeater 4 ++ deliver repeater₂ 5 ++ deliver repeater₃ 6

/-- **A transaction is committed again**: the proposal with the transaction of
a committed block passes every check, and is committed three blocks later. -/
theorem transaction_committed_again :
    ∃ p₀, start 1 = .ok p₀ ∧ let p := p₀.play env repetition
      Run env (fun _ _ => True) p₀ p ∧ ¬ CommittedOnce hashes p := by
  obtain ⟨p₀, hstart, htest⟩ := exists_of_start (k := 1)
    (fun p₀ => let c := (p₀.play env repetition).chain
      (c.getBlock (carrier.id hashes)).any (fun b => (c.getBlock (repeater.id hashes)).any
        (fun b' => decide (b.id hashes = carrier.id hashes ∧ b'.id hashes = repeater.id hashes
          ∧ ¬ ([b, b'].flatMap (Block.txHashes hashes)).Nodup)))) (by decide +kernel)
  obtain ⟨b, hb, htest⟩ := (Option.any_eq_true _ _).mp htest
  obtain ⟨b', hb', htest⟩ := (Option.any_eq_true _ _).mp htest
  obtain ⟨hid, hid', htwice⟩ := of_decide_eq_true htest
  refine ⟨p₀, hstart, Machine.run_play _ _,
    fun honce => htwice (honce [b, b'] ?_ ?_)⟩
  · intro b'' hb''
    rcases List.mem_pair.mp hb'' with rfl | rfl
    · rw [hid, hb]
    · rw [hid', hb']
  · show [b.id hashes, b'.id hashes].Nodup
    rw [hid, hid']
    decide +kernel

end Testnet

end LoragonBFT
