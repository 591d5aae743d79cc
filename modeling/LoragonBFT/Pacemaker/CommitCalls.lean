import LoragonBFT.Pacemaker.Standing

/-!
# Where a step commits

Blocks are executed, stored and made the best one in one place, `CommitBlock`,
and a step gets there on two ways: `Update` walks up from a certified draft
and hands the list to `OnCommit`, or a peer hands in a block that extends the
best one. Whatever else a step does leaves the store, the best block and the
executed blocks alone.

`Books` gathers the three. A property of the books holds after a step if it
holds before and both ways of committing ensure it (`Commits.step`), so that
an argument about commits need not look at a handler again. The drafts from
which `Update` may start are told from the state before the step
(`Pacemaker.UpdatesFrom`).
-/

namespace LoragonBFT

open EStateM

variable {E : Env} {s : Pacemaker} {i : Input}

/-! ## What only a commit touches -/

/-- The blocks executed, the store and the best block. -/
structure Books where
  requests : List FinalizeBlockRequest
  kv : KV
  bestBlock : Block

def Pacemaker.books (p : Pacemaker) : Books := ⟨p.requests, p.chain.kv, p.chain.bestBlock⟩

/-- They are part of what is settled. -/
def Settled.books (st : Settled) : Books := ⟨st.requests, st.kv, st.bestBlock⟩

theorem keeps_books {α : Type} {x : PM α} (h : Keeps Pacemaker.settled x) :
    Keeps Pacemaker.books x := h.comp Settled.books

theorem keeps_books_updateQCHigh (q : DraftQC) : Keeps Pacemaker.books (updateQCHigh q) :=
  fun t => (updateQCHigh_spec q t).imp (fun _ _ ⟨_, h⟩ => by rw [h]; rfl) (fun _ h => by rw [h])

theorem keeps_books_addTCVote (signerIndex round : UInt32) (sig : Bytes) (hash : Bytes32) :
    Keeps Pacemaker.books (addTCVote E signerIndex round sig hash) := fun t =>
  (addTCVote_spec _ _ _ _ t).imp (fun _ _ ⟨_, _, h⟩ => by rw [h]; rfl) (fun _ h => by rw [h])

theorem keeps_books_addQCVote (signerIndex round : UInt32) (blockID : Bytes32) (sig : Bytes) :
    Keeps Pacemaker.books (addQCVote E signerIndex round blockID sig) := fun t =>
  (addQCVote_spec _ _ _ _ t).imp (fun _ _ ⟨_, _, h⟩ => by rw [h]; rfl) (fun _ h => by rw [h])

theorem keeps_books_onReceiveVote (mi : IncomingMsg) (msg : PMVoteMessage) :
    Keeps Pacemaker.books (onReceiveVote E mi msg) :=
  keeps_onReceiveVote keeps_books keeps_books_addQCVote keeps_books_updateQCHigh mi msg

theorem keeps_books_regulate : Keeps Pacemaker.books (regulate E) :=
  fun t => (regulate_settled t).imp
    (fun _ _ ⟨_, _, _, _, h⟩ => congrArg Settled.books h) (fun _ h => congrArg Settled.books h)

theorem keeps_books_onBeat (epoch : UInt64) (round : UInt32) :
    Keeps Pacemaker.books (onBeat E epoch round) :=
  (keeps_onBeat epoch round).comp
    (fun st => (⟨st.2.2.2.1, st.2.2.2.2.1, st.2.2.2.2.2⟩ : Books))

/-! ## Computations that may commit -/

/-- The computation leaves books with the property behind, whether it returns
or faults. -/
def Leaves {α : Type} (Q : Books → Prop) (x : PM α) (t : Pacemaker) : Prop :=
  Ensures x t (fun _ t' => Q t'.books) (fun t' => Q t'.books)

variable {t : Pacemaker} {qc : QuorumCert}

namespace Leaves

variable {α β : Type} {Q : Books → Prop}

theorem of_keeps {x : PM α} (h : Keeps Pacemaker.books x) (ht : Q t.books) :
    Leaves Q x t :=
  (h t).imp (fun _ _ h' => h' ▸ ht) (fun _ h' => h' ▸ ht)

/-- What touches no book may come after a commit. -/
theorem bind {x : PM α} {f : α → PM β} (hx : Leaves Q x t) (hf : ∀ a, Keeps Pacemaker.books (f a)) :
    Leaves Q (x >>= f) t := by
  unfold Leaves
  rw [ensures_bind]
  exact hx.imp (fun a _ h => of_keeps (hf a) h) (fun _ h => h)

end Leaves

/-! ## From `Update` to the commit -/

/-- **`Update` leaves what `OnCommit` leaves** of the list it walks up. -/
theorem update_leaves {Q : Books → Prop} (qc : QuorumCert) (t : Pacemaker) (hbefore : Q t.books)
    (hwalk : ∀ t' d l, t'.books = t.books → t.core.IsEscortDraft qc d →
      commitReadyBlocks t.lastCommitted.number d.toDraftInfo d.ancestors [] = .ok l →
      Leaves Q (onCommit E l) t') : Leaves Q (update E qc) t := by
  refine ensures_update qc t ⟨hbefore, hbefore⟩ fun bPrime t₁ hlookup _ h => ?_
  have hbooks : t₁.books = t.books := by
    rcases h with ⟨-, rfl⟩ | ⟨-, rfl⟩ <;> rfl
  exact ⟨hbooks ▸ hbefore, hbooks ▸ hbefore,
    fun l hl => hwalk t₁ bPrime l hbooks (isEscortDraft_of_lookup hlookup) hl⟩

/-- A draft from which `Update` may walk up in a step: the one the certificate
of the handled proposal is about, or the one the last vote of the handled
timeout completes a certificate for. A proposal whose certificate names the
proposed block itself would lead to the new draft. -/
inductive Pacemaker.UpdatesFrom (E : Env) (s : Pacemaker) (i : Input) : DraftBlock → Prop
  | proposal (msg : PMProposalMessage) (blk : Block) (d : DraftBlock)
      (handles : s.Handles i (.proposal msg)) (decoded : msg.decodedBlock = some blk)
      (isDraft : s.core.IsEscortDraft blk.qc d) : UpdatesFrom E s i d
  | itself (msg : PMProposalMessage) (blk : Block) (parent : DraftBlock) (ref : Ref)
      (handles : s.Handles i (.proposal msg)) (decoded : msg.decodedBlock = some blk)
      (parent_isDraft : s.core.IsDraft blk.parentID parent) (self : blk.qc.blockID = blk.id E.H) :
      UpdatesFrom E s i { newDraft msg blk parent ref with successProcessed := true }
  | timeout (msg : PMTimeoutMessage) (qc : QuorumCert) (es : EpochState) (d : DraftBlock)
      (handles : s.Handles i (.timeout msg))
      (formed : s.epochState.addQCVote E.B msg.signerIndex msg.lastVoteRound msg.lastVoteBlockID
        msg.lastVoteSignature = .ok (some qc, es))
      (isDraft : s.core.IsEscortDraft qc d) : UpdatesFrom E s i d

/-- **What the two ways of committing have to ensure**, so that a step
ensures it. -/
structure Commits (E : Env) (s : Pacemaker) (i : Input) (Q : Books → Prop) : Prop where
  before : Q s.books
  walk : ∀ t d l, t.books = s.books → s.UpdatesFrom E i d →
    commitReadyBlocks s.lastCommitted.number d.toDraftInfo d.ancestors [] = .ok l →
    Leaves Q (onCommit E l) t
  sync : ∀ t blk qc, t.books = s.books → i = .sync blk qc →
    s.chain.bestBlock.id E.H = blk.parentID → Leaves Q (commitBlock E blk (some qc)) t

/-- The drafts `GetDraftByEscortQC` can find once a proposal has become a
draft. -/
theorem isEscortDraft_addDraft {c : Core} {bnew d : DraftBlock}
    (hfresh : c.proposals (bnew.proposedBlock.id E.H) = none)
    (h : (c.addDraft E.H bnew).IsEscortDraft qc d) :
    c.IsEscortDraft qc d ∨ qc.blockID = bnew.proposedBlock.id E.H ∧ d = bnew := by
  by_cases hid : qc.blockID = bnew.proposedBlock.id E.H
  · rcases h with ⟨hmem, -⟩ | ⟨-, blk, ref, hstored, rfl⟩
    · refine .inr ⟨hid, ?_⟩
      have hmem' : Function.update c.proposals (bnew.proposedBlock.id E.H) (some bnew) qc.blockID
          = some d := hmem
      rw [hid, Function.update_self] at hmem'
      exact (Option.some.inj hmem').symm
    · refine .inl (.inr ⟨fun d' hd' => ?_, blk, ref, hstored, rfl⟩)
      rw [hid, hfresh] at hd'
      exact nomatch hd'
  · left
    have hsame : (c.addDraft E.H bnew).proposals qc.blockID = c.proposals qc.blockID :=
      Function.update_of_ne hid _ _
    unfold Core.IsEscortDraft at h ⊢
    rw [hsame] at h
    exact h

/-- **Where `Update` starts**, told from the state before the step. -/
theorem UpdateSource.updatesFrom {c : Core} {d : DraftBlock} (h : UpdateSource E s i c qc)
    (hkv : c.kv = s.chain.kv) (hd : c.IsEscortDraft qc d) :
    s.UpdatesFrom E i d := by
  have hsame : c.proposals = s.chain.proposals → s.core.IsEscortDraft qc d := by
    intro hdrafts
    simpa only [Core.IsEscortDraft, Pacemaker.core, hkv, hdrafts] using hd
  cases h with
  | timeout msg hhandles hformed hdrafts hlast =>
    exact .timeout msg qc c.epochState d hhandles hformed (hsame hdrafts)
  | proposal msg blk parent bnew haccepted hqc hvalid hextended hkv' hdrafts =>
    subst hqc
    obtain ⟨ref, hbnew⟩ := haccepted.bnew_eq
    have hblk : bnew.proposedBlock = blk := by rw [hbnew]; rfl
    rcases hdrafts with hdrafts | ⟨hfresh, hdrafts⟩
    · exact .proposal msg blk d haccepted.handles haccepted.decoded (hsame hdrafts)
    have hd' : (s.core.addDraft E.H bnew).IsEscortDraft blk.qc d := by
      simpa only [Core.IsEscortDraft, Core.addDraft, Pacemaker.core, hkv, hdrafts, hblk] using hd
    rcases isEscortDraft_addDraft (hblk ▸ hfresh) hd' with hd' | ⟨hself, rfl⟩
    · exact .proposal msg blk d haccepted.handles haccepted.decoded hd'
    · rw [hbnew]
      exact .itself msg blk parent ref haccepted.handles haccepted.decoded haccepted.parent_isDraft
        (hblk ▸ hself)

namespace Commits

variable {Q : Books → Prop}

theorem update (h : Commits E s i Q) (hsource : UpdateSource E s i t.core qc)
    (hbooks : t.books = s.books) (hlast : t.lastCommitted = s.lastCommitted) :
    Leaves Q (LoragonBFT.update E qc) t :=
  update_leaves qc t (hbooks ▸ h.before) fun t' d l ht' hd hl =>
    h.walk t' d l (ht'.trans hbooks) (hsource.updatesFrom (congrArg Books.kv hbooks) hd)
      (hlast ▸ hl)

theorem onReceiveProposal (h : Commits E s i Q) {mi : IncomingMsg} {msg : PMProposalMessage}
    {rest : List IncomingMsg} (htakes : s.Takes i mi rest) (hmsg : mi.msg = .proposal msg)
    (cmdCh : Bool) :
    Leaves Q (LoragonBFT.onReceiveProposal E mi msg) (s.taking cmdCh rest) :=
  onReceiveProposal_settles (P := fun st => Q st.books) hmsg (htakes.handles hmsg)
    (.single (.dequeue s.core mi rest htakes.queue)) ⟨⟨_, rfl⟩, rfl, rfl⟩ h.before
    fun _ _ _ hsource hsettled hlast => h.update hsource (congrArg Settled.books hsettled) hlast

theorem collectLastVote (h : Commits E s i Q) (msg : PMTimeoutMessage) (t : Pacemaker)
    (hhandles : s.Handles i (.timeout msg)) (hchain : t.chain = s.chain)
    (hbooks : t.books = s.books) (hes : t.epochState = s.epochState)
    (hlast : t.lastCommitted = s.lastCommitted) :
    Leaves Q (LoragonBFT.collectLastVote E msg) t := by
  have hbefore : Q t.books := hbooks ▸ h.before
  unfold Leaves LoragonBFT.collectLastVote
  rw [ensures_bind]
  refine (addQCVote_spec _ _ _ _ t).imp (fun qc t₁ h₁ => ?_) (fun _ h₁ => by rw [h₁]; exact hbefore)
  obtain ⟨es, hcount, rfl⟩ := h₁
  split
  · exact hbefore
  rename_i newQC
  rw [ensures_bind, ensures_getDraftByEscortQC, ensures_bind]
  refine (updateQCHigh_spec _ _).imp (fun _ t₂ h₂ => ?_) (fun _ h₂ => by rw [h₂]; exact hbefore)
  obtain ⟨q, rfl⟩ := h₂
  have hsource : UpdateSource E s i { t with epochState := es }.core newQC :=
    .timeout msg hhandles (hes ▸ hcount) (congrArg Chain.proposals hchain) hlast
  exact Leaves.bind (h.update hsource hbooks hlast) fun _ => Keeps.pure _

theorem onReceiveTimeout (h : Commits E s i Q) (msg : PMTimeoutMessage) (t : Pacemaker)
    (hhandles : s.Handles i (.timeout msg)) (hchain : t.chain = s.chain)
    (hbooks : t.books = s.books) (hes : t.epochState = s.epochState)
    (hlast : t.lastCommitted = s.lastCommitted) :
    Leaves Q (LoragonBFT.onReceiveTimeout E msg) t := by
  have hbefore : Q t.books := hbooks ▸ h.before
  unfold Leaves LoragonBFT.onReceiveTimeout
  rw [ensures_bind, ensures_get]
  split
  · exact hbefore
  refine Leaves.bind (h.collectLastVote msg t hhandles hchain hbooks hes hlast) fun _ => ?_
  have hlookup : ∀ qc, Keeps Pacemaker.books (getDraftByEscortQC qc) := fun _ _ => rfl
  have hadopt : Keeps Pacemaker.books (adoptQCHigh msg) :=
    (keeps_ofExcept _).bind fun qc => (hlookup qc).bind fun _ =>
      (keeps_books_updateQCHigh _).bind fun _ => Keeps.pure _
  refine hadopt.bind fun _ => (keeps_books_addTCVote _ _ _ _).bind fun tc => ?_
  split
  · exact Keeps.pure _
  · exact fun _ => rfl

theorem processBlock (h : Commits E s i Q) (blk : Block) (qc : QuorumCert)
    (hsync : i = .sync blk qc) : Leaves Q (LoragonBFT.processBlock E blk qc) s := by
  have hsynced : s.chain.bestBlock.id E.H = blk.parentID → ∀ t : Pacemaker, t.books = s.books →
      Leaves Q (commitSynced E blk qc) t := by
    intro hextends t ht
    have hbefore : Q t.books := ht ▸ h.before
    unfold Leaves commitSynced
    rw [ensures_bind, ensures_get]
    split
    · exact hbefore
    · exact hbefore
    · exact hbefore
    · exact hbefore
    · exact h.sync t blk qc ht hsync hextends
  unfold Leaves LoragonBFT.processBlock
  rw [ensures_bind, ensures_get]
  split
  · exact h.before
  rename_i hextends
  have hextends' := not_not.mp hextends
  split
  · rw [ensures_bind]
    refine (keeps_books (keeps_validateQC _ _) s).imp (fun valid t ht => ?_)
      (fun t ht => ht ▸ h.before)
    have hbefore : Q t.books := ht ▸ h.before
    split
    · exact hsynced hextends' t ht
    · exact hbefore
  · exact hsynced hextends' s rfl

/-- **A step leaves the books as commits leave them.** -/
theorem step (h : Commits E s i Q) : Q (s.step E i).books := by
  refine Outcomes.step (f := id) (Q := fun t => Q t.books) ⟨?_, ?_, ?_, ?_, ?_, ?_, ?_, ?_⟩
  · intro t ht
    rw [show t.books = s.books from congrArg Settled.books ht]
    exact h.before
  · exact fun t fault ht => ht
  · intro mi rest cmdCh msg htakes hmsg
    exact (h.onReceiveProposal htakes hmsg cmdCh).exec
  · intro mi rest cmdCh msg _ _
    exact (Leaves.of_keeps (keeps_books_onReceiveVote mi msg) (t := s.taking cmdCh rest)
      h.before).exec
  · intro mi rest cmdCh msg htakes hmsg
    exact (h.onReceiveTimeout msg (s.taking cmdCh rest) (htakes.handles hmsg)
      rfl rfl rfl rfl).exec
  · intro b cmdCh _ _
    exact (Leaves.of_keeps (keeps_books_onBeat b.epoch b.round) (t := s.beating cmdCh)
      h.before).exec
  · exact fun _ _ => (Leaves.of_keeps keeps_books_regulate (t := s.regulating) h.before).exec
  · exact fun blk qc hsync => (h.processBlock blk qc hsync).exec

end Commits

end LoragonBFT
