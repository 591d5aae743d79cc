import LoragonBFT.Pacemaker.Proposers

/-!
# Blocks from peers

A block that a peer hands over is committed without a vote, so everything
that is checked of it is checked by `processBlock`. The block must extend the
best one and its header must pass `validateBlock`. The certificate that comes
with it is looked at only if the block is recent: a node that is far behind
takes old blocks on the strength of their headers. And where it is looked at,
a certificate that was verified before is not verified again – the digests of
these are kept in `validQCs`, whichever block and committee they were
verified for.

The results are about every state and every block: what must have been
checked when the chain has changed, and what it means for a digest to be in
the cache.
-/

namespace LoragonBFT

open EStateM

variable {E : Env}

/-! ## The cache of valid certificates -/

/-- A certificate with this digest was verified, for some block and with the
committee then in force, in the run from `p₀` to `p`. -/
def VerifiedEarlier (E : Env) (p₀ p : Pacemaker) (digest : Bytes32) : Prop :=
  ∃ (q : Pacemaker) (b : Block) (qc : QuorumCert), Runs E p₀ q ∧ Runs E q p
    ∧ qcID E.H qc = digest
    ∧ b.verifyQC E.H E.B qc q.epochState.committee = .ok (true, none)

/-- Within a step the committee changes only with a `Regulate`, and what
enters the cache was verified. -/
structure CacheSound (good : Bytes32 → Prop) (s : Pacemaker) (i : Input) (c : Core) : Prop where
  committee : i ≠ .loop .cmd → c.epochState.committee = s.epochState.committee
  valid : ∀ digest ∈ c.validQCs, good digest

theorem CacheSound.step {good : Bytes32 → Prop} {s : Pacemaker} {i : Input} {c c' : Core}
    (hgood : ∀ (b : Block) qc, b.verifyQC E.H E.B qc s.epochState.committee = .ok (true, none) →
      good (qcID E.H qc))
    (hstep : CoreStep E s i c c') (h : CacheSound good s i c) : CacheSound good s i c' := by
  cases hstep with
  | cacheQC b qc hverified hsource =>
    -- neither a proposal nor a block from a peer is handled by a `Regulate`
    have hinput : i ≠ .loop .cmd := by
      rintro rfl
      rcases hsource with ⟨msg, blk, ⟨hi, -⟩, -⟩ | ⟨blk, hi⟩ <;> exact nomatch hi
    rw [h.committee hinput] at hverified
    refine ⟨h.committee, fun digest hdigest => ?_⟩
    rcases mem_of_mem_lruAdd hdigest with rfl | hold
    · exact hgood b qc hverified
    · exact h.valid digest hold
  | countQCVote m signerIndex round blockID sig qc es hhandles hcarried hcounted =>
    obtain ⟨manager, rfl⟩ := EpochState.addQCVote_eq hcounted
    exact ⟨h.committee, h.valid⟩
  | countTCVote signerIndex round sig hash tc es hcounted =>
    obtain ⟨manager, rfl⟩ := EpochState.addTCVote_eq hcounted
    exact ⟨h.committee, h.valid⟩
  | regulate bestNode es hcmd => exact ⟨fun hi => absurd hcmd hi, h.valid⟩
  | _ => exact ⟨h.committee, h.valid⟩

/-- **What is in the cache was verified in the run.** -/
theorem verifiedEarlier_of_mem {chain : Chain} {app : App} {myPubKey : Bytes} {now : Time}
    {p₀ p : Pacemaker} (hstart : startPacemaker E chain app myPubKey now = .ok p₀)
    (hrun : Runs E p₀ p) : ∀ digest ∈ p.validQCs, VerifiedEarlier E p₀ p digest := by
  induction hrun with
  | refl =>
    obtain ⟨bestNode, es, -, -, round, hcore⟩ := startPacemaker_core hstart
    have hempty : p₀.validQCs = [] := congrArg Core.validQCs hcore
    rw [hempty]
    exact fun _ h => absurd h List.not_mem_nil
  | @tail q p hq hlast ih =>
    obtain ⟨i, -, rfl⟩ := hlast
    have hsteps : Runs E q (q.step E i) := .single ⟨i, trivial, rfl⟩
    have hmono : CacheSound (VerifiedEarlier E p₀ (q.step E i)) q i q.core := by
      refine ⟨fun _ => rfl, fun digest hdigest => ?_⟩
      obtain ⟨r, b, qc, hr, hrq, hverified⟩ := ih digest hdigest
      exact ⟨r, b, qc, hr, hrq.trans hsteps, hverified⟩
    have hstep := q.step_invariant E i hmono fun c c' hstep _ hc =>
      CacheSound.step (fun b qc hverified => ⟨q, b, qc, hq, hsteps, rfl, hverified⟩) hstep hc
    exact hstep.valid

/-! ## What is checked of a block -/

/-- `processBlock` commits: the stored blocks or the best block change. -/
def SyncCommits (E : Env) (p : Pacemaker) (blk : Block) (escortQC : QuorumCert) : Prop :=
  ((processBlock E blk escortQC).exec p).chain.kv.blocks ≠ p.chain.kv.blocks
    ∨ ((processBlock E blk escortQC).exec p).chain.bestBlock ≠ p.chain.bestBlock

/-- What has been checked of a block from a peer. -/
structure SyncChecked (E : Env) (p : Pacemaker) (blk : Block) (escortQC : QuorumCert) : Prop where
  extends_best : p.chain.bestBlock.id E.H = blk.parentID
  header_valid : p.validateSyncedBlock E blk (Time.unix p.clock) = none
  certified : p.isRecent blk = true →
    blk.verifyQC E.H E.B escortQC p.epochState.committee = .ok (true, none)
      ∨ qcID E.H escortQC ∈ p.validQCs

/-- The end of `processBlock` leaves the chain alone unless the header is
valid. -/
theorem commitSynced_checks (blk : Block) (escortQC : QuorumCert) (t : Pacemaker) :
    Ensures (commitSynced E blk escortQC) t
      (fun _ t' => t'.chain = t.chain
        ∨ t.validateSyncedBlock E blk (Time.unix t.clock) = none)
      (fun t' => t'.chain = t.chain
        ∨ t.validateSyncedBlock E blk (Time.unix t.clock) = none) := by
  unfold commitSynced
  rw [ensures_bind, ensures_get]
  cases hvalid : t.validateSyncedBlock E blk (Time.unix t.clock) with
  | none =>
    unfold Ensures
    split <;> exact .inr rfl
  | some e =>
    cases e <;> exact .inl rfl

/-- **`processBlock` leaves the chain alone unless the block was checked.** -/
theorem processBlock_checks (blk : Block) (escortQC : QuorumCert) (p : Pacemaker) :
    Ensures (processBlock E blk escortQC) p
      (fun _ p' => p'.chain = p.chain ∨ SyncChecked E p blk escortQC)
      (fun p' => p'.chain = p.chain ∨ SyncChecked E p blk escortQC) := by
  unfold processBlock
  rw [ensures_bind, ensures_get]
  by_cases hbest : p.chain.bestBlock.id E.H ≠ blk.parentID
  · rw [if_pos hbest, ensures_pure]
    exact .inl rfl
  rw [if_neg hbest]
  have hextends : p.chain.bestBlock.id E.H = blk.parentID := not_ne_iff.mp hbest
  by_cases hrecent : p.isRecent blk = true
  · rw [if_pos hrecent, ensures_bind]
    refine (validateQC_spec blk escortQC p).imp (fun valid t h => ?_)
      (fun t h => .inl (congrArg Pacemaker.chain h))
    obtain ⟨hcases, hvalid⟩ := h
    -- looking at the certificate changes at most the cache
    have hsame : t.chain = p.chain
        ∧ t.validateSyncedBlock E blk (Time.unix t.clock)
          = p.validateSyncedBlock E blk (Time.unix p.clock) := by
      rcases hcases with rfl | ⟨-, rfl⟩ <;> exact ⟨rfl, rfl⟩
    cases valid with
    | false => exact .inl hsame.1
    | true =>
      have hcertified : blk.verifyQC E.H E.B escortQC p.epochState.committee = .ok (true, none)
          ∨ qcID E.H escortQC ∈ p.validQCs := by
        rcases hcases with rfl | ⟨hverified, -⟩
        · exact .inr (hvalid rfl)
        · exact .inl hverified
      have hchecks := commitSynced_checks (E := E) blk escortQC t
      rw [hsame.1, hsame.2] at hchecks
      exact hchecks.imp
        (fun _ _ h => h.imp_right fun hheader => ⟨hextends, hheader, fun _ => hcertified⟩)
        (fun _ h => h.imp_right fun hheader => ⟨hextends, hheader, fun _ => hcertified⟩)
  · rw [if_neg hrecent]
    exact (commitSynced_checks (E := E) blk escortQC p).imp
      (fun _ _ h => h.imp_right fun hheader => ⟨hextends, hheader, fun h => absurd h hrecent⟩)
      (fun _ h => h.imp_right fun hheader => ⟨hextends, hheader, fun h => absurd h hrecent⟩)

/-- **A committed block was checked**: it extends the best block, its header
is valid, and if it is recent its certificate verifies with the committee in
force or is in the cache – which, in a run, means that it was verified with
the committee in force then. -/
theorem committed_block_is_checked {p : Pacemaker} {blk : Block} {escortQC : QuorumCert}
    (hcommits : SyncCommits E p blk escortQC) :
    SyncChecked E p blk escortQC
      ∧ ∀ chain app myPubKey now p₀, startPacemaker E chain app myPubKey now = .ok p₀ →
        Runs E p₀ p → qcID E.H escortQC ∈ p.validQCs →
        VerifiedEarlier E p₀ p (qcID E.H escortQC) := by
  refine ⟨?_, fun chain app myPubKey now p₀ hstart hrun => verifiedEarlier_of_mem hstart hrun _⟩
  rcases (processBlock_checks blk escortQC p).exec with hsame | hchecked
  · unfold SyncCommits at hcommits
    rw [hsame] at hcommits
    rcases hcommits with h | h <;> exact absurd rfl h
  · exact hchecked

namespace Testnet

/-- The best block changes. -/
def commitTest (b : Block) (escortQC : QuorumCert) (p : Pacemaker) : Bool :=
  decide (((processBlock env b escortQC).exec p).chain.bestBlock ≠ p.chain.bestBlock)

/-- A recent block with its certificate is committed, and was checked. -/
theorem committed_first_block_is_checked :
    ∃ p₀, start 1 = .ok p₀
      ∧ let b := block genesis 1 genesisQC []
        SyncCommits env p₀ b (certificate b 1) ∧ SyncChecked env p₀ b (certificate b 1)
          ∧ p₀.isRecent b = true := by
  obtain ⟨p₀, hstart, htest⟩ := exists_of_start (k := 1)
    (fun p₀ =>
      let b := block genesis 1 genesisQC []
      commitTest b (certificate b 1) p₀ && p₀.isRecent b)
    (by decide +kernel)
  obtain ⟨hcommit, hrecent⟩ := Bool.and_eq_true_iff.mp htest
  have hcommits : SyncCommits env p₀ (block genesis 1 genesisQC [])
      (certificate (block genesis 1 genesisQC []) 1) := .inr (of_decide_eq_true hcommit)
  exact ⟨p₀, hstart, hcommits, (committed_block_is_checked hcommits).1, hrecent⟩

/-- No certificate at all: nobody signed, and it names no block. -/
def emptyQC : QuorumCert := ⟨0, 0, 0, [], .new 4⟩

/-- **An old block is committed with an empty certificate.** A quarter of an
hour after the block was made nobody looks. -/
theorem old_block_without_certificate :
    ∃ p₀, start 1 = .ok p₀
      ∧ let b := block genesis 1 genesisQC []
        let p := p₀.step env (.tick 1000000000000)
        SyncCommits env p b emptyQC ∧ emptyQC.blockID ≠ b.id hashes
          ∧ b.verifyQC hashes bls emptyQC p.epochState.committee ≠ .ok (true, none) := by
  obtain ⟨p₀, hstart, htest⟩ := exists_of_start (k := 1)
    (fun p₀ =>
      let b := block genesis 1 genesisQC []
      let p := p₀.step env (.tick 1000000000000)
      commitTest b emptyQC p
        && decide (b.verifyQC hashes bls emptyQC p.epochState.committee ≠ .ok (true, none)))
    (by decide +kernel)
  obtain ⟨hcommit, hverify⟩ := Bool.and_eq_true_iff.mp htest
  exact ⟨p₀, hstart, .inr (of_decide_eq_true hcommit), by decide +kernel,
    of_decide_eq_true hverify⟩

end Testnet

end LoragonBFT
