import LoragonBFT.Pacemaker.CommitOutcome
import LoragonBFT.Testnet

/-!
# Two threads that commit

`CommitBlock` is called from two goroutines: the main loop commits what the
two-chain rule allows, and the goroutine that fetches blocks from peers
commits what `processBlock` lets through. The call is a height check, the
execution of the block by the application and `AddBlock`. The chain locks
itself for the first and the last of these, but nothing is held across the
three. Both threads can pass the check for one height before either has added
its block, and the application then executes the height twice.

The three moves are made separately here, in any order the two threads allow,
with anything else the node does in between. The best block only changes in
`AddBlock` and the application is only asked to execute in `ApplyBlock`, so
what else happens is everything that leaves these two alone. That the moves of
one thread make up a call of `CommitBlock` is `Committers.play_commitBlock`.

When both threads have passed the check with blocks of one height, the second
`AddBlock` is for a block that is not higher than the best one any more. Of two
blocks of one height the chain prefers the one with the smaller identifier, so
the best block may still be replaced, but never by a lower one
(`best_block_rises`).

A height is executed once if the calls do not overlap – and if every call
that reaches the application also reaches the chain: a block whose execution
fails, or that cannot be added afterwards, is still above the best block and
is tried again.
-/

namespace LoragonBFT

open EStateM

variable {E : Env}

/-! ## The threads -/

/-- The goroutines that call `CommitBlock`. -/
inductive Thread where
  | mainLoop
  | blockSync
deriving DecidableEq, Repr

/-- The other one. -/
def Thread.other : Thread → Thread
  | mainLoop => blockSync
  | blockSync => mainLoop

/-- How far a thread is in a call of `CommitBlock`. -/
inductive Phase where
  /-- In no call. -/
  | idle
  /-- Past the height check. -/
  | checked (blk : Block) (escortQC : Option QuorumCert)
  /-- Past the execution, with the application hash filled in. -/
  | executed (blk : Block) (escortQC : Option QuorumCert)

/-- A node with the two threads. -/
structure Committers where
  shared : Pacemaker
  phase : Thread → Phase

/-- What can happen next. -/
inductive Move where
  /-- A thread calls `CommitBlock` and makes the height check. -/
  | check (t : Thread) (blk : Block) (escortQC : Option QuorumCert)
  /-- A thread has its block executed. -/
  | apply (t : Thread)
  /-- A thread calls `AddBlock` and finishes. -/
  | add (t : Thread)
  /-- Anything else, with the events that come of it. -/
  | other (p : Pacemaker) (events : List Event)

/-- The event is no execution of a block. -/
def Event.isNoFinalize : Event → Bool
  | .abci (.finalizeBlock _) => false
  | _ => true

namespace Committers

/-- A thread moves on, or the process ends. -/
def proceed {α : Type} (c : Committers) (t : Thread) (next : α → Phase) :
    EStateM.Result Panic Pacemaker α → Committers
  | .ok r p => ⟨p, Function.update c.phase t (next r)⟩
  | .error fault p => ⟨{ p with halted := some fault }, c.phase⟩

/-- The phase after the execution. -/
def afterExecution (escortQC : Option QuorumCert) : Except Err Block → Phase
  | .ok blk => .executed blk escortQC
  | .error _ => .idle

/-- **A move.** A thread that is elsewhere in its call, and a process that
has ended, do not move. -/
def step (E : Env) (c : Committers) (m : Move) : Committers :=
  if c.shared.halted.isSome then c
  else match m with
    | .check t blk escortQC =>
      match c.phase t with
      | .idle =>
        if c.shared.isKnown blk then c
        else { c with phase := Function.update c.phase t (.checked blk escortQC) }
      | _ => c
    | .apply t =>
      match c.phase t with
      | .checked blk escortQC =>
        c.proceed t (afterExecution escortQC) (executeBlock E blk c.shared)
      | _ => c
    | .add t =>
      match c.phase t with
      | .executed blk escortQC =>
        c.proceed t (fun _ => .idle) (addCommitted E blk escortQC c.shared)
      | _ => c
    | .other p events =>
      { c with shared :=
        { p with
          chain := { p.chain with kv := c.shared.chain.kv, bestBlock := c.shared.chain.bestBlock }
          trace := c.shared.trace ++ events.filter Event.isNoFinalize
          halted := none } }

/-- Both threads are in no call. -/
def start (p : Pacemaker) : Committers := ⟨p, fun _ => .idle⟩

/-- A run of the two threads. -/
abbrev Run (E : Env) (ok : Committers → Move → Prop) : Committers → Committers → Prop :=
  Machine.Run (step E) ok

end Committers

/-! ## One call after the other -/

/-- The execution of a block leaves the chain alone. -/
theorem executeBlock_frame (blk : Block) (s : Pacemaker) :
    Ensures (executeBlock E blk) s (fun _ s' => s'.halted = s.halted ∧ s'.chain = s.chain)
      (fun s' => s'.chain = s.chain) := by
  unfold executeBlock
  rw [ensures_bind]
  have happly : Ensures (applyBlock E blk blk.number.toNat) s
      (fun r s' => (s'.halted = s.halted ∧ s'.chain = s.chain)
        ∧ ∀ a n, r = .ok (a, n) → n = none) (fun s' => s'.chain = s.chain) := by
    unfold applyBlock afterFinalize
    simp only [ensures_bind, ensures_get]
    split
    · exact ⟨⟨rfl, rfl⟩, fun _ _ h => by cases h⟩
    simp only [ensures_bind, ensures_ofExcept, ensures_record]
    refine ⟨fun req _ => ?_, fun _ _ => trivial⟩
    split
    · exact ⟨⟨rfl, rfl⟩, fun _ _ h => by cases h⟩
    split
    · exact ⟨⟨rfl, rfl⟩, fun _ _ h => by cases h⟩
    simp only [ensures_bind, forgetTxs, ensures_modify, ensures_get, ensures_ofExcept]
    refine ⟨fun nxtVSet hcalc => ⟨⟨rfl, rfl⟩, fun a n h => ?_⟩, fun _ _ => trivial⟩
    rw [← (Prod.mk.inj (Except.ok.inj h)).2]
    exact calcNewValidatorSet_eq_none hcalc
  refine happly.imp (fun r s' h => ?_) (fun _ h => h)
  cases r with
  | error e => exact h.1
  | ok pair =>
    obtain ⟨appHash, nxtVSet⟩ := pair
    obtain rfl := h.2 appHash nxtVSet rfl
    exact h.1

/-- The state a call leaves behind, with the process ended by a fault. -/
def stateAfter {α : Type} : EStateM.Result Panic Pacemaker α → Pacemaker
  | .ok _ p => p
  | .error fault p => { p with halted := some fault }

/-- `CommitBlock` from its second move on. -/
def addExecuted (E : Env) (escortQC : Option QuorumCert) :
    EStateM.Result Panic Pacemaker (Except Err Block) →
      EStateM.Result Panic Pacemaker (Except Err Unit)
  | .ok (.ok blk) p => addCommitted E blk escortQC p
  | .ok (.error e) p => .ok (.error e) p
  | .error fault p => .error fault p

theorem commitBlock_apply (blk : Block) (escortQC : Option QuorumCert) (p : Pacemaker) :
    commitBlock E blk escortQC p = if p.isKnown blk then .ok (.error .knownBlock) p
      else addExecuted E escortQC (executeBlock E blk p) := by
  rw [commitBlock_eq]
  show EStateM.bind get _ p = _
  unfold EStateM.bind
  show (if p.isKnown blk then _ else _ : PM (Except Err Unit)) p = _
  split
  · rfl
  · show EStateM.bind (executeBlock E blk) _ p = _
    unfold EStateM.bind
    cases executeBlock E blk p with
    | error fault p' => rfl
    | ok r p' => cases r <;> rfl

namespace Committers

variable {c : Committers} {t : Thread} {blk : Block} {escortQC : Option QuorumCert}

/-- A thread in no call has nothing to execute and nothing to add. -/
theorem step_idle (h : c.phase t = .idle) :
    c.step E (.apply t) = c ∧ c.step E (.add t) = c := by
  unfold step
  refine ⟨?_, ?_⟩ <;> split
  · rfl
  · dsimp only
    rw [h]
  · rfl
  · dsimp only
    rw [h]

theorem step_halted (h : c.shared.halted.isSome = true) (m : Move) : c.step E m = c := by
  unfold step
  rw [if_pos h]

theorem step_check_known (hknown : c.shared.isKnown blk = true) :
    c.step E (.check t blk escortQC) = c := by
  unfold step
  split
  · rfl
  dsimp only
  split
  · rw [if_pos hknown]
  · rfl

theorem step_check (hp : c.shared.halted = none) (h : c.phase t = .idle)
    (hknown : c.shared.isKnown blk = false) : c.step E (.check t blk escortQC)
      = { c with phase := Function.update c.phase t (.checked blk escortQC) } := by
  unfold step
  rw [hp]
  dsimp only
  rw [h, hknown]
  rfl

theorem step_apply (hp : c.shared.halted = none) (h : c.phase t = .checked blk escortQC) :
    c.step E (.apply t)
      = c.proceed t (afterExecution escortQC) (executeBlock E blk c.shared) := by
  unfold step
  rw [hp]
  dsimp only
  rw [h]
  rfl

theorem step_add (hp : c.shared.halted = none) (h : c.phase t = .executed blk escortQC) :
    c.step E (.add t) = c.proceed t (fun _ => .idle) (addCommitted E blk escortQC c.shared) := by
  unfold step
  rw [hp]
  dsimp only
  rw [h]
  rfl

theorem shared_proceed {α : Type} (next : α → Phase) (r : EStateM.Result Panic Pacemaker α) :
    (c.proceed t next r).shared = stateAfter r := by
  cases r <;> rfl

/-- **The three moves of one thread are a call of `CommitBlock`.** -/
theorem play_commitBlock (p : Pacemaker) (hp : p.halted = none) (t : Thread) (blk : Block)
    (escortQC : Option QuorumCert) :
    (Machine.play (step E) (start p) [.check t blk escortQC, .apply t, .add t]).shared
      = stateAfter (commitBlock E blk escortQC p) := by
  show ((((start p).step E (.check t blk escortQC)).step E (.apply t)).step E (.add t)).shared = _
  rw [commitBlock_apply]
  cases hknown : p.isKnown blk with
  | true =>
    rw [step_check_known hknown, (step_idle rfl).1, (step_idle rfl).2]
    rfl
  | false =>
    rw [step_check hp rfl hknown, step_apply hp (Function.update_self _ _ _), if_neg (by simp)]
    have hframe := executeBlock_frame (E := E) blk p
    unfold Ensures at hframe
    show (step E (proceed _ t _ (executeBlock E blk p)) (.add t)).shared = _
    cases hexec : executeBlock E blk p with
    | error fault p' =>
      rw [step_halted (by rfl)]
      rfl
    | ok r p' =>
      rw [hexec] at hframe
      cases r with
      | error e =>
        rw [(step_idle (Function.update_self _ _ _)).2]
        rfl
      | ok blk' =>
        rw [step_add (hframe.1.trans hp) (Function.update_self _ _ _), shared_proceed]
        rfl

end Committers

/-! ## The best block -/

/-- A block is preferred to another: it is higher, or as high with a smaller
identifier. -/
def Block.PreferredTo (H : Hashes) (b b' : Block) : Prop :=
  b'.number < b.number ∨ b.number = b'.number ∧ (b.id H).toNat < (b'.id H).toNat

theorem Block.PreferredTo.trans {H : Hashes} {b b' b'' : Block} (h : b.PreferredTo H b')
    (h' : b'.PreferredTo H b'') : b.PreferredTo H b'' := by
  rcases h with hlt | ⟨heq, hid⟩ <;> rcases h' with hlt' | ⟨heq', hid'⟩
  · exact .inl (UInt32.lt_trans hlt' hlt)
  · exact .inl (heq' ▸ hlt)
  · exact .inl (heq ▸ hlt')
  · exact .inr ⟨heq.trans heq', hid.trans hid'⟩

theorem Chain.preferredTo_of_isTrunk {H : Hashes} {c : Chain} {blk : Block}
    (h : c.isTrunk H blk.header = true) : blk.PreferredTo H c.bestBlock := by
  unfold isTrunk at h
  split at h
  · cases h
  rename_i hge
  split at h
  · rename_i hlt
    exact .inl hlt
  · rename_i hle
    exact .inr ⟨UInt32.le_antisymm (UInt32.not_lt.mp hle) (UInt32.not_lt.mp hge),
      of_decide_eq_true h⟩

/-- **A chain that has only grown**: the best block is the same or a preferred
one, and no identifier has left the store. -/
structure Chain.Grown (H : Hashes) (c c' : Chain) : Prop where
  best : c'.bestBlock = c.bestBlock ∨ c'.bestBlock.PreferredTo H c.bestBlock
  stored : ∀ id, (c.kv.blocks id).isSome = true → (c'.kv.blocks id).isSome = true

namespace Chain.Grown

variable {H : Hashes} {c c' c'' : Chain}

theorem of_same (hbest : c'.bestBlock = c.bestBlock) (hkv : c'.kv = c.kv) : c.Grown H c' :=
  ⟨.inl hbest, fun _ h => hkv ▸ h⟩

theorem trans (h : c.Grown H c') (h' : c'.Grown H c'') : c.Grown H c'' := by
  refine ⟨?_, fun id hid => h'.stored id (h.stored id hid)⟩
  rcases h'.best with hsame | hbetter
  · exact hsame ▸ h.best
  · rcases h.best with hsame | hbetter'
    · exact .inr (hsame ▸ hbetter)
    · exact .inr (hbetter.trans hbetter')

end Chain.Grown

theorem Chain.grown_of_addBlock {H : Hashes} {c c' : Chain} {blk : Block}
    {escortQC : Option QuorumCert} {result : Except Err Fork}
    (h : c.addBlock H blk escortQC = .ok (result, c')) : c.Grown H c' := by
  have hstored : ∀ id, (c.kv.blocks id).isSome = true →
      ((saveBlock H c.kv blk).blocks id).isSome = true := by
    intro id hid
    show (Function.update c.kv.blocks (blk.id H) (some blk) id).isSome = true
    rw [Function.update_apply]
    split
    · rfl
    · exact hid
  cases addBlock_cases h with
  | refused e unreached => exact .of_same rfl rfl
  | extended fork qc reached trunk => exact ⟨.inr (preferredTo_of_isTrunk trunk), hstored⟩
  | unwritten e qc n reached trunk => exact ⟨.inr (preferredTo_of_isTrunk trunk), fun _ h => h⟩
  | branched fork reached => exact ⟨.inl rfl, hstored⟩
  | lost e n => exact .of_same rfl rfl

theorem addCommitted_grown (blk : Block) (escortQC : Option QuorumCert) (s : Pacemaker) :
    Ensures (addCommitted E blk escortQC) s (fun _ s' => s.chain.Grown E.H s'.chain)
      (fun s' => s'.chain = s.chain) := by
  refine (addCommitted_adds blk escortQC s).imp (fun _ s' h => ?_) (fun _ h => h.1 ▸ rfl)
  obtain ⟨result, hadd, -⟩ := h
  exact Chain.grown_of_addBlock hadd

/-- The chain of a thread that moves on, or of a process that ends. -/
theorem Committers.grown_proceed {α : Type} {c : Committers} (t : Thread) (next : α → Phase)
    {x : PM α} (hx : Ensures x c.shared (fun _ s' => c.shared.chain.Grown E.H s'.chain)
      (fun s' => s'.chain = c.shared.chain)) :
    c.shared.chain.Grown E.H (c.proceed t next (x c.shared)).shared.chain := by
  unfold Ensures at hx
  cases hres : x c.shared with
  | ok r s' =>
    rw [hres] at hx
    exact hx
  | error fault s' =>
    rw [hres] at hx
    exact .of_same (congrArg Chain.bestBlock hx) (congrArg Chain.kv hx)

/-- **A move of either thread lets the chain grow.** -/
theorem Committers.grown_step (c : Committers) (m : Move) :
    c.shared.chain.Grown E.H (c.step E m).shared.chain := by
  have hrefl : c.shared.chain.Grown E.H c.shared.chain := .of_same rfl rfl
  unfold Committers.step
  split
  · exact hrefl
  cases m with
  | check t blk escortQC =>
    dsimp only
    split
    · split
      · exact hrefl
      · exact hrefl
    · exact hrefl
  | apply t =>
    dsimp only
    split
    · refine grown_proceed t _ ((executeBlock_frame _ _).imp (fun r s' h => ?_) (fun _ h => h))
      exact .of_same (congrArg Chain.bestBlock h.2) (congrArg Chain.kv h.2)
    · exact hrefl
  | add t =>
    dsimp only
    split
    · exact grown_proceed t _ (addCommitted_grown _ _ _)
    · exact hrefl
  | other p events => exact .of_same rfl rfl

/-- **The best block only rises**, however the calls of the two threads
overlap and whatever the node does besides: between two states of a run it is
the same, or a higher block has taken its place, or one as high with a smaller
identifier; and no identifier leaves the store. -/
theorem best_block_rises {c c' : Committers} (hrun : Committers.Run E (fun _ _ => True) c c') :
    (c'.shared.chain.bestBlock = c.shared.chain.bestBlock
        ∨ c'.shared.chain.bestBlock.PreferredTo E.H c.shared.chain.bestBlock)
      ∧ ∀ id, (c.shared.chain.kv.blocks id).isSome = true →
        (c'.shared.chain.kv.blocks id).isSome = true := by
  have hgrown : c.shared.chain.Grown E.H c'.shared.chain := hrun.invariant
    (P := fun d => c.shared.chain.Grown E.H d.shared.chain) (.of_same rfl rfl)
    fun d m _ hd => hd.trans (d.grown_step m)
  exact ⟨hgrown.best, hgrown.stored⟩

namespace Testnet

/-- Both threads pass the height check with different first blocks, and the
main loop adds its own. -/
def siblings : List Move :=
  let b := block genesis 2 genesisQC []
  let b' := block genesis 1 genesisQC []
  [.check .mainLoop b (some (certificate b 1)), .check .blockSync b' (some (certificate b' 1)),
    .apply .mainLoop, .apply .blockSync, .add .mainLoop]

/-- The other thread adds its block too, and this one becomes the best: it is
no higher, but its identifier is smaller. -/
theorem sibling_takes_over :
    ∃ p₀, start 1 = .ok p₀
      ∧ let c := Machine.play (Committers.step env) (.start p₀) siblings
        let c' := c.step env (.add .blockSync)
        c'.shared.chain.bestBlock.number = c.shared.chain.bestBlock.number
          ∧ (c'.shared.chain.bestBlock.id hashes).toNat
            < (c.shared.chain.bestBlock.id hashes).toNat := by
  obtain ⟨p₀, hstart, htest⟩ := exists_of_start (k := 1)
    (fun p₀ =>
      let c := Machine.play (Committers.step env) (.start p₀) siblings
      let c' := c.step env (.add .blockSync)
      decide (c'.shared.chain.bestBlock ≠ c.shared.chain.bestBlock
        ∧ c'.shared.chain.bestBlock.number = c.shared.chain.bestBlock.number))
    (by decide +kernel)
  obtain ⟨hne, hnumber⟩ := of_decide_eq_true htest
  set c := Machine.play (Committers.step env) (.start p₀) siblings
  have hrun : Committers.Run env (fun _ _ => True) c (c.step env (.add .blockSync)) :=
    Machine.run_play [Move.add .blockSync] _
  rcases (best_block_rises hrun).1.resolve_left hne with hlt | ⟨-, hid⟩
  · exact absurd (hnumber ▸ hlt) (UInt32.lt_irrefl _)
  · exact ⟨p₀, hstart, hnumber, hid⟩

end Testnet

/-! ## Heights -/

/-- The heights the application was asked to execute, oldest first. -/
def executedHeights (trace : List Event) : List ℤ :=
  (finalizeRequests trace).map FinalizeBlockRequest.height

/-- `AddBlock` gets as far as replacing the best block: the block is not
there yet, its parent is, and the two chains meet. -/
def Chain.adopts (H : Hashes) (c : Chain) (blk : Block) : Bool :=
  !c.blockExists H blk && (c.getBlockHeader blk.parentID).isSome
    && match c.buildFork H blk.header c.bestBlock.header with
      | .ok (.ok _) => true
      | _ => false

/-- A higher block that `AddBlock` adopts becomes the best one. -/
theorem Chain.addBlock_adopts {H : Hashes} {c : Chain} {blk : Block}
    (escortQC : Option QuorumCert) (hadopts : c.adopts H blk = true)
    (hhigher : c.bestBlock.number < blk.number) :
    ∃ result c', c.addBlock H blk escortQC = .ok (result, c') ∧ c'.bestBlock = blk := by
  unfold adopts at hadopts
  rw [Bool.and_eq_true, Bool.and_eq_true] at hadopts
  obtain ⟨⟨hnew, hparent⟩, hfork⟩ := hadopts
  have htrunk : c.isTrunk H blk.header = true := isTrunk_of_lt H hhigher
  obtain ⟨parent, hparent⟩ := Option.isSome_iff_exists.mp hparent
  unfold addBlock
  rw [if_neg (by simpa using hnew), hparent]
  dsimp only
  rw [if_pos htrunk]
  split at hfork
  · rename_i fork hbuild
    rw [hbuild]
    cases escortQC with
    | none => exact ⟨_, _, rfl, rfl⟩
    | some qc =>
      dsimp only
      unfold writeBatch
      split <;> exact ⟨_, _, rfl, rfl⟩
  · exact nomatch hfork

theorem addCommitted_adopts (blk : Block) (escortQC : Option QuorumCert) (s : Pacemaker)
    (hadopts : s.chain.adopts E.H blk = true) (hhigher : s.chain.bestBlock.number < blk.number) :
    Ensures (addCommitted E blk escortQC) s
      (fun _ s' => s'.trace = s.trace ∧ s'.chain.bestBlock = blk) (fun _ => False) := by
  obtain ⟨result, c', hadd, hbest⟩ := Chain.addBlock_adopts escortQC hadopts hhigher
  refine (addCommitted_adds blk escortQC s).imp (fun _ s' h => ?_) (fun _ h => ?_)
  · obtain ⟨result', hadd', -, lastCommitted, cmdCh, hs'⟩ := h
    obtain ⟨-, rfl⟩ := Prod.mk.inj (Except.ok.inj (hadd.symm.trans hadd'))
    exact ⟨by rw [hs'], hbest⟩
  · obtain ⟨-, fault, hfault⟩ := h
    cases hadd.symm.trans hfault

/-! ## Calls that do not overlap -/

/-- **The calls do not overlap, and what is executed is added.** A height
check that passes finds the other thread in no call; a block is not executed,
or the application's answer can be used; and a block that was executed
becomes the best one. -/
def CommitsAlone (E : Env) (c : Committers) : Move → Prop
  | .check t blk _ => c.shared.isKnown blk = false → c.phase t.other = .idle
  | .apply t => ∀ blk escortQC, c.phase t = .checked blk escortQC →
      c.shared.requestFor E blk = none ∨ (c.shared.appHashFor E blk).isSome = true
  | .add t => ∀ blk escortQC, c.phase t = .executed blk escortQC →
      c.shared.chain.adopts E.H blk = true
  | .other _ _ => True

/-- What the heights executed so far have to do with a thread's phase: none
is above the best block, but that of a block on its way into the chain. -/
def Phase.Within (p : Pacemaker) : Phase → Prop
  | .idle => ∀ h ∈ executedHeights p.trace, h ≤ p.chain.bestBlock.number.toNat
  | .checked blk _ => p.chain.bestBlock.number < blk.number
      ∧ ∀ h ∈ executedHeights p.trace, h ≤ p.chain.bestBlock.number.toNat
  | .executed blk _ => p.chain.bestBlock.number < blk.number
      ∧ ∀ h ∈ executedHeights p.trace, h ≤ blk.number.toNat

/-- The invariant: the heights are different ones, and at most one thread is
in a call. -/
structure ExecutesOnce (c : Committers) : Prop where
  nodup : (executedHeights c.shared.trace).Nodup
  busy : ∃ t, c.phase t.other = .idle ∧ (c.phase t).Within c.shared

theorem Thread.eq_or_eq_other (t t' : Thread) : t' = t ∨ t' = t.other := by
  cases t <;> cases t' <;> simp [Thread.other]

namespace ExecutesOnce

variable {c : Committers} {t : Thread}

/-- A thread that is in a call is the only one. -/
theorem within_of_busy (h : ExecutesOnce c) (hbusy : c.phase t ≠ .idle) :
    c.phase t.other = .idle ∧ (c.phase t).Within c.shared := by
  obtain ⟨t₀, hother, hwithin⟩ := h.busy
  rcases t₀.eq_or_eq_other t with rfl | rfl
  · exact ⟨hother, hwithin⟩
  · exact absurd hother hbusy

/-- Between calls nothing above the best block was executed. -/
theorem within_of_idle (h : ExecutesOnce c) (hidle : c.phase t = .idle)
    (hother : c.phase t.other = .idle) : Phase.idle.Within c.shared := by
  obtain ⟨t₀, -, hwithin⟩ := h.busy
  rcases t.eq_or_eq_other t₀ with rfl | rfl
  · rwa [hidle] at hwithin
  · rwa [hother] at hwithin

/-- The thread that is in a call, or about to be, moves on. -/
theorem of_update {p : Pacemaker} {next : Phase} (hother : c.phase t.other = .idle)
    (hnodup : (executedHeights p.trace).Nodup) (hwithin : next.Within p) :
    ExecutesOnce ⟨p, Function.update c.phase t next⟩ := by
  have hne : t.other ≠ t := by cases t <;> decide
  refine ⟨hnodup, t, ?_, ?_⟩
  · show Function.update c.phase t next t.other = .idle
    rw [Function.update_of_ne hne, hother]
  · show (Function.update c.phase t next t).Within p
    rwa [Function.update_self]

/-- The invariant reads no more than this of the shared state. -/
theorem of_same {p : Pacemaker} (h : ExecutesOnce c)
    (hbest : p.chain.bestBlock = c.shared.chain.bestBlock)
    (hrequests : finalizeRequests p.trace = finalizeRequests c.shared.trace) :
    ExecutesOnce ⟨p, c.phase⟩ := by
  have hheights : executedHeights p.trace = executedHeights c.shared.trace := by
    unfold executedHeights
    rw [hrequests]
  obtain ⟨t, hother, hwithin⟩ := h.busy
  refine ⟨hheights ▸ h.nodup, t, hother, ?_⟩
  show (c.phase t).Within p
  cases hphase : c.phase t with
  | idle =>
    rw [hphase] at hwithin
    unfold Phase.Within at hwithin ⊢
    rwa [hheights, hbest]
  | checked blk qc =>
    rw [hphase] at hwithin
    unfold Phase.Within at hwithin ⊢
    rwa [hheights, hbest]
  | executed blk qc =>
    rw [hphase] at hwithin
    unfold Phase.Within at hwithin ⊢
    rwa [hheights, hbest]

/-- A height check that passes, with the other thread in no call. -/
theorem check (h : ExecutesOnce c) {blk : Block} {escortQC : Option QuorumCert}
    (hidle : c.phase t = .idle) (hother : c.phase t.other = .idle)
    (hknown : c.shared.isKnown blk = false) :
    ExecutesOnce { c with phase := Function.update c.phase t (.checked blk escortQC) } := by
  have hhigher : c.shared.chain.bestBlock.number < blk.number := by
    have : ¬ blk.number ≤ c.shared.chain.bestBlock.number := by
      simpa [Pacemaker.isKnown] using hknown
    exact UInt32.not_le.mp this
  exact of_update hother h.nodup ⟨hhigher, h.within_of_idle hidle hother⟩

/-- The execution of a block: its height is a new one. -/
theorem apply (h : ExecutesOnce c) {blk : Block} {escortQC : Option QuorumCert}
    (hphase : c.phase t = .checked blk escortQC)
    (hanswer : c.shared.requestFor E blk = none ∨ (c.shared.appHashFor E blk).isSome = true) :
    ExecutesOnce (c.proceed t (Committers.afterExecution escortQC)
      (executeBlock E blk c.shared)) := by
  have hbusy : c.phase t ≠ .idle := by
    rw [hphase]
    exact fun h => by cases h
  obtain ⟨hother, hwithin⟩ := h.within_of_busy hbusy
  rw [hphase] at hwithin
  obtain ⟨hhigher, hbelow⟩ := hwithin
  have hknown : c.shared.isKnown blk = false := by
    simpa [Pacemaker.isKnown] using hhigher
  have hout := executeBlock_outcome (E := E) blk c.shared hknown
  unfold Ensures at hout
  cases hexec : executeBlock E blk c.shared with
  | error fault p =>
    rw [hexec] at hout
    obtain ⟨⟨hrequests, hchain⟩, hhash⟩ := hout
    -- a fault comes before the application is called
    have hreq : c.shared.requestFor E blk = none := by
      rcases hanswer with hnone | hsome
      · exact hnone
      · rw [hhash] at hsome
        cases hsome
    rw [hreq, Option.toList_none, List.append_nil] at hrequests
    exact h.of_same (p := { p with halted := some fault }) (congrArg Chain.bestBlock hchain)
      hrequests
  | ok r p =>
    rw [hexec] at hout
    obtain ⟨⟨hrequests, hchain⟩, hresult⟩ := hout
    have hbest : p.chain.bestBlock = c.shared.chain.bestBlock := congrArg Chain.bestBlock hchain
    have hheights : executedHeights p.trace = executedHeights c.shared.trace
        ++ (c.shared.requestFor E blk).toList.map FinalizeBlockRequest.height := by
      unfold executedHeights
      rw [hrequests, List.map_append]
    cases hreq : c.shared.requestFor E blk with
    | none =>
      -- nothing was executed, and the call is over
      have hhash : c.shared.appHashFor E blk = none := by rw [Pacemaker.appHashFor, hreq]
      have hr : ∃ e, r = .error e := by
        cases r with
        | error e => exact ⟨e, rfl⟩
        | ok blk' =>
          obtain ⟨appHash, hsome, -⟩ := (hresult blk').mp rfl
          cases hhash.symm.trans hsome
      obtain ⟨e, rfl⟩ := hr
      rw [hreq, Option.toList_none, List.map_nil, List.append_nil] at hheights
      refine of_update hother (hheights ▸ h.nodup) ?_
      unfold Committers.afterExecution Phase.Within
      rwa [hheights, hbest]
    | some req =>
      -- the height is above all those executed before
      have hsome : (c.shared.appHashFor E blk).isSome = true := by
        rcases hanswer with hnone | hsome
        · cases hreq.symm.trans hnone
        · exact hsome
      obtain ⟨appHash, hhash⟩ := Option.isSome_iff_exists.mp hsome
      obtain rfl : r = .ok (blk.withAppHash appHash) := (hresult _).mpr ⟨appHash, hhash, rfl⟩
      rw [hreq, Option.toList_some, List.map_singleton, height_of_requestFor hreq] at hheights
      have hlt : c.shared.chain.bestBlock.number.toNat < blk.number.toNat :=
        UInt32.lt_iff_toNat_lt.mp hhigher
      refine of_update hother ?_ ⟨?_, ?_⟩
      · rw [hheights]
        refine List.nodup_append.mpr ⟨h.nodup, by simp, ?_⟩
        intro a ha b hb
        have := hbelow a ha
        rw [List.mem_singleton.mp hb]
        omega
      · rw [hbest]
        exact hhigher
      · rw [hheights]
        intro a ha
        show a ≤ blk.number.toNat
        rcases List.mem_append.mp ha with hold | hnew
        · have := hbelow a hold
          omega
        · rw [List.mem_singleton.mp hnew]

/-- `AddBlock` catches up with what was executed. -/
theorem add (h : ExecutesOnce c) {blk : Block} {escortQC : Option QuorumCert}
    (hphase : c.phase t = .executed blk escortQC)
    (hadopts : c.shared.chain.adopts E.H blk = true) :
    ExecutesOnce (c.proceed t (fun _ => .idle) (addCommitted E blk escortQC c.shared)) := by
  obtain ⟨hother, hwithin⟩ := h.within_of_busy (t := t) (by rw [hphase]; exact nofun)
  rw [hphase] at hwithin
  obtain ⟨hhigher, hbelow⟩ := hwithin
  have hout := addCommitted_adopts (E := E) blk escortQC c.shared hadopts hhigher
  unfold Ensures at hout
  cases hadd : addCommitted E blk escortQC c.shared with
  | error fault p =>
    rw [hadd] at hout
    exact hout.elim
  | ok r p =>
    rw [hadd] at hout
    obtain ⟨htrace, hbest⟩ := hout
    refine of_update hother (htrace ▸ h.nodup) ?_
    unfold Phase.Within
    rwa [htrace, hbest]

/-- **A move keeps the invariant** if it meets the condition. -/
theorem step (h : ExecutesOnce c) (m : Move) (hok : CommitsAlone E c m) :
    ExecutesOnce (c.step E m) := by
  unfold Committers.step
  split
  · exact h
  cases m with
  | check t blk escortQC =>
    dsimp only
    split
    · rename_i hidle
      split
      · exact h
      · rename_i hknown
        have hnew : c.shared.isKnown blk = false := by simpa using hknown
        exact h.check hidle (hok hnew) hnew
    · exact h
  | apply t =>
    dsimp only
    split
    · rename_i blk escortQC hphase
      exact h.apply hphase (hok blk escortQC hphase)
    · exact h
  | add t =>
    dsimp only
    split
    · rename_i blk escortQC hphase
      exact h.add hphase (hok blk escortQC hphase)
    · exact h
  | other p events =>
    refine h.of_same rfl ?_
    show finalizeRequests (c.shared.trace ++ events.filter Event.isNoFinalize) = _
    have hnone : finalizeRequests (events.filter Event.isNoFinalize) = [] := by
      refine List.filterMap_eq_nil_iff.mpr fun e he => ?_
      have hquiet := List.of_mem_filter he
      cases e with
      | abci call =>
        cases call with
        | finalizeBlock req => exact nomatch hquiet
        | _ => rfl
      | _ => rfl
    rw [finalizeRequests_append, hnone, List.append_nil]

end ExecutesOnce

/-- **Each height is executed once** in every run of the two threads whose
moves all meet the condition. -/
theorem heights_nodup_of_commitsAlone {chain : Chain} {app : App} {myPubKey : Bytes} {now : Time}
    {p₀ : Pacemaker} {c : Committers}
    (hstart : startPacemaker E chain app myPubKey now = .ok p₀)
    (hrun : Committers.Run E (CommitsAlone E) (.start p₀) c) :
    (executedHeights c.shared.trace).Nodup := by
  have h₀ : ExecutesOnce (.start p₀) := by
    obtain ⟨bestNode, es, -, -, round, hcore⟩ := startPacemaker_core hstart
    have htrace : p₀.trace = [] := congrArg Core.trace hcore
    refine ⟨?_, .mainLoop, rfl, ?_⟩
    · show (executedHeights p₀.trace).Nodup
      rw [htrace]
      exact List.nodup_nil
    · show ∀ h ∈ executedHeights p₀.trace, h ≤ p₀.chain.bestBlock.number.toNat
      rw [htrace]
      exact fun _ hh => absurd hh List.not_mem_nil
  exact (Machine.Run.invariant hrun h₀ fun _ m hok hc => hc.step m hok).nodup

/-! ## Runs -/

/-- A test for `CommitsAlone`. -/
def aloneTest (E : Env) (c : Committers) : Move → Bool
  | .check t _ _ => match c.phase t.other with
    | .idle => true
    | _ => false
  | .apply t => match c.phase t with
    | .checked blk _ => (c.shared.appHashFor E blk).isSome
    | _ => true
  | .add t => match c.phase t with
    | .executed blk _ => c.shared.chain.adopts E.H blk
    | _ => true
  | .other _ _ => true

theorem CommitsAlone.of_test {c : Committers} {m : Move} (h : aloneTest E c m = true) :
    CommitsAlone E c m := by
  cases m with
  | check t blk escortQC =>
    intro _
    dsimp only [aloneTest] at h
    split at h
    · assumption
    · exact nomatch h
  | apply t =>
    intro blk escortQC hphase
    dsimp only [aloneTest] at h
    rw [hphase] at h
    exact .inr h
  | add t =>
    intro blk escortQC hphase
    dsimp only [aloneTest] at h
    rw [hphase] at h
    exact h
  | other p events => trivial

namespace Testnet

/-- The main loop commits the first block, and then the other thread the
second. -/
def inTurns : List Move :=
  let b := block genesis 1 genesisQC []
  let b' := block b 2 (certificate b 1) []
  [.check .mainLoop b (some (certificate b 1)), .apply .mainLoop, .add .mainLoop,
    .check .blockSync b' (some (certificate b' 2)), .apply .blockSync, .add .blockSync]

/-- Two blocks, one after the other: two heights. -/
theorem heights_nodup_of_inTurns :
    ∃ p₀, start 1 = .ok p₀
      ∧ let c := Machine.play (Committers.step env) (.start p₀) inTurns
        executedHeights c.shared.trace = [1, 2]
          ∧ Committers.Run env (CommitsAlone env) (.start p₀) c
          ∧ (executedHeights c.shared.trace).Nodup := by
  obtain ⟨p₀, hstart, htest⟩ := exists_of_start (k := 1)
    (fun p₀ => Machine.passes (Committers.step env) (aloneTest env) (.start p₀) inTurns
      && decide (executedHeights
        (Machine.play (Committers.step env) (.start p₀) inTurns).shared.trace = [1, 2]))
    (by decide +kernel)
  obtain ⟨hpasses, hheights⟩ := Bool.and_eq_true_iff.mp htest
  have hplays : Machine.Plays (Committers.step env) (CommitsAlone env) (.start p₀) inTurns :=
    .of_test (aloneTest env) (fun _ _ => CommitsAlone.of_test) _ hpasses
  have hrun := Machine.Run.of_plays _ hplays
  exact ⟨p₀, hstart, of_decide_eq_true hheights, hrun, heights_nodup_of_commitsAlone hstart hrun⟩

/-- Both threads pass the height check for the first block before either adds
it. -/
def atOnce : List Move :=
  let b := block genesis 1 genesisQC []
  [.check .mainLoop b (some (certificate b 1)), .check .blockSync b (some (certificate b 1)),
    .apply .mainLoop, .apply .blockSync]

/-- **One height, executed twice.** The node holds the first block as a
processed draft, and `processBlock` has nothing against it either. -/
theorem height_one_executed_twice :
    ∃ p₀, start 1 = .ok p₀
      ∧ let b := block genesis 1 genesisQC []
        let p := p₀.play env (deliver b 1 ++ deliver (block b 2 (certificate b 1) []) 2)
        let c := Machine.play (Committers.step env) (.start p) atOnce
        (p.chain.getDraft (b.id hashes)).any (fun d => d.successProcessed) = true
          ∧ p.chain.bestBlock.id hashes = b.parentID
          ∧ p.validateSyncedBlock env b (Time.unix p.clock) = none
          ∧ Committers.Run env (fun _ _ => True) (.start p) c
          ∧ ¬ (executedHeights c.shared.trace).Nodup := by
  obtain ⟨p₀, hstart, htest⟩ := exists_of_start (k := 1)
    (fun p₀ =>
      let b := block genesis 1 genesisQC []
      let p := p₀.play env (deliver b 1 ++ deliver (block b 2 (certificate b 1) []) 2)
      let c := Machine.play (Committers.step env) (.start p) atOnce
      (p.chain.getDraft (b.id hashes)).any (fun d => d.successProcessed)
        && decide (p.chain.bestBlock.id hashes = b.parentID
          ∧ p.validateSyncedBlock env b (Time.unix p.clock) = none
          ∧ ¬ (executedHeights c.shared.trace).Nodup))
    (by decide +kernel)
  obtain ⟨hdraft, hrest⟩ := Bool.and_eq_true_iff.mp htest
  obtain ⟨hparent, hvalid, hdup⟩ := of_decide_eq_true hrest
  exact ⟨p₀, hstart, hdraft, hparent, hvalid,
    Machine.run_play _ _, hdup⟩

end Testnet

end LoragonBFT
