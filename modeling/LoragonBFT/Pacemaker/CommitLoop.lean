import LoragonBFT.Pacemaker.CommitOutcome
import LoragonBFT.Testnet

/-!
# Committing a list of blocks

`OnCommit` takes the blocks of a list in turn. Each of them needs its parent
executed before it, so the list should be left at the first block that fails.
The loop goes on instead: an unprocessed block is skipped with a question in
a comment, an error of `CommitBlock` is logged, and the next block is handed
to the application even though its parent was not. The block returned is the
last one that was committed – or the first of the list, which is what the
result is set to before the loop starts.

To speak about what happens between two turns, `onCommitUpTo` is `OnCommit`
with the loop cut off after a number of turns. A turn may fault, and then the
later ones do not happen.
-/

namespace LoragonBFT

open EStateM

variable {E : Env} {p : Pacemaker} {l : List CommitReadyBlock}

/-! ## One turn -/

/-- The draft a turn hands to `CommitBlock`, if it does. -/
def CommitReadyBlock.candidate (b : CommitReadyBlock) : Option DraftBlock :=
  b.block.filter (fun d => d.successProcessed && decide (d.processError ≠ some .knownBlock))

/-- The request a turn makes of the application, if it makes one. -/
def Pacemaker.turnRequest (E : Env) (p : Pacemaker) (b : CommitReadyBlock) :
    Option FinalizeBlockRequest :=
  b.candidate.bind (fun d => p.requestFor E d.proposedBlock)

/-- The fork a turn is told of, if it puts its block into the store. -/
def Pacemaker.turnFork (E : Env) (p : Pacemaker) (b : CommitReadyBlock) : Option Fork :=
  b.candidate.bind (fun d => p.forkFor E d.proposedBlock b.escortQC)

/-- The entry is for the block with this identifier. -/
def CommitReadyBlock.isFor (E : Env) (b : CommitReadyBlock) (id : Bytes32) : Bool :=
  b.block.any (fun d => decide (id = d.proposedBlock.id E.H))

/-- The block of an entry is in the store. -/
def Pacemaker.hasStored (E : Env) (p : Pacemaker) (b : CommitReadyBlock) : Bool :=
  b.block.any (fun d => (p.chain.getBlock (d.proposedBlock.id E.H)).isSome)

variable {b first : CommitReadyBlock} {d : DraftBlock} {s : Pacemaker} {i j : ℕ} {last : Block}

theorem CommitReadyBlock.isFor_eq (h : b.block = some d) (id : Bytes32) :
    b.isFor E id = decide (id = d.proposedBlock.id E.H) := by
  rw [CommitReadyBlock.isFor, h, Option.any_some]

theorem Pacemaker.hasStored_eq (h : b.block = some d) (p : Pacemaker) :
    p.hasStored E b = (p.chain.getBlock (d.proposedBlock.id E.H)).isSome := by
  rw [Pacemaker.hasStored, h, Option.any_some]

/-- What a turn does, in terms of the state it starts in. -/
structure TurnOutcome (E : Env) (s : Pacemaker) (b : CommitReadyBlock) (lastCommitted r : Block)
    (s' : Pacemaker) : Prop where
  requests : finalizeRequests s'.trace = finalizeRequests s.trace ++ (s.turnRequest E b).toList
  stored : ∀ id, (s'.chain.getBlock id).isSome
    = ((s.chain.getBlock id).isSome || (b.isFor E id && (s.turnFork E b).isSome))
  result : (∃ d fork, b.block = some d ∧ s.turnFork E b = some fork ∧ fork.branch = []
      ∧ r = d.proposedBlock)
    ∨ (∀ fork, s.turnFork E b = some fork → fork.branch ≠ []) ∧ r = lastCommitted

/-- A turn that hands nothing to `CommitBlock`. -/
theorem TurnOutcome.skip {lastCommitted : Block} (h : b.candidate = none) :
    TurnOutcome E s b lastCommitted lastCommitted s := by
  have hreq : s.turnRequest E b = none := by rw [Pacemaker.turnRequest, h]; rfl
  have hfork : s.turnFork E b = none := by rw [Pacemaker.turnFork, h]; rfl
  exact ⟨by simp [hreq], by simp [hfork], .inr ⟨by simp [hfork], rfl⟩⟩

/-- **A turn of the loop.** -/
theorem onCommitOne_outcome (b : CommitReadyBlock) (lastCommitted : Block) (s : Pacemaker) :
    Ensures (onCommitOne E b lastCommitted) s (TurnOutcome E s b lastCommitted)
      (fun s' => finalizeRequests s'.trace
        = finalizeRequests s.trace ++ (s.turnRequest E b).toList) := by
  unfold onCommitOne
  cases hblock : b.block with
  | none =>
    rw [ensures_pure]
    exact .skip (by rw [CommitReadyBlock.candidate, hblock]; rfl)
  | some d =>
    dsimp only
    by_cases hprocessed : (!d.successProcessed) = true
    · rw [if_pos hprocessed, ensures_pure]
      refine .skip ?_
      have : d.successProcessed = false := by simpa using hprocessed
      simp [CommitReadyBlock.candidate, hblock, this]
    rw [if_neg hprocessed]
    by_cases hknown : d.processError = some .knownBlock
    · rw [if_pos hknown, ensures_pure]
      exact .skip (by simp [CommitReadyBlock.candidate, hblock, hknown])
    rw [if_neg hknown]
    have hcandidate : b.candidate = some d := by
      have : d.successProcessed = true := by simpa using hprocessed
      simp [CommitReadyBlock.candidate, hblock, this, hknown]
    have hreq : s.turnRequest E b = s.requestFor E d.proposedBlock := by
      rw [Pacemaker.turnRequest, hcandidate]; rfl
    have hfork : s.turnFork E b = s.forkFor E d.proposedBlock b.escortQC := by
      rw [Pacemaker.turnFork, hcandidate]; rfl
    rw [ensures_bind, hreq]
    refine (commitBlock_outcome d.proposedBlock b.escortQC s).imp (fun r t h => ?_) (fun _ h => h)
    rw [ensures_bind, ensures_modify]
    -- pruning the drafts touches neither the store nor the trace
    have hstored : ∀ id, ((t.chain.pruneDraftsUpTo E.H d).getBlock id).isSome
        = ((s.chain.getBlock id).isSome || (b.isFor E id && (s.turnFork E b).isSome)) :=
          fun id => by
      rw [CommitReadyBlock.isFor_eq hblock, hfork]
      exact h.stored id
    cases r with
    | error e =>
      refine ⟨hreq ▸ h.requests, hstored, .inr ⟨fun fork hsome hnil => ?_, rfl⟩⟩
      exact nomatch h.ok_iff.mpr ⟨fork, hfork ▸ hsome, hnil⟩
    | ok u =>
      obtain ⟨fork, hsome, hnil⟩ := h.ok_iff.mp rfl
      exact ⟨hreq ▸ h.requests, hstored,
        .inl ⟨d, fork, hblock, hfork.trans hsome, hnil, rfl⟩⟩

/-! ## Turn after turn -/

/-- `OnCommit` with the loop cut off after `i` turns. -/
def onCommitUpTo (E : Env) (commitReady : List CommitReadyBlock) (i : ℕ) : PM (Option Block) := do
  record (.onCommit (← get).lastCommitted commitReady)
  match commitReady with
  | [] => return none
  | first :: _ =>
    let blk ← PM.ofExcept (deref first.block)
    return some (← onCommitLoop E (commitReady.take i) blk.proposedBlock)

theorem onCommitUpTo_cons (first : CommitReadyBlock) (rest : List CommitReadyBlock) (i : ℕ) :
    onCommitUpTo E (first :: rest) i = (do
      record (.onCommit (← get).lastCommitted (first :: rest))
      let blk ← PM.ofExcept (deref first.block)
      return some (← onCommitLoop E ((first :: rest).take i) blk.proposedBlock)) := rfl

/-- With all its turns, it is `OnCommit`. -/
theorem onCommitUpTo_length (E : Env) (l : List CommitReadyBlock) :
    onCommitUpTo E l l.length = onCommit E l := by
  cases l with
  | nil => rfl
  | cons first rest =>
    rw [onCommitUpTo_cons, List.take_length]
    rfl

theorem onCommitLoop_append_singleton (l : List CommitReadyBlock) (b : CommitReadyBlock)
    (lastCommitted : Block) :
    onCommitLoop E (l ++ [b]) lastCommitted
      = onCommitLoop E l lastCommitted >>= onCommitOne E b := by
  induction l generalizing lastCommitted with
  | nil => simp [onCommitLoop]
  | cons a l ih => simp [onCommitLoop, ih]

/-- The next turn, after those that were made. -/
def nextTurn (E : Env) (b : CommitReadyBlock) : Option Block → PM (Option Block)
  | none => return none
  | some lastCommitted => do return some (← onCommitOne E b lastCommitted)

theorem onCommitUpTo_succ (h : l[i]? = some b) :
    onCommitUpTo E l (i + 1) = onCommitUpTo E l i >>= nextTurn E b := by
  cases l with
  | nil => exact nomatch h
  | cons first rest =>
    unfold onCommitUpTo
    rw [List.take_add_one, h, Option.toList_some]
    simp [onCommitLoop_append_singleton, nextTurn]

/-- A turn is reached, with this block to return so far. -/
def Reaches (E : Env) (p : Pacemaker) (l : List CommitReadyBlock) (i : ℕ) (lastCommitted : Block)
    (s : Pacemaker) : Prop :=
  onCommitUpTo E l i p = .ok (some lastCommitted) s

/-- The state after the first `i` turns, or after the fault of one of
them. -/
def Pacemaker.afterTurns (E : Env) (p : Pacemaker) (l : List CommitReadyBlock) (i : ℕ) :
    Pacemaker :=
  (onCommitUpTo E l i).exec p

theorem Reaches.afterTurns_eq (h : Reaches E p l i last s) :
    p.afterTurns E l i = s := by
  unfold Pacemaker.afterTurns EStateM.exec
  rw [h]

/-- What a reached turn does. -/
theorem Reaches.turn (h : Reaches E p l i last s) (hb : l[i]? = some b) :
    (∃ r, Reaches E p l (i + 1) r (p.afterTurns E l (i + 1))
      ∧ TurnOutcome E s b last r (p.afterTurns E l (i + 1)))
    ∨ (∃ fault, onCommitUpTo E l (i + 1) p = .error fault (p.afterTurns E l (i + 1)))
      ∧ finalizeRequests (p.afterTurns E l (i + 1)).trace
        = finalizeRequests s.trace ++ (s.turnRequest E b).toList := by
  have hturn := onCommitOne_outcome (E := E) b last s
  have hnext : onCommitUpTo E l (i + 1) p = nextTurn E b (some last) s := by
    rw [onCommitUpTo_succ hb]
    show EStateM.bind (onCommitUpTo E l i) (nextTurn E b) p = _
    unfold EStateM.bind
    rw [h]
  have hnext' : nextTurn E b (some last) s = match onCommitOne E b last s with
      | .ok r s' => .ok (some r) s'
      | .error fault s' => .error fault s' := by
    show EStateM.bind (onCommitOne E b last) (fun r => pure (some r)) s = _
    unfold EStateM.bind
    cases onCommitOne E b last s <;> rfl
  unfold Ensures at hturn
  unfold Reaches Pacemaker.afterTurns EStateM.exec
  rw [hnext, hnext']
  cases hone : onCommitOne E b last s with
  | ok r s' =>
    rw [hone] at hturn
    exact .inl ⟨r, rfl, hturn⟩
  | error fault s' =>
    rw [hone] at hturn
    exact .inr ⟨⟨fault, rfl⟩, hturn⟩

/-- A list with an entry is reached by its turns or stopped by a fault. -/
theorem reaches_or_fault (p : Pacemaker) {k : ℕ} (hb : l[k]? = some b) (i : ℕ) :
    (∃ last s, Reaches E p l i last s) ∨ ∃ fault s, onCommitUpTo E l i p = .error fault s := by
  cases h : onCommitUpTo E l i p with
  | error fault s => exact .inr ⟨fault, s, rfl⟩
  | ok r s =>
    cases r with
    | some last => exact .inl ⟨last, s, h⟩
    | none =>
      exfalso
      cases l with
      | nil => cases hb
      | cons first rest =>
        have hsome : Ensures (onCommitUpTo E (first :: rest) i) p (fun r _ => r.isSome = true)
            (fun _ => True) := by
          unfold onCommitUpTo
          simp only [ensures_bind, ensures_get, ensures_record, ensures_ofExcept]
          refine ⟨fun d _ => ?_, fun _ _ => trivial⟩
          unfold Ensures
          cases onCommitLoop E _ _ _ <;> trivial
        unfold Ensures at hsome
        rw [h] at hsome
        cases hsome

/-- Once a turn has faulted, no later one happens. -/
theorem fault_stays (hij : i ≤ j) {fault : Panic} (h : onCommitUpTo E l i p = .error fault s) :
    onCommitUpTo E l j p = .error fault s := by
  induction hij with
  | refl => exact h
  | @step j _ ih =>
    cases hb : l[j]? with
    | some b =>
      rw [onCommitUpTo_succ hb]
      show EStateM.bind (onCommitUpTo E l j) (nextTurn E b) p = _
      unfold EStateM.bind
      rw [ih]
    | none =>
      have htake : l.take (j + 1) = l.take j := by
        rw [List.take_add_one, hb, Option.toList_none, List.append_nil]
      rw [← ih]
      unfold onCommitUpTo
      rw [htake]

/-- A turn that is reached has reached all turns before it. -/
theorem Reaches.before (h : Reaches E p l j last s) (hij : i ≤ j) (hb : l[i]? = some b) :
    ∃ last' s', Reaches E p l i last' s' := by
  rcases reaches_or_fault (E := E) p hb i with hreach | ⟨fault, t, hfault⟩
  · exact hreach
  · have := fault_stays hij hfault
    rw [h] at this
    exact nomatch this

/-! ## Running past a failure -/

/-- The application is called in turn `j`. -/
def AppliedInTurn (E : Env) (p : Pacemaker) (l : List CommitReadyBlock) (j : ℕ) : Prop :=
  (finalizeRequests (p.afterTurns E l j).trace).length
    < (finalizeRequests (p.afterTurns E l (j + 1)).trace).length

instance (j : ℕ) : Decidable (AppliedInTurn E p l j) := Nat.decLt _ _

/-- **`OnCommit` never runs past a failure.** When a block is executed,
every block before it in the list was in the store at the end of its own
turn; and the block returned is in the store. -/
structure StopsAtFailure (E : Env) (p : Pacemaker) (l : List CommitReadyBlock) : Prop where
  applied : ∀ i j b, i < j → l[i]? = some b → AppliedInTurn E p l j →
    (p.afterTurns E l (i + 1)).hasStored E b = true
  returned : ∀ r s, onCommit E l p = .ok (some r) s → (s.chain.getBlock (r.id E.H)).isSome = true

/-- A block fails in its turn if it was not in the store before and is not
put there. After such a turn no turn makes a request; and the first block
was in the store before, or a turn puts a block there that `CommitBlock`
reports as committed or that is the first block. -/
structure FailuresComeLast (E : Env) (p : Pacemaker) (l : List CommitReadyBlock) : Prop where
  quiet : ∀ i j b b' last last' s s', i < j → l[i]? = some b → l[j]? = some b' →
    Reaches E p l i last s → Reaches E p l j last' s' →
    s.hasStored E b = false → s.turnFork E b = none → s'.turnRequest E b' = none
  first : ∀ first last s, l.head? = some first → Reaches E p l l.length last s →
    p.hasStored E first = true ∨ ∃ i b last s fork, l[i]? = some b ∧ Reaches E p l i last s
      ∧ s.turnFork E b = some fork
      ∧ (fork.branch = [] ∨ ∃ d, first.block = some d ∧ b.isFor E (d.proposedBlock.id E.H) = true)

/-! ### Being applied -/

theorem TurnOutcome.hasStored {s' : Pacemaker} {r : Block} (h : TurnOutcome E s b last r s') :
    s'.hasStored E b = (s.hasStored E b || (s.turnFork E b).isSome) := by
  cases hblock : b.block with
  | none =>
    have hfork : s.turnFork E b = none := by
      rw [Pacemaker.turnFork, CommitReadyBlock.candidate, hblock]; rfl
    rw [Pacemaker.hasStored, Pacemaker.hasStored, hblock, hfork, Option.any_none, Option.any_none]
    rfl
  | some d =>
    rw [Pacemaker.hasStored_eq hblock, Pacemaker.hasStored_eq hblock, h.stored,
      CommitReadyBlock.isFor_eq hblock, decide_eq_true rfl, Bool.true_and]

/-- **A reached turn applies its block exactly when it makes a request.** -/
theorem Reaches.appliedInTurn_iff (h : Reaches E p l j last s) (hb : l[j]? = some b) :
    AppliedInTurn E p l j ↔ (s.turnRequest E b).isSome = true := by
  have hrequests : finalizeRequests (p.afterTurns E l (j + 1)).trace
      = finalizeRequests s.trace ++ (s.turnRequest E b).toList := by
    rcases h.turn hb with ⟨r, -, hturn⟩ | ⟨-, hfault⟩
    · exact hturn.requests
    · exact hfault
  unfold AppliedInTurn
  rw [h.afterTurns_eq, hrequests, List.length_append]
  cases s.turnRequest E b <;> simp

/-- A turn that applies its block was reached. -/
theorem AppliedInTurn.reached (h : AppliedInTurn E p l j) :
    ∃ b last s, l[j]? = some b ∧ Reaches E p l j last s := by
  unfold AppliedInTurn at h
  cases hb : l[j]? with
  | none =>
    have htake : l.take (j + 1) = l.take j := by
      rw [List.take_add_one, hb, Option.toList_none, List.append_nil]
    have hsame : p.afterTurns E l (j + 1) = p.afterTurns E l j := by
      unfold Pacemaker.afterTurns onCommitUpTo
      rw [htake]
    rw [hsame] at h
    exact absurd h (lt_irrefl _)
  | some b =>
    rcases reaches_or_fault (E := E) p hb j with ⟨last, s, hreach⟩ | ⟨fault, s, hfault⟩
    · exact ⟨b, last, s, rfl, hreach⟩
    · have hnext := fault_stays (Nat.le_succ j) hfault
      unfold Pacemaker.afterTurns EStateM.exec at h
      rw [hfault, hnext] at h
      exact absurd h (lt_irrefl _)

/-- A reached turn with a later one reached did not fault. -/
theorem Reaches.turn_of_later {last' : Block} {s' : Pacemaker} (h : Reaches E p l i last s)
    (hlater : Reaches E p l j last' s') (hij : i < j) (hb : l[i]? = some b) :
    ∃ r, Reaches E p l (i + 1) r (p.afterTurns E l (i + 1))
      ∧ TurnOutcome E s b last r (p.afterTurns E l (i + 1)) := by
  rcases h.turn hb with hok | ⟨⟨fault, hfault⟩, -⟩
  · exact hok
  · have := fault_stays hij hfault
    rw [hlater] at this
    exact nomatch this

/-! ### The block returned -/

/-- Within the first `i` turns, the block to be returned got into the
store. -/
def Secured (E : Env) (p : Pacemaker) (l : List CommitReadyBlock) (first : CommitReadyBlock)
    (i : ℕ) : Prop :=
  p.hasStored E first = true ∨ ∃ k < i, ∃ b last s fork, l[k]? = some b ∧ Reaches E p l k last s
    ∧ s.turnFork E b = some fork
    ∧ (fork.branch = [] ∨ ∃ d, first.block = some d ∧ b.isFor E (d.proposedBlock.id E.H) = true)

theorem secured_length : Secured E p l first l.length
    ↔ p.hasStored E first = true ∨ ∃ i b last s fork, l[i]? = some b ∧ Reaches E p l i last s
      ∧ s.turnFork E b = some fork
      ∧ (fork.branch = []
        ∨ ∃ d, first.block = some d ∧ b.isFor E (d.proposedBlock.id E.H) = true) := by
  refine or_congr_right ⟨?_, ?_⟩
  · rintro ⟨k, -, h⟩
    exact ⟨k, h⟩
  · rintro ⟨k, b, last, s, fork, hb, h⟩
    exact ⟨k, (List.getElem?_eq_some_iff.mp hb).1, b, last, s, fork, hb, h⟩

/-- One more turn. -/
theorem Reaches.secured_succ (h : Reaches E p l i last s) (hb : l[i]? = some b) :
    Secured E p l first (i + 1) ↔ Secured E p l first i
      ∨ ∃ fork, s.turnFork E b = some fork ∧ (fork.branch = []
        ∨ ∃ d, first.block = some d ∧ b.isFor E (d.proposedBlock.id E.H) = true) := by
  constructor
  · rintro (hp | ⟨k, hk, b', last', s', fork, hb', hreach, hfork⟩)
    · exact .inl (.inl hp)
    · rcases Nat.lt_succ_iff_lt_or_eq.mp hk with hlt | rfl
      · exact .inl (.inr ⟨k, hlt, b', last', s', fork, hb', hreach, hfork⟩)
      · obtain rfl := Option.some.inj (hb.symm.trans hb')
        obtain rfl : s = s' := h.afterTurns_eq.symm.trans hreach.afterTurns_eq
        exact .inr ⟨fork, hfork⟩
  · rintro ((hp | ⟨k, hk, hrest⟩) | ⟨fork, hfork⟩)
    · exact .inl hp
    · exact .inr ⟨k, Nat.lt_succ_of_lt hk, hrest⟩
    · exact .inr ⟨i, Nat.lt_succ_self i, b, last, s, fork, hb, h, hfork⟩

/-- **The block to be returned is in the store exactly when it got there**,
and until then it is the first of the list. By induction on the turns. -/
theorem Reaches.stored_iff_secured {rest : List CommitReadyBlock} (hl : l = first :: rest)
    (hd : first.block = some d) (hi : i ≤ l.length) (h : Reaches E p l i last s) :
    (last = d.proposedBlock ∨ Secured E p l first i)
      ∧ ((s.chain.getBlock (last.id E.H)).isSome = true ↔ Secured E p l first i) := by
  induction i generalizing last s with
  | zero =>
    -- before the first turn only the trace has changed
    have hstart : onCommitUpTo E l 0 p = .ok (some d.proposedBlock)
        { p with trace := p.trace ++ [.onCommit p.lastCommitted l] } := by
      rw [hl, onCommitUpTo_cons, hd]
      rfl
    obtain ⟨hlast, hs⟩ := EStateM.Result.ok.inj (hstart.symm.trans h)
    rw [← Option.some.inj hlast, ← hs]
    refine ⟨.inl rfl, ?_⟩
    show (p.chain.getBlock (d.proposedBlock.id E.H)).isSome = true ↔ _
    rw [← p.hasStored_eq hd]
    refine ⟨.inl, ?_⟩
    rintro (hstored | ⟨k, hk, -⟩)
    · exact hstored
    · exact absurd hk (Nat.not_lt_zero k)
  | succ i ih =>
    obtain ⟨b, hb⟩ : ∃ b, l[i]? = some b := ⟨_, List.getElem?_eq_getElem (by omega)⟩
    obtain ⟨last', s', hreach⟩ := h.before (Nat.le_succ i) hb
    obtain ⟨hfirst, hiff⟩ := ih (by omega) hreach
    obtain ⟨r, hnext, hturn⟩ := hreach.turn_of_later h (Nat.lt_succ_self i) hb
    obtain rfl : r = last := by
      have := hnext.symm.trans h
      exact Option.some.inj (EStateM.Result.ok.inj this).1
    rw [h.afterTurns_eq] at hturn
    rw [hreach.secured_succ hb]
    rcases hturn.result with ⟨d', fork, hd', hfork, hnil, rfl⟩ | ⟨hbranch, rfl⟩
    · -- the turn commits its block and returns it
      have hsecured : ∃ fork, s'.turnFork E b = some fork ∧ (fork.branch = []
          ∨ ∃ d, first.block = some d ∧ b.isFor E (d.proposedBlock.id E.H) = true) :=
        ⟨fork, hfork, .inl hnil⟩
      refine ⟨.inr (.inr hsecured), fun _ => .inr hsecured, fun _ => ?_⟩
      rw [hturn.stored, CommitReadyBlock.isFor_eq hd', decide_eq_true rfl, hfork, Bool.true_and,
        Option.isSome_some, Bool.or_true]
    · -- the turn leaves the block to be returned as it was
      refine ⟨hfirst.imp_right .inl, ?_⟩
      rw [hturn.stored, Bool.or_eq_true, hiff, Bool.and_eq_true]
      constructor
      · rintro (hsecured | ⟨hfor, hsome⟩)
        · exact .inl hsecured
        · rcases hfirst with rfl | hsecured
          · obtain ⟨fork, hfork⟩ := Option.isSome_iff_exists.mp hsome
            exact .inr ⟨fork, hfork, .inr ⟨d, hd, hfor⟩⟩
          · exact .inl hsecured
      · rintro (hsecured | ⟨fork, hfork, hnil | ⟨d', hd', hfor⟩⟩)
        · exact .inl hsecured
        · exact absurd hnil (hbranch fork hfork)
        · rcases hfirst with rfl | hsecured
          · obtain rfl := Option.some.inj (hd.symm.trans hd')
            exact .inr ⟨hfor, Option.isSome_iff_exists.mpr ⟨fork, hfork⟩⟩
          · exact .inl hsecured

/-- A list whose turns are reached starts with a block. -/
theorem Reaches.first_block {rest : List CommitReadyBlock}
    (h : Reaches E p (first :: rest) i last s) :
    ∃ d, first.block = some d := by
  cases hd : first.block with
  | some d => exact ⟨d, rfl⟩
  | none =>
    have hfault : onCommitUpTo E (first :: rest) i p = .error .nilDereference
        { p with trace := p.trace ++ [.onCommit p.lastCommitted (first :: rest)] } := by
      rw [onCommitUpTo_cons, hd]
      rfl
    exact nomatch hfault.symm.trans h

/-- **`OnCommit` stops at failures exactly when they come last.** -/
theorem stopsAtFailure_iff (E : Env) (p : Pacemaker) (l : List CommitReadyBlock) :
    StopsAtFailure E p l ↔ FailuresComeLast E p l := by
  constructor
  · intro h
    refine ⟨?_, ?_⟩
    · intro i j b b' last last' s s' hij hb hb' hi hj hstored hfork
      by_contra hreq
      have happlied : AppliedInTurn E p l j :=
        (hj.appliedInTurn_iff hb').mpr (Option.isSome_iff_ne_none.mpr hreq)
      obtain ⟨r, -, hturn⟩ := hi.turn_of_later hj hij hb
      have hthere := h.applied i j b hij hb happlied
      rw [hturn.hasStored, hstored, hfork] at hthere
      exact nomatch hthere
    · intro first last s hhead hreach
      obtain ⟨rest, rfl⟩ := List.head?_eq_some_iff.mp hhead
      obtain ⟨d, hd⟩ := hreach.first_block
      rw [← secured_length, ← (hreach.stored_iff_secured rfl hd le_rfl).2]
      exact h.returned last s (by rw [← onCommitUpTo_length]; exact hreach)
  · intro h
    refine ⟨?_, ?_⟩
    · intro i j b hij hb happlied
      obtain ⟨b', last', s', hb', hj⟩ := happlied.reached
      obtain ⟨last, s, hi⟩ := hj.before hij.le hb
      obtain ⟨r, -, hturn⟩ := hi.turn_of_later hj hij hb
      rw [hturn.hasStored]
      by_contra hfails
      obtain ⟨hstored, hfork⟩ := Bool.or_eq_false_iff.mp (Bool.not_eq_true _ ▸ hfails)
      have hquiet := h.quiet i j b b' last last' s s' hij hb hb' hi hj hstored
        (Option.isSome_eq_false_iff.mp hfork |> Option.isNone_iff_eq_none.mp)
      rw [hj.appliedInTurn_iff hb', hquiet] at happlied
      exact nomatch happlied
    · intro r s hreturned
      cases l with
      | nil => exact nomatch hreturned
      | cons first rest =>
        have hreach : Reaches E p (first :: rest) (first :: rest).length r s := by
          unfold Reaches
          rw [onCommitUpTo_length]
          exact hreturned
        obtain ⟨d, hd⟩ := hreach.first_block
        rw [(hreach.stored_iff_secured rfl hd le_rfl).2, secured_length]
        exact h.first first r s rfl hreach

/-! ## A child executed without its parent -/

namespace Testnet

/-- An application that fails to execute the first block. -/
def stuckApp : App :=
  { app with finalizeBlock := fun _ req =>
      if req.height = 1 then none else some ⟨[], req.txs.length, []⟩ }

/-- The first two blocks, made up from the drafts of a node. -/
def firstTwo (p : Pacemaker) : List CommitReadyBlock :=
  let b := block genesis 1 genesisQC []
  let b' := block b 2 (certificate b 1) []
  [⟨p.chain.getDraft (b.id hashes), some (certificate b 1)⟩,
    ⟨p.chain.getDraft (b'.id hashes), some (certificate b' 2)⟩]

/-- The second turn calls the application, and the first did not store its
block. -/
def pastFailureTest (p : Pacemaker) : Bool :=
  decide (AppliedInTurn env p (firstTwo p) 1)
    && (firstTwo p).head?.any (fun b => !(p.afterTurns env (firstTwo p) 1).hasStored env b)

theorem not_stopsAtFailure_of_test {p : Pacemaker} (h : pastFailureTest p = true) :
    ¬ StopsAtFailure env p (firstTwo p) := by
  obtain ⟨happlied, hfirst⟩ := Bool.and_eq_true_iff.mp h
  obtain ⟨b, hb, hstored⟩ := (Option.any_eq_true _ _).mp hfirst
  intro hstops
  have hthere := hstops.applied 0 1 b Nat.zero_lt_one hb (of_decide_eq_true happlied)
  rw [hthere] at hstored
  exact nomatch hstored

/-- **The second block is executed although the first was not**: a node that
holds both as processed drafts is told to commit them, and its application
fails on the first. -/
theorem child_of_failed_block_is_applied :
    ∃ p₀, startPacemaker env chain stuckApp [1] 1000000000 = .ok p₀
      ∧ let b := block genesis 1 genesisQC []
        let p := p₀.play env (deliver b 1 ++ deliver (block b 2 (certificate b 1) []) 2)
        ¬ StopsAtFailure env p (firstTwo p) := by
  obtain ⟨p₀, hstart, htest⟩ := exists_of_ok (x := startPacemaker env chain stuckApp [1] 1000000000)
    (fun p₀ =>
      let b := block genesis 1 genesisQC []
      pastFailureTest (p₀.play env (deliver b 1 ++ deliver (block b 2 (certificate b 1) []) 2)))
    (by decide +kernel)
  exact ⟨p₀, hstart, not_stopsAtFailure_of_test htest⟩

end Testnet

end LoragonBFT
