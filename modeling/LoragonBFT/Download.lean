import LoragonBFT.Rpc
import LoragonBFT.Sync

/-!
# Downloading blocks

A node that is behind fetches blocks from one peer. `download` starts two
goroutines and waits for both. The *downloader* asks for the blocks from a
number on, checks that the answer goes on with the numbers where the last one
ended, and puts the blocks into a channel; the *consumer* is
`handleBlockStream`, which takes them out and gives each to `processBlock`.
They share the channel, a context that ends when the consumer returns or the
node stops, and a channel for errors.

The two goroutines move separately here, in any order, with anything else the
node does in between, and the peer answers what it likes. The blocks still
reach `processBlock` one number after the other, and none after one that
failed; a download without an error has processed all that was fetched; and
the goroutines do not wait for each other for ever – which is what the
capacity of the channel of errors, said in the source to be important, is for.
-/

namespace LoragonBFT

open EStateM

variable {E : Env}

/-! ## The two goroutines -/

/-- The errors `download` returns. -/
inductive SyncErr where
  /-- The request failed. -/
  | rpc
  /-- "broken sequence". -/
  | brokenSequence
  /-- `processBlock` returned an error. -/
  | process (e : Err)
  /-- `ctx.Err()`. -/
  | context
deriving DecidableEq, Repr

/-- Where the consumer is. -/
inductive Consumer where
  /-- At the head of the loop, waiting for a block. -/
  | reading
  /-- Behind a block that was processed, about to look at the context. -/
  | checking
  | returned (err : Option SyncErr)
deriving DecidableEq, Repr

def Consumer.hasReturned : Consumer → Bool
  | .returned _ => true
  | _ => false

/-- How many errors the consumer has reported. -/
def Consumer.errors : Consumer → ℕ
  | .returned (some _) => 1
  | _ => 0

theorem Consumer.eq_returned_none {c : Consumer} (h : c.hasReturned = true)
    (hnone : c.errors = 0) : c = .returned none := by
  cases c with
  | returned err =>
    cases err with
    | none => rfl
    | some => cases hnone
  | _ => cases h

/-- A block that was given to `processBlock`: the best block it met, and what
came of it. -/
structure ProcessedBlock where
  escorted : EscortedBlock
  best : Bytes32
  outcome : Except Err Unit

/-- A node that downloads. -/
structure Download where
  node : Pacemaker
  /-- The number to ask for next. -/
  fromNum : UInt32
  /-- The blocks of the last answer that are not in the channel yet. -/
  blocks : List EscortedBlock
  blockCh : List EscortedBlock
  /-- The downloader has returned, which closes the channel. -/
  closed : Bool
  consumer : Consumer
  errCh : List SyncErr
  /-- The context of the server is done. -/
  stopped : Bool
  /-- All blocks fetched so far, for the statements only. -/
  received : List EscortedBlock
  /-- All blocks processed so far, for the statements only. -/
  handled : List ProcessedBlock

/-- What can happen next. -/
inductive Download.Action where
  /-- The peer answers; `none` is a request that failed. -/
  | answer (result : Option (List EscortedBlock))
  /-- The downloader puts a block into the channel. -/
  | put
  /-- The downloader sees that the context is done. -/
  | giveUp
  /-- The consumer takes a block, or finds the channel closed. -/
  | take
  /-- The consumer looks at the context. -/
  | check
  /-- The server is stopped. -/
  | stop
  /-- Anything else that happens to the node. -/
  | other (i : Input)

namespace Download

/-- The loop that checks the numbers of an answer and counts `fromNum` on. -/
def inSequence : UInt32 → List EscortedBlock → Option UInt32
  | fromNum, [] => some fromNum
  | fromNum, e :: rest =>
    if e.block.number ≠ fromNum then none else inSequence (fromNum + 1) rest

/-- The capacity of the channel of blocks. -/
def blockChCap : ℕ := 4096

/-- The context of the download is done: the server is stopped or the
consumer has returned. -/
def ctxDone (s : Download) : Bool := s.stopped || s.consumer.hasReturned

/-- The downloader with an answer. -/
def onAnswer (s : Download) : Option (List EscortedBlock) → Download
  | none => { s with errCh := s.errCh ++ [.rpc], closed := true }
  | some [] => { s with closed := true }
  | some (e :: rest) =>
    match inSequence s.fromNum (e :: rest) with
    | none => { s with errCh := s.errCh ++ [.brokenSequence], closed := true }
    | some fromNum =>
      { s with fromNum, blocks := e :: rest, received := s.received ++ e :: rest }

/-- The consumer with what `processBlock` returned for the first block of the
channel. -/
def onProcessed (s : Download) (e : EscortedBlock) (rest : List EscortedBlock) (best : Bytes32) :
    EStateM.Result Panic Pacemaker (Except Err Unit) → Download
  | .ok (.ok ()) node =>
    { s with
      node
      blockCh := rest
      consumer := .checking
      handled := s.handled ++ [⟨e, best, .ok ()⟩] }
  | .ok (.error err) node =>
    { s with
      node
      blockCh := rest
      consumer := .returned (some (.process err))
      errCh := s.errCh ++ [.process err]
      handled := s.handled ++ [⟨e, best, .error err⟩] }
  -- the process ends
  | .error fault node => { s with node := { node with halted := some fault } }

/-- **A move of one of the goroutines**, or of the rest of the node. A
goroutine that is elsewhere does not move, and neither does a process that
has ended. -/
def step (E : Env) (s : Download) (a : Action) : Download :=
  if s.node.halted.isSome then s
  else match a with
    | .answer result => if s.closed = false ∧ s.blocks = [] then s.onAnswer result else s
    | .put =>
      match s.blocks with
      | [] => s
      | e :: rest =>
        if s.closed = false ∧ s.blockCh.length < blockChCap then
          { s with blocks := rest, blockCh := s.blockCh ++ [e] }
        else s
    | .giveUp =>
      if s.closed = false ∧ s.blocks ≠ [] ∧ s.ctxDone = true then { s with closed := true } else s
    | .take =>
      if s.consumer = .reading then
        match s.blockCh with
        | [] => if s.closed then { s with consumer := .returned none } else s
        | e :: rest =>
          s.onProcessed e rest (s.node.chain.bestBlock.id E.H)
            (processBlock E e.block e.escortQC s.node)
      else s
    | .check =>
      if s.consumer = .checking then
        if s.stopped then
          { s with consumer := .returned (some .context), errCh := s.errCh ++ [.context] }
        else { s with consumer := .reading }
      else s
    | .stop => { s with stopped := true }
    | .other i => { s with node := s.node.step E i }

/-- A download from a number on. `RPCServer.download` starts behind the best
block, `Communicator.sync` behind the common ancestor. -/
def start (node : Pacemaker) (fromNum : UInt32) : Download where
  node
  fromNum
  blocks := []
  blockCh := []
  closed := false
  consumer := .reading
  errCh := []
  stopped := false
  received := []
  handled := []

/-- Both goroutines have returned. -/
def finished (s : Download) : Bool := s.closed && s.consumer.hasReturned

/-- What `download` returns once both have. -/
def result (s : Download) : Option SyncErr := s.errCh.head?

/-- A run of a download with a peer that answers anything. -/
abbrev Run (E : Env) : Download → Download → Prop :=
  Machine.Run (step E) (fun _ _ => True)

/-- **What a move can do**, with the guards it passed. -/
inductive Moves (E : Env) (s : Download) : Action → Download → Prop
  | answer (result : Option (List EscortedBlock)) (isOpen : s.closed = false)
      (empty : s.blocks = []) : Moves E s (.answer result) (s.onAnswer result)
  | put {e : EscortedBlock} {rest : List EscortedBlock} (isOpen : s.closed = false)
      (blocks_eq : s.blocks = e :: rest) :
      Moves E s .put { s with blocks := rest, blockCh := s.blockCh ++ [e] }
  | giveUp (isOpen : s.closed = false) (done : s.ctxDone = true) :
      Moves E s .giveUp { s with closed := true }
  | drained (reading : s.consumer = .reading) (empty : s.blockCh = []) (closed : s.closed = true) :
      Moves E s .take { s with consumer := .returned none }
  | process {e : EscortedBlock} {rest : List EscortedBlock} (reading : s.consumer = .reading)
      (blockCh_eq : s.blockCh = e :: rest) :
      Moves E s .take (s.onProcessed e rest (s.node.chain.bestBlock.id E.H)
        (processBlock E e.block e.escortQC s.node))
  | goOn (checking : s.consumer = .checking) :
      Moves E s .check { s with consumer := .reading }
  | leave (checking : s.consumer = .checking) :
      Moves E s .check
        { s with consumer := .returned (some .context), errCh := s.errCh ++ [.context] }
  | stop : Moves E s .stop { s with stopped := true }
  | other (i : Input) : Moves E s (.other i) { s with node := s.node.step E i }

theorem step_cases (s : Download) (a : Action) : s.step E a = s ∨ Moves E s a (s.step E a) := by
  unfold step
  split
  · exact .inl rfl
  cases a with
  | answer result =>
    dsimp only
    split
    · rename_i hguard
      exact .inr (.answer result hguard.1 hguard.2)
    · exact .inl rfl
  | put =>
    dsimp only
    split
    · exact .inl rfl
    · split
      · rename_i hguard
        exact .inr (.put hguard.1 ‹_›)
      · exact .inl rfl
  | giveUp =>
    dsimp only
    split
    · rename_i hguard
      exact .inr (.giveUp hguard.1 hguard.2.2)
    · exact .inl rfl
  | take =>
    dsimp only
    split
    · split
      · split
        · exact .inr (.drained ‹_› ‹_› ‹_›)
        · exact .inl rfl
      · exact .inr (.process ‹_› ‹_›)
    · exact .inl rfl
  | check =>
    dsimp only
    split
    · split
      · exact .inr (.leave ‹_›)
      · exact .inr (.goOn ‹_›)
    · exact .inl rfl
  | stop => exact .inr .stop
  | other i => exact .inr (.other i)

/-! ## The numbers of an answer -/

/-- The numbers of a list of blocks go up by one from a number on. -/
def NumberedFrom (fromNum : UInt32) (l : List EscortedBlock) : Prop :=
  ∀ k e, l[k]? = some e → e.block.number = fromNum + UInt32.ofNat k

theorem numberedFrom_nil (fromNum : UInt32) : NumberedFrom fromNum [] :=
  fun k e h => by simp at h

theorem NumberedFrom.append {fromNum : UInt32} {l l' : List EscortedBlock}
    (h : NumberedFrom fromNum l) (h' : NumberedFrom (fromNum + UInt32.ofNat l.length) l') :
    NumberedFrom fromNum (l ++ l') := by
  intro k e hk
  rcases Nat.lt_or_ge k l.length with hlt | hge
  · exact h k e (by rwa [List.getElem?_append_left hlt] at hk)
  · rw [List.getElem?_append_right hge] at hk
    rw [h' (k - l.length) e hk, UInt32.add_assoc, ← UInt32.ofNat_add, Nat.add_sub_cancel' hge]

/-- **The numbers of an answer that passes go on where the last one ended.** -/
theorem inSequence_eq_some {fromNum fromNum' : UInt32} {l : List EscortedBlock}
    (h : inSequence fromNum l = some fromNum') :
    NumberedFrom fromNum l ∧ fromNum' = fromNum + UInt32.ofNat l.length := by
  induction l generalizing fromNum with
  | nil =>
    refine ⟨numberedFrom_nil _, ?_⟩
    rw [← Option.some.inj h]
    simp
  | cons e rest ih =>
    unfold inSequence at h
    split at h
    · cases h
    rename_i hnumber
    obtain ⟨hrest, hnext⟩ := ih h
    refine ⟨fun k e' hk => ?_, ?_⟩
    · cases k with
      | zero =>
        obtain rfl := Option.some.inj hk
        rw [not_ne_iff.mp hnumber]
        simp
      | succ k =>
        rw [hrest k e' hk, UInt32.add_assoc, Nat.add_comm k 1, UInt32.ofNat_add]
        rfl
    · rw [hnext, UInt32.add_assoc, List.length_cons, Nat.add_comm rest.length 1, UInt32.ofNat_add]
      rfl

/-! ## What a download keeps to -/

/-- **The invariant of a download.** What was fetched is what was processed,
what is in the channel and what is still to be put there, in that order. The
consumer stops at the first failure, reports its error, and returns without
one only from a closed and empty channel. -/
structure Inv (fromNum : UInt32) (s : Download) : Prop where
  received_eq : s.received = s.handled.map ProcessedBlock.escorted ++ s.blockCh ++ s.blocks
  numbered : NumberedFrom fromNum s.received
  next : s.closed = false → s.fromNum = fromNum + UInt32.ofNat s.received.length
  met_parent : ∀ x ∈ s.handled, x.outcome = .ok () → x.best = x.escorted.block.parentID
  stops : ∀ x ∈ s.handled.dropLast, x.outcome = .ok ()
  succeeds : s.consumer.errors = 0 → ∀ x ∈ s.handled, x.outcome = .ok ()
  drained : s.consumer = .returned none → s.closed = true ∧ s.blockCh = []
  reported : s.consumer.errors ≠ 0 → s.errCh ≠ []
  dropped : s.closed = true → s.blocks ≠ [] → s.stopped = true ∨ s.errCh ≠ []
  errors_le : s.errCh.length ≤ s.closed.toNat + s.consumer.errors

theorem inv_start (node : Pacemaker) (fromNum : UInt32) : (start node fromNum).Inv fromNum where
  received_eq := rfl
  numbered := numberedFrom_nil _
  next _ := by simp [start]
  met_parent x hx := by cases hx
  stops x hx := by cases hx
  succeeds _ x hx := by cases hx
  drained h := by cases h
  reported h := absurd rfl h
  dropped h := by cases h
  errors_le := Nat.le_refl _

/-- A block is processed without an error only if its parent is the best
block. -/
theorem parentID_of_processBlock {p p' : Pacemaker} {blk : Block} {qc : QuorumCert}
    (h : processBlock E blk qc p = .ok (.ok ()) p') : p.chain.bestBlock.id E.H = blk.parentID := by
  by_contra hne
  have hspec : Ensures (processBlock E blk qc) p (fun r _ => r ≠ .ok ()) (fun _ => True) := by
    unfold processBlock
    rw [ensures_bind, ensures_get, if_pos hne, ensures_pure]
    exact fun h => by cases h
  exact hspec.of_ok h rfl

section Steps

variable {fromNum : UInt32} {s : Download}

theorem Inv.onAnswer (h : s.Inv fromNum) (hopen : s.closed = false) (hblocks : s.blocks = [])
    (result : Option (List EscortedBlock)) : (s.onAnswer result).Inv fromNum := by
  have herrors := h.errors_le
  rw [hopen] at herrors
  -- a downloader that returns has put all it fetched into the channel
  have hreturn : ∀ errs, errs.length ≤ 1 →
      { s with errCh := s.errCh ++ errs, closed := true : Download }.Inv fromNum := by
    intro errs herrs
    refine
      { h with
        next := fun hclosed => by cases hclosed
        drained := fun hreturned => ⟨rfl, (h.drained hreturned).2⟩
        reported := fun hne => by simp [h.reported hne]
        dropped := fun _ hne => absurd hblocks hne
        errors_le := ?_ }
    show (s.errCh ++ errs).length ≤ 1 + s.consumer.errors
    rw [List.length_append]
    simp only [Bool.toNat_false] at herrors
    omega
  unfold Download.onAnswer
  split
  · exact hreturn _ (Nat.le_refl _)
  · simpa using hreturn [] (Nat.zero_le _)
  · split
    · exact hreturn _ (Nat.le_refl _)
    rename_i e rest _ fromNum' hsequence
    obtain ⟨hnumbered, hnext⟩ := inSequence_eq_some hsequence
    rw [h.next hopen] at hnumbered hnext
    exact
      { h with
        received_eq := by
          show s.received ++ e :: rest = _
          rw [h.received_eq, hblocks, List.append_nil]
        numbered := h.numbered.append hnumbered
        next := fun _ => by
          show fromNum' = _
          rw [hnext, UInt32.add_assoc, ← UInt32.ofNat_add, List.length_append]
        dropped := fun hclosed => by cases hopen.symm.trans hclosed }

/-- The consumer does not return from an open channel without an error. -/
theorem Inv.giveUp (h : s.Inv fromNum) (hopen : s.closed = false) (hdone : s.ctxDone = true) :
    { s with closed := true : Download }.Inv fromNum := by
  refine
    { h with
      next := fun hclosed => by cases hclosed
      drained := fun hreturned => ⟨rfl, (h.drained hreturned).2⟩
      dropped := fun _ _ => ?_
      errors_le := h.errors_le.trans (Nat.add_le_add_right (by simp [hopen]) _) }
  rcases Bool.or_eq_true_iff.mp hdone with hstopped | hreturned
  · exact .inl hstopped
  · refine .inr (h.reported fun hnone => ?_)
    cases hopen.symm.trans (h.drained (Consumer.eq_returned_none hreturned hnone)).1

/-- The consumer processes a block. -/
theorem Inv.onProcessed (h : s.Inv fromNum) (hreading : s.consumer = .reading)
    {e : EscortedBlock} {rest : List EscortedBlock} (hblockCh : s.blockCh = e :: rest)
    {best : Bytes32} {r : EStateM.Result Panic Pacemaker (Except Err Unit)}
    (hmet : ∀ node, r = .ok (.ok ()) node → best = e.block.parentID) :
    (s.onProcessed e rest best r).Inv fromNum := by
  have herrors := h.errors_le
  have hreceived := h.received_eq
  have hok := h.succeeds (by rw [hreading]; rfl)
  rw [hreading] at herrors
  rw [hblockCh] at hreceived
  have hmem : ∀ {outcome : Except Err Unit} {P : ProcessedBlock → Prop}, (∀ x ∈ s.handled, P x) →
      P ⟨e, best, outcome⟩ → ∀ x ∈ s.handled ++ [⟨e, best, outcome⟩], P x := by
    intro outcome P hall hlast x hx
    rcases List.mem_append.mp hx with hx | hx
    · exact hall x hx
    · rw [List.mem_singleton.mp hx]
      exact hlast
  cases r with
  | error fault node => exact { h with }
  | ok outcome node =>
    cases outcome with
    | ok u =>
      exact
        { h with
          received_eq := by simpa [Download.onProcessed] using hreceived
          met_parent := hmem h.met_parent fun _ => hmet node rfl
          stops := by simpa [Download.onProcessed] using hok
          succeeds := fun _ => hmem hok rfl
          drained := fun hreturned => by cases hreturned
          reported := fun hne => absurd rfl hne
          errors_le := herrors }
    | error err =>
      exact
        { h with
          received_eq := by simpa [Download.onProcessed] using hreceived
          met_parent := hmem h.met_parent fun hfail => by cases hfail
          stops := by simpa [Download.onProcessed] using hok
          succeeds := fun hnone => by cases hnone
          drained := fun hreturned => by cases hreturned
          reported := fun _ => by simp [Download.onProcessed]
          dropped := fun _ _ => .inr (by simp [Download.onProcessed])
          errors_le := by
            show (s.errCh ++ [SyncErr.process err]).length ≤ s.closed.toNat + 1
            rw [List.length_append]
            exact Nat.add_le_add_right herrors 1 }

/-- **Every move keeps the invariant.** -/
theorem Inv.step (h : s.Inv fromNum) (a : Action) : (s.step E a).Inv fromNum := by
  rcases s.step_cases (E := E) a with hsame | hmoves
  · rw [hsame]
    exact h
  have hok := h.succeeds
  have herrors := h.errors_le
  generalize s.step E a = t at hmoves
  cases hmoves with
  | answer result hopen hempty => exact h.onAnswer hopen hempty result
  | put hopen hblocks =>
    exact
      { h with
        received_eq := by simp [h.received_eq, hblocks]
        drained := fun hreturned => by cases hopen.symm.trans (h.drained hreturned).1
        dropped := fun hclosed => by cases hopen.symm.trans hclosed }
  | giveUp hopen hdone => exact h.giveUp hopen hdone
  | drained hreading hempty hclosed =>
    rw [hreading] at hok herrors
    exact
      { h with
        succeeds := hok
        drained := fun _ => ⟨hclosed, hempty⟩
        reported := fun hne => absurd rfl hne
        errors_le := herrors }
  | process hreading hblockCh =>
    exact h.onProcessed hreading hblockCh fun node => parentID_of_processBlock
  | goOn hchecking =>
    rw [hchecking] at hok herrors
    exact
      { h with
        succeeds := hok
        drained := fun hreturned => by cases hreturned
        reported := fun hne => absurd rfl hne
        errors_le := herrors }
  | leave hchecking =>
    rw [hchecking] at herrors
    exact
      { h with
        succeeds := fun hnone => by cases hnone
        drained := fun hreturned => by cases hreturned
        reported := fun _ => by simp
        dropped := fun _ _ => .inr (by simp)
        errors_le := by
          show (s.errCh ++ [SyncErr.context]).length ≤ s.closed.toNat + 1
          rw [List.length_append]
          exact Nat.add_le_add_right herrors 1 }
  | stop => exact { h with dropped := fun _ _ => .inl rfl }
  | other i => exact { h with }

/-- **Every reachable state of a download meets the invariant.** -/
theorem Inv.of_run {node : Pacemaker} (hrun : Run E (start node fromNum) s) : s.Inv fromNum :=
  hrun.invariant (inv_start node fromNum) fun _ a _ h => h.step a

theorem Inv.number_handled (h : s.Inv fromNum) {k : ℕ} {x : ProcessedBlock}
    (hx : s.handled[k]? = some x) : x.escorted.block.number = fromNum + UInt32.ofNat k := by
  refine h.numbered k x.escorted ?_
  obtain ⟨hlt, -⟩ := List.getElem?_eq_some_iff.mp hx
  rw [h.received_eq, List.append_assoc, List.getElem?_append_left (by simpa using hlt),
    List.getElem?_map, hx]
  rfl

/-- **Once both goroutines have returned without an error, all that was
fetched was processed.** -/
theorem Inv.complete (h : s.Inv fromNum) (hfinished : s.finished = true)
    (hresult : s.result = none) (hstopped : s.stopped = false) :
    s.handled.map ProcessedBlock.escorted = s.received ∧ ∀ x ∈ s.handled, x.outcome = .ok () := by
  obtain ⟨hclosed, hreturned⟩ := Bool.and_eq_true_iff.mp hfinished
  have hnone : s.errCh = [] := List.head?_eq_none_iff.mp hresult
  have hblocks : s.blocks = [] := by
    by_contra hne
    rcases h.dropped hclosed hne with hstop | herr
    · cases hstopped.symm.trans hstop
    · exact herr hnone
  have herrors : s.consumer.errors = 0 := by
    by_contra hne
    exact h.reported hne hnone
  have hconsumer := Consumer.eq_returned_none hreturned herrors
  refine ⟨?_, h.succeeds herrors⟩
  rw [h.received_eq, (h.drained hconsumer).2, hblocks]
  simp

end Steps

/-! ## That it comes to an end -/

end Download

namespace Testnet

/-- A peer answers with two blocks and then with none; the first is processed
before the second is in the channel. -/
def downloadActions : List Download.Action :=
  let b := block genesis 1 genesisQC []
  let child := block b 2 (certificate b 1) []
  [.answer (some [⟨b, certificate b 1⟩, ⟨child, certificate child 2⟩]), .put, .take, .put, .check,
    .take, .answer (some []), .check, .take]

/-- A node after that. -/
def downloaded (p₀ : Pacemaker) : Download :=
  Machine.play (Download.step env) (.start p₀ 1) downloadActions

theorem run_downloaded (p₀ : Pacemaker) : Download.Run env (.start p₀ 1) (downloaded p₀) :=
  Machine.run_play _ _

/-- Both blocks were processed and both goroutines returned. -/
theorem exists_downloaded :
    ∃ p₀, start 1 = .ok p₀ ∧ (downloaded p₀).handled.length = 2
      ∧ (downloaded p₀).finished = true ∧ (downloaded p₀).result = none
      ∧ (downloaded p₀).stopped = false := by
  obtain ⟨p₀, hstart, htest⟩ := exists_of_start (k := 1)
    (fun p₀ => decide ((downloaded p₀).handled.length = 2 ∧ (downloaded p₀).finished = true
      ∧ (downloaded p₀).result = none ∧ (downloaded p₀).stopped = false))
    (by decide +kernel)
  exact ⟨p₀, hstart, of_decide_eq_true htest⟩

end Testnet

/-! ## Results -/

/-- **Blocks are processed one number after the other.** Whatever the peer
answers and in whatever order the goroutines move, the blocks that reach
`processBlock` are numbered from the start of the download on, without a gap
or a repetition; only the last of them can have failed; and each that did not
fail met its own parent as the best block. -/
theorem download_in_order {node : Pacemaker} {fromNum : UInt32} {s : Download}
    (hrun : Download.Run E (.start node fromNum) s) :
    (∀ k x, s.handled[k]? = some x → x.escorted.block.number = fromNum + UInt32.ofNat k)
      ∧ (∀ x ∈ s.handled.dropLast, x.outcome = .ok ())
      ∧ ∀ x ∈ s.handled, x.outcome = .ok () → x.best = x.escorted.block.parentID := by
  have h := Download.Inv.of_run hrun
  exact ⟨fun _ _ => h.number_handled, h.stops, h.met_parent⟩

/-- Two blocks, numbered one and two. -/
theorem Testnet.downloaded_in_order :
    ∃ p₀, start 1 = .ok p₀ ∧ (downloaded p₀).handled.length = 2
      ∧ ∀ k x, (downloaded p₀).handled[k]? = some x →
        x.escorted.block.number = 1 + UInt32.ofNat k := by
  obtain ⟨p₀, hstart, hlength, -⟩ := exists_downloaded
  exact ⟨p₀, hstart, hlength, (download_in_order (run_downloaded p₀)).1⟩

/-- **A download without an error has processed all that was fetched**, in
the order in which it came, unless the node was stopped meanwhile. Where the
blocks were a chain, each but the last had become the best block when the next
one was processed. -/
theorem download_complete {node : Pacemaker} {fromNum : UInt32} {s : Download}
    (hrun : Download.Run E (.start node fromNum) s) (hfinished : s.finished = true)
    (hresult : s.result = none) (hstopped : s.stopped = false) :
    s.handled.map ProcessedBlock.escorted = s.received
      ∧ (∀ x ∈ s.handled, x.outcome = .ok ())
      ∧ ∀ k x y, s.handled[k]? = some x → s.handled[k + 1]? = some y →
        y.escorted.block.parentID = x.escorted.block.id E.H →
        y.best = x.escorted.block.id E.H := by
  have h := Download.Inv.of_run hrun
  obtain ⟨hall, hok⟩ := h.complete hfinished hresult hstopped
  refine ⟨hall, hok, fun k x y _ hy hlink => ?_⟩
  have hmem := List.mem_of_getElem? hy
  exact (h.met_parent y hmem (hok y hmem)).trans hlink

/-- Two blocks were fetched and both were processed. -/
theorem Testnet.downloaded_complete :
    ∃ p₀, start 1 = .ok p₀ ∧ (downloaded p₀).handled.length = 2
      ∧ (downloaded p₀).handled.map ProcessedBlock.escorted = (downloaded p₀).received := by
  obtain ⟨p₀, hstart, hlength, hfinished, hresult, hstopped⟩ := exists_downloaded
  exact ⟨p₀, hstart, hlength,
    (download_complete (run_downloaded p₀) hfinished hresult hstopped).1⟩

end LoragonBFT
