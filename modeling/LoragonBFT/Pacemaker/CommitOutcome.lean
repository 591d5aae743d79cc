import LoragonBFT.Pacemaker.Handlers

/-!
# What becomes of a block that is committed

`CommitBlock` can stop at many places: the height check, the lookup of the
parent, the application, the number of results, the store. How far it gets
is decided by the state it starts in, because nothing it reads on the way is
written by it before. This module says so: `requestFor` is the request made
of the application, `forkFor` the fork `AddBlock` reports, and
`commitBlock_outcome` reads the two off the state left behind.

A block can be in the store and `CommitBlock` still return an error, when
adding the block put the best block on a branch.
-/

namespace LoragonBFT

open EStateM

variable {E : Env}

/-- The `FinalizeBlock` requests of a trace, oldest first. -/
def finalizeRequests (trace : List Event) : List FinalizeBlockRequest :=
  trace.filterMap (fun e => match e with | .abci (.finalizeBlock req) => some req | _ => none)

@[simp] theorem finalizeRequests_append (t₁ t₂ : List Event) :
    finalizeRequests (t₁ ++ t₂) = finalizeRequests t₁ ++ finalizeRequests t₂ :=
  List.filterMap_append

/-! ## How far a block gets -/

/-- The request `CommitBlock` makes of the application, if it gets there:
the block is above the best one, its parent is found, and the request can be
made up. -/
def Pacemaker.requestFor (E : Env) (p : Pacemaker) (blk : Block) : Option FinalizeBlockRequest :=
  if p.isKnown blk then none
  else match p.chain.parentBlock blk with
    | none => none
    | some parent => (finalizeBlockRequest E p.chain parent blk blk.number.toNat).toOption

theorem requestFor_eq_some {s : Pacemaker} {blk : Block} {req : FinalizeBlockRequest} :
    s.requestFor E blk = some req ↔ s.isKnown blk = false ∧ ∃ parent,
      s.chain.parentBlock blk = some parent
        ∧ finalizeBlockRequest E s.chain parent blk blk.number.toNat = .ok req := by
  unfold Pacemaker.requestFor
  cases s.isKnown blk with
  | true => simp
  | false =>
    cases s.chain.parentBlock blk with
    | none => simp
    | some parent =>
      cases h : finalizeBlockRequest E s.chain parent blk blk.number.toNat <;>
        simp [Except.toOption, h]

/-- A request is for the height of its block. -/
theorem height_of_requestFor {s : Pacemaker} {blk : Block} {req : FinalizeBlockRequest}
    (h : s.requestFor E blk = some req) : req.height = blk.number.toNat := by
  obtain ⟨-, parent, -, hreq⟩ := requestFor_eq_some.mp h
  exact (eq_of_finalizeBlockRequest hreq).2.1

/-- The application hash taken from an answer, if it is usable: there is a
result for each transaction, and the validator updates can be read. -/
def Chain.answeredHash (B : Bls) (c : Chain) (blk : Block) (response : FinalizeBlockResponse) :
    Option Bytes :=
  if blk.txs.length ≠ response.txResults then none
  else match calcNewValidatorSet B (c.getValidatorsByHash blk.header.validatorsHash)
      response.validatorUpdates with
    | .error _ => none
    | .ok _ => some response.appHash

/-- The application hash `CommitBlock` goes on with, if it does. -/
def Pacemaker.appHashFor (E : Env) (p : Pacemaker) (blk : Block) : Option Bytes :=
  match p.requestFor E blk with
  | none => none
  | some req =>
    match p.app.finalizeBlock (abciCalls p.trace) req with
    | none => none
    | some response => p.chain.answeredHash E.B blk response

/-- The fork `AddBlock` reports, where it adds the block: it is not there
yet, its parent is, the store takes the write, and for a new best block
there is a certificate and a common ancestor with the old one. -/
def Chain.addedFork (H : Hashes) (c : Chain) (blk : Block) (escortQC : Option QuorumCert) :
    Option Fork :=
  if c.blockExists H blk then none
  else match c.getBlockHeader blk.parentID with
    | none => none
    | some parent =>
      if !c.writeOK c.batchWrites then none
      else if c.isTrunk H blk.header then
        match c.buildFork H blk.header c.bestBlock.header with
        | .ok (.ok fork) => escortQC.map (fun _ => fork)
        | _ => none
      else some ⟨parent, [], [blk.header]⟩

/-- The fork `CommitBlock` is told of, if the block is stored. -/
def Pacemaker.forkFor (E : Env) (p : Pacemaker) (blk : Block) (escortQC : Option QuorumCert) :
    Option Fork :=
  match p.appHashFor E blk with
  | none => none
  | some appHash => p.chain.addedFork E.H (blk.withAppHash appHash) escortQC

/-! ## The store -/

/-- What a function that may add a block returns and leaves in the store,
given the fork it finds if it adds the block. -/
structure StoresWith (H : Hashes) (c : Chain) (blk : Block) (added : Option Fork)
    (result : Except Err Fork) (c' : Chain) : Prop where
  ok_iff : ∀ fork, result = .ok fork ↔ added = some fork
  stored : ∀ id, (c'.getBlock id).isSome
    = ((c.getBlock id).isSome || (decide (id = blk.id H) && added.isSome))

namespace StoresWith

variable {H : Hashes} {c c' : Chain} {blk : Block} {result : Except Err Fork}

/-- An error, with the store as it was. -/
theorem kept (e : Err) (hkv : c'.kv = c.kv) : StoresWith H c blk none (.error e) c' where
  ok_iff fork := ⟨fun h => (nomatch h), fun h => (nomatch h)⟩
  stored id := by
    show (c'.kv.blocks id).isSome = _
    rw [hkv, Option.isSome_none, Bool.and_false, Bool.or_false]
    rfl

/-- A batch with the block in it: whether it is written is up to the
store. -/
theorem of_writeBatch {w : Chain} {kv : KV} {fork : Fork} (hkv : w.kv = c.kv)
    (hblocks : kv.blocks = Function.update c.kv.blocks (blk.id H) (some blk))
    (h : w.writeBatch kv fork = (result, c')) :
    StoresWith H c blk (if !w.writeOK w.batchWrites then none else some fork) result c' := by
  unfold Chain.writeBatch at h
  split at h
  · rename_i hwrites
    obtain ⟨rfl, rfl⟩ := Prod.mk.inj h
    rw [hwrites, if_neg (by simp)]
    refine ⟨fun f => ⟨fun h => congrArg some (Except.ok.inj h),
      fun h => congrArg Except.ok (Option.some.inj h)⟩, fun id => ?_⟩
    show (kv.blocks id).isSome = ((c.kv.blocks id).isSome || _)
    rw [hblocks, Function.update_apply]
    by_cases hid : id = blk.id H <;> simp [hid]
  · rename_i hwrites
    obtain ⟨rfl, rfl⟩ := Prod.mk.inj h
    rw [if_pos (by simpa using hwrites)]
    exact kept _ hkv

end StoresWith

/-- **`AddBlock` stores the block exactly when it reports a fork.** -/
theorem Chain.addBlock_stores {H : Hashes} {c c' : Chain} {blk : Block}
    {escortQC : Option QuorumCert} {result : Except Err Fork}
    (h : c.addBlock H blk escortQC = .ok (result, c')) :
    StoresWith H c blk (c.addedFork H blk escortQC) result c' := by
  unfold addBlock at h
  unfold addedFork
  split at h
  · rename_i hexists
    rw [if_pos hexists]
    obtain ⟨rfl, rfl⟩ := Prod.mk.inj (Except.ok.inj h)
    exact .kept _ rfl
  rename_i hexists
  rw [if_neg hexists]
  cases hparent : c.getBlockHeader blk.parentID with
  | none =>
    rw [hparent] at h
    obtain ⟨rfl, rfl⟩ := Prod.mk.inj (Except.ok.inj h)
    exact .kept _ rfl
  | some parent =>
    rw [hparent] at h
    dsimp only at h ⊢
    by_cases htrunk : c.isTrunk H blk.header = true
    · rw [if_pos htrunk] at h ⊢
      cases hfork : c.buildFork H blk.header c.bestBlock.header with
      | error fault =>
        rw [hfork] at h
        exact nomatch h
      | ok outcome =>
        rw [hfork] at h
        cases outcome with
        | error e =>
          rw [ite_self]
          obtain ⟨rfl, rfl⟩ := Prod.mk.inj (Except.ok.inj h)
          exact .kept _ rfl
        | ok fork =>
          dsimp only at h ⊢
          cases escortQC with
          | none =>
            rw [Option.map_none, ite_self]
            obtain ⟨rfl, rfl⟩ := Prod.mk.inj (Except.ok.inj h)
            exact .kept _ rfl
          | some qc =>
            rw [Option.map_some]
            exact .of_writeBatch (w := { c with bestBlock := blk, bestQC := qc }) (H := H) (c := c)
              rfl rfl (Except.ok.inj h)
    · rw [if_neg htrunk] at h ⊢
      exact .of_writeBatch (H := H) (c := c) rfl rfl (Except.ok.inj h)

/-! ## The application -/

theorem afterFinalize_outcome (blk : Block) (response : FinalizeBlockResponse) (s : Pacemaker) :
    Ensures (afterFinalize E blk response) s
      (fun r s' => (s'.trace = s.trace ∧ s'.chain = s.chain) ∧ ∀ appHash nxtVSet,
        r = .ok (appHash, nxtVSet)
          ↔ nxtVSet = none ∧ s.chain.answeredHash E.B blk response = some appHash)
      (fun s' => (s'.trace = s.trace ∧ s'.chain = s.chain)
        ∧ s.chain.answeredHash E.B blk response = none) := by
  unfold afterFinalize Chain.answeredHash
  by_cases hlen : blk.txs.length ≠ response.txResults
  · rw [if_pos hlen, if_pos hlen, ensures_pure]
    exact ⟨⟨rfl, rfl⟩, by simp⟩
  rw [if_neg hlen, if_neg hlen]
  simp only [ensures_bind, forgetTxs, ensures_modify, ensures_get, ensures_ofExcept, ensures_pure]
  refine ⟨fun nxtVSet h => ⟨by simp, fun appHash nxtVSet' => ?_⟩, fun fault h => ⟨by simp, ?_⟩⟩
  · rw [h, calcNewValidatorSet_eq_none h]
    simp [eq_comm, and_comm]
  · rw [h]

/-- **What `applyBlock` does**: it makes the request, and goes on with the
application hash where the answer allows it. The chain is left alone. -/
theorem applyBlock_outcome (blk : Block) (s : Pacemaker) (hknown : s.isKnown blk = false) :
    Ensures (applyBlock E blk blk.number.toNat) s
      (fun r s' => (finalizeRequests s'.trace
          = finalizeRequests s.trace ++ (s.requestFor E blk).toList ∧ s'.chain = s.chain)
        ∧ ∀ appHash nxtVSet, r = .ok (appHash, nxtVSet) ↔
          nxtVSet = none ∧ s.appHashFor E blk = some appHash)
      (fun s' => (finalizeRequests s'.trace
          = finalizeRequests s.trace ++ (s.requestFor E blk).toList ∧ s'.chain = s.chain)
        ∧ s.appHashFor E blk = none) := by
  unfold applyBlock Pacemaker.appHashFor Pacemaker.requestFor
  rw [ensures_bind, ensures_get, hknown]
  cases hparent : s.chain.parentBlock blk with
  | none => simp [ensures_pure]
  | some parent =>
    dsimp only
    rw [ensures_bind, ensures_ofExcept]
    cases hreq : finalizeBlockRequest E s.chain parent blk blk.number.toNat with
    | error fault => simp [Except.toOption]
    | ok req =>
      refine ⟨fun req' hreq' => ?_, fun fault h => (by cases h)⟩
      obtain rfl := Except.ok.inj hreq'
      rw [ensures_bind, ensures_record]
      have hrequests : finalizeRequests (s.trace ++ [.abci (.finalizeBlock req)])
          = finalizeRequests s.trace ++ [req] := finalizeRequests_append _ _
      dsimp only [Except.toOption]
      cases hanswer : s.app.finalizeBlock (abciCalls s.trace) req with
      | none => simp [ensures_pure, hrequests, hanswer]
      | some response =>
        have hsame : ∀ s' : Pacemaker,
            s'.trace = s.trace ++ [.abci (.finalizeBlock req)] ∧ s'.chain = s.chain →
            finalizeRequests s'.trace = finalizeRequests s.trace ++ [req] ∧ s'.chain = s.chain :=
          fun s' h => ⟨(congrArg finalizeRequests h.1).trans hrequests, h.2⟩
        refine (afterFinalize_outcome blk response _).imp (fun r s' h => ?_) (fun s' h => ?_)
        · refine ⟨hsame s' h.1, fun appHash nxtVSet => (h.2 appHash nxtVSet).trans ?_⟩
          simp [hanswer]
        · exact ⟨hsame s' h.1, by simpa [hanswer] using h.2⟩

/-- What `CommitBlock` does between its height check and `AddBlock`: the
block is executed, and handed on with its application hash. -/
def executeBlock (E : Env) (blk : Block) : PM (Except Err Block) := do
  match ← applyBlock E blk blk.number.toNat with
  | .error e => return .error e
  | .ok (appHash, nxtVSet) =>
    match ← registerNext E blk nxtVSet with
    | .error e => return .error e
    | .ok () => return .ok (blk.withAppHash appHash)

/-- **`CommitBlock` is its height check, the execution and `AddBlock`.** -/
theorem commitBlock_eq (blk : Block) (escortQC : Option QuorumCert) :
    commitBlock E blk escortQC = (do
      if (← get).isKnown blk then return .error .knownBlock
      else match ← executeBlock E blk with
        | .error e => return .error e
        | .ok blk' => addCommitted E blk' escortQC) := by
  unfold commitBlock executeBlock
  refine bind_congr fun p => ?_
  split
  · rfl
  rw [bind_assoc]
  refine bind_congr fun r => ?_
  cases r with
  | error e => rfl
  | ok pair =>
    obtain ⟨appHash, nxtVSet⟩ := pair
    show (registerNext E blk nxtVSet >>= _) = (registerNext E blk nxtVSet >>= _) >>= _
    rw [bind_assoc]
    refine bind_congr fun u => ?_
    cases u <;> rfl

/-- **What executing a block does.** -/
theorem executeBlock_outcome (blk : Block) (s : Pacemaker) (hknown : s.isKnown blk = false) :
    Ensures (executeBlock E blk) s
      (fun r s' => (finalizeRequests s'.trace
          = finalizeRequests s.trace ++ (s.requestFor E blk).toList ∧ s'.chain = s.chain)
        ∧ ∀ blk', r = .ok blk' ↔
          ∃ appHash, s.appHashFor E blk = some appHash ∧ blk' = blk.withAppHash appHash)
      (fun s' => (finalizeRequests s'.trace
          = finalizeRequests s.trace ++ (s.requestFor E blk).toList ∧ s'.chain = s.chain)
        ∧ s.appHashFor E blk = none) := by
  unfold executeBlock
  rw [ensures_bind]
  refine (applyBlock_outcome blk s hknown).imp (fun r t h => ?_) (fun _ h => h)
  obtain ⟨hsame, hresult⟩ := h
  cases r with
  | error e =>
    refine ⟨hsame, fun blk' => ⟨fun h => (nomatch h), ?_⟩⟩
    rintro ⟨appHash, hhash, -⟩
    exact nomatch (hresult appHash none).mpr ⟨rfl, hhash⟩
  | ok pair =>
    obtain ⟨appHash, nxtVSet⟩ := pair
    obtain ⟨rfl, hhash⟩ := (hresult appHash nxtVSet).mp rfl
    refine ⟨hsame, fun blk' => ⟨fun h => ⟨appHash, hhash, (Except.ok.inj h).symm⟩, ?_⟩⟩
    rintro ⟨appHash', hhash', rfl⟩
    obtain rfl := Option.some.inj (hhash.symm.trans hhash')
    rfl

/-! ## The two together -/

/-- What `CommitBlock` returns and leaves behind, in terms of the state it
started in. -/
structure CommitOutcome (E : Env) (s : Pacemaker) (blk : Block) (escortQC : Option QuorumCert)
    (r : Except Err Unit) (s' : Pacemaker) : Prop where
  requests : finalizeRequests s'.trace = finalizeRequests s.trace ++ (s.requestFor E blk).toList
  stored : ∀ id, (s'.chain.getBlock id).isSome = ((s.chain.getBlock id).isSome
    || (decide (id = blk.id E.H) && (s.forkFor E blk escortQC).isSome))
  ok_iff : r = .ok () ↔ ∃ fork, s.forkFor E blk escortQC = some fork ∧ fork.branch = []

/-- **What `AddBlock` in `CommitBlock` and what follows it do**: the chain is
the one `AddBlock` leaves, and beside it only the last committed block and the
call for a `Regulate` change. -/
theorem addCommitted_adds (blk : Block) (escortQC : Option QuorumCert) (s : Pacemaker) :
    Ensures (addCommitted E blk escortQC) s
      (fun r s' => ∃ result, s.chain.addBlock E.H blk escortQC = .ok (result, s'.chain)
        ∧ (r = .ok () ↔ ∃ fork, result = .ok fork ∧ fork.branch = [])
        ∧ ∃ lastCommitted cmdCh, s' = { s with chain := s'.chain, lastCommitted, cmdCh })
      (fun s' => s' = s ∧ ∃ fault, s.chain.addBlock E.H blk escortQC = .error fault) := by
  unfold addCommitted
  simp only [ensures_bind, ensures_get, ensures_ofExcept, ensures_modify]
  refine ⟨?_, fun fault h => ⟨trivial, fault, h⟩⟩
  rintro ⟨result, c'⟩ hadd
  cases result with
  | error e => exact ⟨_, hadd, by simp, _, _, rfl⟩
  | ok fork =>
    show Ensures (finishCommit blk fork) _ _ _
    unfold finishCommit
    split
    · rename_i hbranch
      refine ⟨_, hadd, ⟨fun h => (by cases h), ?_⟩, _, _, rfl⟩
      rintro ⟨fork', hfork, hnil⟩
      rw [Except.ok.inj hfork, hnil] at hbranch
      exact absurd hbranch (Nat.lt_irrefl 0)
    · rename_i hbranch
      have hnil : fork.branch = [] := by simpa using hbranch
      simp only [ensures_bind, ensures_modify]
      split <;> exact ⟨_, hadd, ⟨fun _ => ⟨fork, rfl, hnil⟩, fun _ => rfl⟩, _, _, rfl⟩

theorem addCommitted_outcome (blk : Block) (escortQC : Option QuorumCert) (s : Pacemaker) :
    Ensures (addCommitted E blk escortQC) s
      (fun r s' => s'.trace = s.trace
        ∧ (∀ id, (s'.chain.getBlock id).isSome = ((s.chain.getBlock id).isSome
          || (decide (id = blk.id E.H) && (s.chain.addedFork E.H blk escortQC).isSome)))
        ∧ (r = .ok () ↔ ∃ fork, s.chain.addedFork E.H blk escortQC = some fork
          ∧ fork.branch = []))
      (fun s' => s'.trace = s.trace) := by
  refine (addCommitted_adds blk escortQC s).imp (fun r s' h => ?_) (fun _ h => h.1 ▸ rfl)
  obtain ⟨result, hadd, hok, lastCommitted, cmdCh, hs'⟩ := h
  have hstores := Chain.addBlock_stores hadd
  refine ⟨by rw [hs'], hstores.stored, hok.trans ?_⟩
  simp only [hstores.ok_iff]

/-- **How far `CommitBlock` gets is decided by the state it starts in.** -/
theorem commitBlock_outcome (blk : Block) (escortQC : Option QuorumCert) (s : Pacemaker) :
    Ensures (commitBlock E blk escortQC) s (CommitOutcome E s blk escortQC)
      (fun s' => finalizeRequests s'.trace
        = finalizeRequests s.trace ++ (s.requestFor E blk).toList) := by
  rw [commitBlock_eq, ensures_bind, ensures_get]
  cases hknown : s.isKnown blk with
  | true =>
    have hreq : s.requestFor E blk = none := by rw [Pacemaker.requestFor, hknown]; rfl
    have hhash : s.appHashFor E blk = none := by rw [Pacemaker.appHashFor, hreq]
    have hfork : s.forkFor E blk escortQC = none := by rw [Pacemaker.forkFor, hhash]
    rw [if_pos rfl, ensures_pure]
    exact ⟨by simp [hreq], by simp [hfork], by simp [hfork]⟩
  | false =>
    rw [if_neg (by simp), ensures_bind]
    refine (executeBlock_outcome blk s hknown).imp (fun r t h => ?_) (fun t h => h.1.1)
    obtain ⟨⟨hrequests, hchain⟩, hresult⟩ := h
    cases r with
    | error e =>
      have hhash : s.appHashFor E blk = none := by
        cases hhash : s.appHashFor E blk with
        | none => rfl
        | some appHash => exact nomatch (hresult _).mpr ⟨appHash, hhash, rfl⟩
      have hfork : s.forkFor E blk escortQC = none := by rw [Pacemaker.forkFor, hhash]
      show CommitOutcome E s blk escortQC (.error e) t
      exact ⟨hrequests, by simp [hfork, hchain], by simp [hfork]⟩
    | ok blk' =>
      obtain ⟨appHash, hhash, rfl⟩ := (hresult blk').mp rfl
      have hfork : s.forkFor E blk escortQC
          = t.chain.addedFork E.H (blk.withAppHash appHash) escortQC := by
        rw [Pacemaker.forkFor, hhash, hchain]
      refine (addCommitted_outcome _ escortQC t).imp (fun r s' h => ?_) (fun s' h => ?_)
      · obtain ⟨htrace, hstored, hok⟩ := h
        refine ⟨htrace ▸ hrequests, fun id => ?_, ?_⟩
        · rw [hstored id, hfork, hchain]
          rfl
        · rw [hok, hfork]
      · exact h ▸ hrequests

end LoragonBFT
