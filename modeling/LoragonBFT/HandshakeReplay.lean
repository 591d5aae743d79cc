import LoragonBFT.TrunkIndex
import LoragonBFT.Handshaker

/-!
# What a handshake replays

An application that is behind the store is to be sent the blocks it missed,
each once and in order, and an application ahead of the store is to be
refused. Two things stand between the code and this.

The height of the store is read from the chain before the chain is
initialised. A node makes its chain and hands it to the handshaker as it is,
so the height is always read as zero: nothing is replayed and nothing is
refused, and the application is left as far behind, or ahead, as it was.

And if the chain had been initialised, the loop would send the last block of
the store as often as there are blocks missing. That is right if one block is
missing, and with more the replay can only be right by not returning: the
last block has transactions, for which the executor of a replay has no pool,
or it cannot be put into a request.

Both situations are covered by one exact condition.
-/

namespace LoragonBFT

open EStateM

namespace Handshaker

variable {E : Env} {app : App} {h : Handshaker} {c : Chain}

/-- `ReplayBlocks`: the chain is opened, and the application caught up. -/
def replay (E : Env) (app : App) (h : Handshaker) (initChain : Option InitChainResponse)
    (info : InfoResponse) : Calls (Except HandshakeError Bytes) := do
  match ← Calls.ofExcept (h.openChain E initChain info) with
  | .error e => return .error e
  | .ok (c, appHash) => h.catchUp E app c appHash info.lastBlockHeight

/-- **The handshaker of a stored chain.** Its store holds a chain that can be
opened, with an index that lists the trunk; the chain object is either as
`chain.New` makes it or was initialised before. -/
structure Stores (H : Hashes) (h : Handshaker) (c : Chain) : Prop where
  initialised : h.kv.bestBlockID ≠ 0
  load : Chain.load h.kv h.writeOK = .ok (.ok c)
  wellStored : c.WellStored H
  indexed : c.TrunkIndexed H
  best : h.best = none ∨ h.best = some c.bestBlock

/-- The same store, with the chain object initialised. -/
theorem Stores.initialise {H : Hashes} (hs : h.Stores H c) :
    { h with best := some c.bestBlock }.Stores H c :=
  ⟨hs.initialised, hs.load, hs.wellStored, hs.indexed, .inr rfl⟩

/-- The identifiers of the trunk blocks above a height, in ascending order. -/
def missing (c : Chain) (height : ℕ) : List Bytes32 :=
  (List.range' (height + 1) (c.bestBlock.number.toNat - height)).map
    (fun n => c.loadBlockHash (UInt32.ofNat n))

/-- Between two points, blocks with these identifiers were sent to the
application, in this order, and nothing else was. -/
def Sent (calls calls' : List AbciCall) (ids : List Bytes32) : Prop :=
  ∃ reqs : List FinalizeBlockRequest, calls' = calls ++ reqs.map AbciCall.finalizeBlock
    ∧ reqs.map FinalizeBlockRequest.hash = ids

/-- **A replay is complete**: when it returns without an error, the
application has been sent the trunk blocks it missed, each once and in
ascending order; and an application ahead of the store is refused, with
nothing executed. -/
def ReplaysMissing (E : Env) (h : Handshaker) (c : Chain) (info : InfoResponse) : Prop :=
  ∀ app calls,
    (info.lastBlockHeight ≤ c.bestBlock.number.toNat → ∀ appHash calls',
      h.replay E app none info calls = .ok (.ok appHash) calls' →
        Sent calls calls' (missing c info.lastBlockHeight.toNat))
    ∧ (c.bestBlock.number.toNat < info.lastBlockHeight →
      ∃ e, h.replay E app none info calls = .ok (.error e) calls)

/-- The last block can be replayed: it has no transactions, and can be put
into a request. -/
def Replayable (E : Env) (c : Chain) : Prop :=
  c.bestBlock.txs = [] ∧ ∃ parent req, c.parentBlock c.bestBlock = some parent
    ∧ finalizeBlockRequest E c parent c.bestBlock c.bestBlock.number.toNat = .ok req

/-- The context is not cancelled while the loop goes from one height to
another. -/
def Undisturbed (h : Handshaker) (first : ℤ) (rounds : ℕ) : Prop :=
  ∀ i, first ≤ i → i < first + rounds → h.done i = false

/-- **When a replay is complete.** A chain object as it was made: if nothing
is missing. One that was initialised: if at most one block is missing or the
last block cannot be replayed to the end, and for an application ahead if the
store has more than the genesis block. -/
def ReplayRight (E : Env) (h : Handshaker) (c : Chain) (height : ℤ) : Prop :=
  match h.best with
  | none => height = c.bestBlock.number.toNat
  | some _ =>
    if height ≤ c.bestBlock.number.toNat then
      c.bestBlock.number.toNat ≤ height + 1
        ∨ ¬ (Replayable E c
          ∧ h.Undisturbed (height + 1) (c.bestBlock.number.toNat - height).toNat)
    else c.bestBlock.number ≠ 0

/-! ## The rounds of the loop -/

theorem Sent.nil (calls : List AbciCall) : Sent calls calls [] := ⟨[], by simp, rfl⟩

theorem Sent.append {calls calls₁ calls₂ : List AbciCall} {ids₁ ids₂ : List Bytes32}
    (h₁ : Sent calls calls₁ ids₁) (h₂ : Sent calls₁ calls₂ ids₂) :
    Sent calls calls₂ (ids₁ ++ ids₂) := by
  obtain ⟨reqs₁, rfl, rfl⟩ := h₁
  obtain ⟨reqs₂, rfl, rfl⟩ := h₂
  exact ⟨reqs₁ ++ reqs₂, by simp, List.map_append⟩

/-- What was sent is determined by the calls. -/
theorem Sent.unique {calls calls' : List AbciCall} {ids ids' : List Bytes32}
    (h : Sent calls calls' ids) (h' : Sent calls calls' ids') : ids = ids' := by
  obtain ⟨reqs, rfl, rfl⟩ := h
  obtain ⟨reqs', heq, rfl⟩ := h'
  have hmap := List.append_cancel_left heq
  rw [List.map_injective_iff.mpr (fun _ _ hreq => AbciCall.finalizeBlock.inj hreq) hmap]

/-- The index has the best block at its number. -/
theorem Stores.getTrunkBlock_best (hs : h.Stores E.H c) :
    c.getTrunkBlock (UInt32.ofNat (((c.bestBlock.number.toNat : ℕ) : ℤ) % 2 ^ 32).toNat)
      = some c.bestBlock := by
  have hlt := c.bestBlock.number.toNat_lt
  have hnat : (((c.bestBlock.number.toNat : ℕ) : ℤ) % 2 ^ 32).toNat
      = c.bestBlock.number.toNat := by omega
  have hnum : UInt32.ofNat (((c.bestBlock.number.toNat : ℕ) : ℤ) % 2 ^ 32).toNat
      = c.bestBlock.number := by
    rw [hnat]
    exact UInt32.ofNat_toNat
  rw [hnum, Chain.getTrunkBlock, hs.indexed.loadBlockHash_best]
  exact hs.wellStored.best_stored

/-- An answer is usable for a block without transactions only. -/
theorem txs_of_afterReplay {blk : Block} {response : FinalizeBlockResponse} {appHash : Bytes}
    (hafter : afterReplay E c blk response = .ok (.ok appHash)) : blk.txs = [] := by
  unfold afterReplay at hafter
  split at hafter
  · exact nomatch hafter
  split at hafter
  · exact nomatch hafter
  · rename_i htxs
    exact not_not.mp htxs

/-- **A round that goes through has the last block executed**, once. -/
theorem replayBlock_last (hs : h.Stores E.H c) (calls : List AbciCall) :
    Ensures (replayBlock E app c c.bestBlock.number.toNat) calls
      (fun r calls' => ∀ appHash, r = .ok appHash →
        Sent calls calls' [c.bestBlock.id E.H] ∧ Replayable E c)
      (fun _ => True) := by
  unfold replayBlock
  rw [hs.getTrunkBlock_best]
  dsimp only
  split
  · exact fun _ h => by cases h
  rename_i parent hparent
  simp only [ensures_bind, ensures_callsOfExcept, ensures_get, ensures_set]
  refine ⟨fun req hreq => ?_, fun _ _ => trivial⟩
  have hhash := (eq_of_finalizeBlockRequest hreq).1
  split
  · exact fun _ h => by cases h
  · rw [ensures_callsOfExcept]
    refine ⟨fun r hafter appHash hr => ?_, fun _ _ => trivial⟩
    subst hr
    exact ⟨⟨[req], rfl, congrArg (fun id => [id]) hhash⟩, txs_of_afterReplay hafter,
      parent, req, hparent, by simpa using hreq⟩

/-- What a loop that goes through has done: the last block was sent once a
round, so it can be replayed, and no round was cancelled. -/
structure Replayed (E : Env) (h : Handshaker) (c : Chain) (n : ℕ) (i : ℤ)
    (calls calls' : List AbciCall) : Prop where
  sent : Sent calls calls' (List.replicate n (c.bestBlock.id E.H))
  replayable : n ≠ 0 → Replayable E c
  undisturbed : h.Undisturbed i n

/-- **A loop that goes through sends the last block once a round.** -/
theorem replayLoop_last (hs : h.Stores E.H c) (n : ℕ) (i : ℤ) (appHash : Bytes)
    (calls : List AbciCall) :
    Ensures (replayLoop E app h.done c c.bestBlock.number.toNat n i appHash) calls
      (fun r calls' => ∀ appHash', r = .ok appHash' → Replayed E h c n i calls calls')
      (fun _ => True) := by
  induction n generalizing i appHash calls with
  | zero =>
    exact fun _ _ => ⟨.nil calls, fun hne => absurd rfl hne, fun j hj hj' => absurd hj' (by omega)⟩
  | succ n ih =>
    unfold replayLoop
    split
    · exact fun _ h => by cases h
    rename_i hdone
    -- what is done with the outcome of a block, with or without the check before it
    have hround (next : Except _ Bytes → Calls (Except _ Bytes))
        (herror : ∀ e, next (.error e) = pure (.error (.replay e)))
        (hok : ∀ appHash, next (.ok appHash)
          = replayLoop E app h.done c c.bestBlock.number.toNat n (i + 1) appHash) :
        Ensures (replayBlock E app c c.bestBlock.number.toNat >>= next) calls
          (fun r calls' => ∀ appHash', r = .ok appHash' → Replayed E h c (n + 1) i calls calls')
          (fun _ => True) := by
      rw [ensures_bind]
      refine (replayBlock_last hs calls).imp (fun r calls₁ h₁ => ?_) (fun _ h => h)
      cases r with
      | error e =>
        rw [herror]
        exact fun _ h => by cases h
      | ok appHash₁ =>
        rw [hok]
        refine (ih (i + 1) appHash₁ _).imp (fun r calls₂ h₂ appHash₂ hr => ?_) (fun _ h => h)
        obtain ⟨hsent, hreplayable⟩ := h₁ appHash₁ rfl
        obtain ⟨hsent', -, hundisturbed⟩ := h₂ appHash₂ hr
        refine ⟨hsent.append hsent', fun _ => hreplayable, fun j hj hj' => ?_⟩
        rcases eq_or_lt_of_le hj with rfl | hlt
        · exact Bool.eq_false_iff.mpr hdone
        · exact hundisturbed j (by omega) (by push_cast at hj'; omega)
    split
    · simp only [ensures_bind, ensures_callsOfExcept]
      exact ⟨fun _ _ => (ensures_bind _ _ _ _ _).mp (hround _ (fun _ => rfl) fun _ => rfl),
        fun _ _ => trivial⟩
    · exact hround _ (fun _ => rfl) fun _ => rfl

/-- An application that answers with nothing to tell. -/
def quietApp : App where
  prepareProposal _ _ := none
  processProposal _ _ := none
  finalizeBlock _ _ := some ⟨[], 0, []⟩

/-- A last block that can be replayed is replayed as often as it is asked
for. -/
theorem exists_replayLoop_quiet (hs : h.Stores E.H c) (hlast : Replayable E c) (n : ℕ) (i : ℤ)
    (hundisturbed : h.Undisturbed i n) (calls : List AbciCall) :
    ∃ calls', replayLoop E quietApp h.done c c.bestBlock.number.toNat n i [] calls
      = .ok (.ok []) calls' := by
  obtain ⟨htxs, parent, req, hparent, hreq⟩ := hlast
  have hblock : ∀ calls, replayBlock E quietApp c c.bestBlock.number.toNat calls
      = .ok (.ok []) (calls ++ [.finalizeBlock req]) := by
    intro calls
    unfold replayBlock
    rw [hs.getTrunkBlock_best]
    dsimp only
    rw [hparent]
    dsimp only
    have hreq' : finalizeBlockRequest E c parent c.bestBlock
        ((c.bestBlock.number.toNat : ℕ) : ℤ) = .ok req := hreq
    rw [hreq']
    show Calls.ofExcept (afterReplay E c c.bestBlock ⟨[], 0, []⟩) _ = _
    unfold afterReplay
    rw [htxs]
    rfl
  induction n generalizing i calls with
  | zero => exact ⟨calls, rfl⟩
  | succ n ih =>
    obtain ⟨calls', hcalls'⟩ := ih (i + 1)
      (fun j hj hj' => hundisturbed j (by omega) (by push_cast; omega))
      (calls ++ [.finalizeBlock req])
    refine ⟨calls', ?_⟩
    unfold replayLoop
    rw [hundisturbed i le_rfl (by push_cast; omega), if_neg Bool.false_ne_true, if_neg (by simp)]
    show EStateM.bind _ _ _ = _
    unfold EStateM.bind
    rw [hblock calls]
    exact hcalls'

/-! ## When a replay is complete -/

variable {info : InfoResponse}

/-- On a stored chain `ReplayBlocks` gets to the second half. -/
theorem Stores.replay_eq (hs : h.Stores E.H c) (hpos : 0 < info.lastBlockHeight)
    (calls : List AbciCall) :
    h.replay E app none info calls
      = h.catchUp E app c info.lastBlockAppHash info.lastBlockHeight calls := by
  have hopen : h.openChain E none info = .ok (.ok (c, info.lastBlockAppHash)) := by
    unfold openChain Chain.initialise
    rw [if_neg (by omega), if_neg hs.initialised, hs.load]
    rfl
  unfold replay
  rw [hopen]
  rfl

/-- Nothing is missing above the best block. -/
theorem missing_self (c : Chain) : missing c c.bestBlock.number.toNat = [] := by
  unfold missing
  rw [Nat.sub_self]
  rfl

theorem missing_length (c : Chain) (height : ℕ) :
    (missing c height).length = c.bestBlock.number.toNat - height := by
  unfold missing
  rw [List.length_map, List.length_range']

/-- **The last block, sent once for each missing one, is what was missing**
exactly if at most one block was. -/
theorem Stores.replicate_eq_missing_iff (hs : h.Stores E.H c) {height : ℕ}
    (hle : height ≤ c.bestBlock.number.toNat) :
    List.replicate (c.bestBlock.number.toNat - height) (c.bestBlock.id E.H) = missing c height
      ↔ c.bestBlock.number.toNat ≤ height + 1 := by
  have hlt := c.bestBlock.number.toNat_lt
  constructor
  · intro heq
    by_contra hmore
    -- the first missing block has another number than the last one
    have hnat : (UInt32.ofNat (height + 1)).toNat = height + 1 := by
      rw [UInt32.toNat_ofNat', Nat.mod_eq_of_lt (by omega)]
    obtain ⟨a, -, hnum, hid⟩ := hs.indexed (UInt32.ofNat (height + 1)) (by
      rw [UInt32.le_iff_toNat_le, hnat]
      omega)
    have hfirst : c.bestBlock.id E.H = c.loadBlockHash (UInt32.ofNat (height + 1)) := by
      have hget := congrArg (fun l => l[0]?) heq
      unfold missing at hget
      rw [show c.bestBlock.number.toNat - height
        = c.bestBlock.number.toNat - height - 1 + 1 by omega] at hget
      simpa [List.replicate_succ, List.range'_succ] using hget
    have hnumber := congrArg (fun id => (number id).toNat) (hfirst.trans hid)
    simp only [Block.number_id, hnum, hnat] at hnumber
    omega
  · intro hone
    rcases Nat.lt_or_ge height c.bestBlock.number.toNat with hlt' | hge
    · have hnum : UInt32.ofNat (height + 1) = c.bestBlock.number := by
        rw [show height + 1 = c.bestBlock.number.toNat by omega]
        exact UInt32.ofNat_toNat
      unfold missing
      rw [show c.bestBlock.number.toNat - height = 1 by omega]
      show [_] = [c.loadBlockHash (UInt32.ofNat (height + 1))]
      rw [hnum, hs.indexed.loadBlockHash_best]
    · unfold missing
      rw [show c.bestBlock.number.toNat - height = 0 by omega]
      rfl

/-- A chain object as it was made: the height of the store is read as zero,
so a call returns at once. -/
theorem Stores.replaysMissing_iff_of_none (hs : h.Stores E.H c) (hpos : 0 < info.lastBlockHeight)
    (hbest : h.best = none) :
    ReplaysMissing E h c info ↔ info.lastBlockHeight = c.bestBlock.number.toNat := by
  have hreplay : ∀ app calls,
      h.replay E app none info calls = .ok (.ok info.lastBlockAppHash) calls := by
    intro app calls
    rw [hs.replay_eq hpos, catchUp, storeBlockHeight, hbest]
    rfl
  constructor
  · intro hall
    obtain ⟨hbehind, hahead⟩ := hall quietApp []
    rcases le_or_gt info.lastBlockHeight c.bestBlock.number.toNat with hle | hgt
    · have hnone := (Sent.nil []).unique (hbehind hle _ _ (hreplay quietApp []))
      have hlength := congrArg List.length hnone
      rw [missing_length] at hlength
      simp only [List.length_nil] at hlength
      omega
    · obtain ⟨e, he⟩ := hahead hgt
      exact nomatch (hreplay quietApp []).symm.trans he
  · intro heq app calls
    refine ⟨fun _ appHash calls' hreturn => ?_, fun hgt => absurd heq (by omega)⟩
    obtain ⟨-, rfl⟩ := EStateM.Result.ok.inj ((hreplay app calls).symm.trans hreturn)
    rw [heq, Int.toNat_natCast, missing_self]
    exact .nil calls

/-- A chain object that was initialised, and an application that is not ahead
of its store. -/
theorem Stores.replaysMissing_iff_of_le (hs : h.Stores E.H c) (hpos : 0 < info.lastBlockHeight)
    (hbest : h.best = some c.bestBlock) (hle : info.lastBlockHeight ≤ c.bestBlock.number.toNat) :
    ReplaysMissing E h c info ↔ c.bestBlock.number.toNat ≤ info.lastBlockHeight + 1
      ∨ ¬ (Replayable E c ∧ h.Undisturbed (info.lastBlockHeight + 1)
        (c.bestBlock.number.toNat - info.lastBlockHeight).toNat) := by
  have hheight : h.storeBlockHeight = c.bestBlock.number.toNat := by
    rw [storeBlockHeight, hbest]
    rfl
  have hrounds : (c.bestBlock.number.toNat - info.lastBlockHeight).toNat
      = c.bestBlock.number.toNat - info.lastBlockHeight.toNat := by omega
  have hle' : info.lastBlockHeight.toNat ≤ c.bestBlock.number.toNat := by omega
  have hmissing := hs.replicate_eq_missing_iff hle'
  rw [← hrounds] at hmissing
  rcases eq_or_lt_of_le hle with heq | hlt
  · -- nothing is missing: the application hash is compared
    refine ⟨fun _ => .inl (by omega), fun _ app calls => ⟨fun _ appHash calls' hreturn => ?_,
      fun hgt => absurd hle (by omega)⟩⟩
    have hsame : Ensures (h.catchUp E app c info.lastBlockAppHash info.lastBlockHeight) calls
        (fun _ calls' => calls' = calls) (fun _ => True) := by
      unfold catchUp
      rw [hheight, if_neg (by omega), if_neg (by omega), if_neg (by omega)]
      simp only [ensures_bind, ensures_callsOfExcept, ensures_pure]
      exact ⟨fun _ _ => trivial, fun _ _ => trivial⟩
    obtain rfl := hsame.of_ok ((hs.replay_eq hpos calls).symm.trans hreturn)
    rw [heq, Int.toNat_natCast, missing_self]
    exact .nil _
  · have hreplay : ∀ app calls, h.replay E app none info calls
        = replayLoop E app h.done c c.bestBlock.number.toNat
          (c.bestBlock.number.toNat - info.lastBlockHeight).toNat (info.lastBlockHeight + 1) []
          calls := by
      intro app calls
      rw [hs.replay_eq hpos, catchUp, hheight, if_neg (by omega), if_neg (by omega), if_pos hlt]
      rfl
    have hlast : ∀ app calls appHash calls',
        h.replay E app none info calls = .ok (.ok appHash) calls' →
        Replayed E h c (c.bestBlock.number.toNat - info.lastBlockHeight).toNat
          (info.lastBlockHeight + 1) calls calls' := by
      intro app calls appHash calls' hreturn
      rw [hreplay] at hreturn
      exact (replayLoop_last hs _ _ _ _).of_ok hreturn appHash rfl
    constructor
    · intro hall
      by_contra hnot
      obtain ⟨hmore, hreplayable, hundisturbed⟩ : ¬ _ ∧ _ ∧ _ := by
        simpa only [not_or, not_not] using hnot
      obtain ⟨calls', hreturn⟩ := exists_replayLoop_quiet hs hreplayable _ _ hundisturbed []
      rw [← hreplay] at hreturn
      have hsent := (hall quietApp []).1 hle _ _ hreturn
      have := hmissing.mp ((hlast _ _ _ _ hreturn).sent.unique hsent)
      omega
    · intro hcond app calls
      refine ⟨fun _ appHash calls' hreturn => ?_, fun hgt => absurd hle (by omega)⟩
      have hdone := hlast _ _ _ _ hreturn
      rcases hcond with hone | hnot
      · rw [← hmissing.mpr (by omega)]
        exact hdone.sent
      · exact absurd ⟨hdone.replayable (by omega), hdone.undisturbed⟩ hnot

/-- A chain object that was initialised, and an application ahead of it. -/
theorem Stores.replaysMissing_iff_of_lt (hs : h.Stores E.H c) (hpos : 0 < info.lastBlockHeight)
    (hbest : h.best = some c.bestBlock) (hlt : c.bestBlock.number.toNat < info.lastBlockHeight) :
    ReplaysMissing E h c info ↔ c.bestBlock.number ≠ 0 := by
  have hheight : h.storeBlockHeight = c.bestBlock.number.toNat := by
    rw [storeBlockHeight, hbest]
    rfl
  constructor
  · intro hall hzero
    obtain ⟨e, he⟩ := (hall quietApp []).2 hlt
    rw [hs.replay_eq hpos, catchUp, hheight, hzero] at he
    exact nomatch he
  · intro hne app calls
    refine ⟨fun hle => absurd hlt (by omega), fun _ =>
      ⟨.appBlockHeightTooHigh c.bestBlock.number.toNat info.lastBlockHeight, ?_⟩⟩
    have hnonzero : c.bestBlock.number.toNat ≠ 0 := fun h0 => hne (UInt32.toNat.inj h0)
    rw [hs.replay_eq hpos, catchUp, hheight, if_neg (by omega), if_pos hlt]
    rfl

/-- **A replay is complete exactly under the condition.** -/
theorem replaysMissing_iff_replayRight (hs : h.Stores E.H c) {info : InfoResponse}
    (hpos : 0 < info.lastBlockHeight) :
    ReplaysMissing E h c info ↔ ReplayRight E h c info.lastBlockHeight := by
  unfold ReplayRight
  rcases hs.best with hbest | hbest
  · rw [hbest]
    exact hs.replaysMissing_iff_of_none hpos hbest
  rw [hbest]
  dsimp only
  split
  · exact hs.replaysMissing_iff_of_le hpos hbest ‹_›
  · exact hs.replaysMissing_iff_of_lt hpos hbest (by omega)

end Handshaker

namespace Testnet

/-- A store with two blocks above the genesis block, opened by a node: the
chain object is as `chain.New` makes it. -/
def reopened : Handshaker where
  kv := (addBlocks twoBlocks).kv
  best := none
  writeOK := fun _ => true
  supportedKeys := true
  saveOK := true
  done := fun _ => false

theorem exists_stores_reopened :
    ∃ c, reopened.Stores hashes c ∧ c.bestBlock = (addBlocks twoBlocks).bestBlock
      ∧ c.bestBlock.number = 2
      ∧ Handshaker.missing c 1 = [(addBlocks twoBlocks).bestBlock.id hashes] := by
  obtain ⟨hstored, hindexed⟩ := grown_twoBlocks
  obtain ⟨c, hload, hkv, hbest, -⟩ := Chain.exists_load reopened.kv reopened.writeOK genesis
    (addBlocks twoBlocks).bestBlock (by decide +kernel) (by decide +kernel) (by decide +kernel)
    (by decide +kernel)
  simp only [reopened] at hkv
  refine ⟨c, ⟨by decide +kernel, hload, hstored.congr hbest hkv, hindexed.congr hbest hkv,
    .inl rfl⟩, hbest, ?_, ?_⟩
  · rw [hbest]
    decide +kernel
  · unfold Handshaker.missing Chain.loadBlockHash
    rw [hbest, hkv]
    decide +kernel

/-- The store opened by a node whose chain object was initialised before. -/
def initialised : Handshaker := { reopened with best := some (addBlocks twoBlocks).bestBlock }

/-- A replay returns without an error, and has made one call. -/
def replaysOne (h : Handshaker) (info : InfoResponse) : Bool :=
  match h.replay env app none info [] with
  | .ok (.ok _) calls => calls.length == 1
  | _ => false

/-- An application that has one block of two: the other one is replayed, and
nothing else is. -/
theorem replaysMissing_of_one_missing :
    ∃ c, initialised.Stores hashes c ∧ Handshaker.missing c 1 ≠ []
      ∧ Handshaker.ReplaysMissing env initialised c ⟨1, []⟩
      ∧ replaysOne initialised ⟨1, []⟩ = true := by
  obtain ⟨c, hstores, hbest, hnumber, hmissing⟩ := exists_stores_reopened
  have hstores' : initialised.Stores hashes c := by
    unfold initialised
    rw [← hbest]
    exact hstores.initialise
  refine ⟨c, hstores', by simp [hmissing],
    (Handshaker.replaysMissing_iff_replayRight (E := env) hstores' (by decide)).mpr ?_,
    by decide +kernel⟩
  show if (1 : ℤ) ≤ c.bestBlock.number.toNat then _ else _
  rw [hnumber]
  exact .inl (by decide)

/-- **A missing block is not replayed.** The application has one block of two;
`ReplayBlocks` returns without an error and has sent it nothing. -/
theorem missing_block_not_replayed :
    ∃ c, reopened.Stores hashes c ∧ Handshaker.missing c 1 ≠ []
      ∧ reopened.replay env app none ⟨1, []⟩ [] = .ok (.ok []) []
      ∧ ¬ Handshaker.ReplaysMissing env reopened c ⟨1, []⟩ := by
  obtain ⟨c, hstores, -, hnumber, hmissing⟩ := exists_stores_reopened
  have hreplay : reopened.replay env app none ⟨1, []⟩ [] = .ok (.ok []) [] :=
    hstores.replay_eq (E := env) (by decide) []
  refine ⟨c, hstores, by rw [hmissing]; exact nofun, hreplay, fun hcomplete => ?_⟩
  have hone : (1 : ℤ) ≤ c.bestBlock.number.toNat := by
    rw [hnumber]
    decide
  have hsent := (hcomplete app []).1 hone _ _ hreplay
  have hnone := (Handshaker.Sent.nil []).unique hsent
  rw [show ((1 : ℤ).toNat) = 1 from rfl, hmissing] at hnone
  exact nomatch hnone

end Testnet

end LoragonBFT
