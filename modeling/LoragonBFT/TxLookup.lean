import LoragonBFT.Testnet
import LoragonBFT.TrunkIndex
import Mathlib.Data.List.Induction

/-!
# Looking up a transaction

`AddBlock` keeps, under the hash of every transaction, the places where it
stands: a block and an index, one after the other. It reads the places known
so far from the store and writes the longer list into its batch, so of a
transaction that stands twice in a block only the last place is kept.
`GetTrunkTransaction` takes the first place whose block is the one the index
of the trunk has under its number.

As long as every block is put on top of the best one that is right: the places
are those in the blocks of the trunk, and a transaction of a stored block of
the trunk is found. A hash no block has is another matter. The store has no
places for it, `loadRLP` hands no bytes to the decoder, and the decoder ends
with `io.EOF`. That is the error `GetTrunkTransaction` returns, and `IsNotFound`
knows one error only, which is another (`looksUp_iff`). `AddBlock` itself
compares the text of the error.
-/

namespace LoragonBFT

/-- The errors of `GetTrunkTransaction`. -/
inductive LookupErr where
  /-- `chain.ErrNotFound`. -/
  | notFound
  /-- `io.EOF`, of the RLP decoder. -/
  | eof
  /-- `getTransaction`: "tx index out of range". -/
  | indexOutOfRange
deriving DecidableEq, Repr

/-- `Chain.IsNotFound`. -/
def LookupErr.isNotFound (err : LookupErr) : Bool := err == .notFound

variable {H : Hashes}

namespace Chain

/-- `loadTxMeta`. The store reads a missing key as no bytes, and
`rlp.DecodeBytes` of no bytes ends with `io.EOF`. A list that was saved has a
place. -/
def loadTxMeta (c : Chain) (txID : Bytes32) : Except LookupErr (List TxMeta) :=
  match c.kv.txMeta txID with
  | [] => .error .eof
  | places => .ok places

/-- `Chain.getTransactionMeta`. -/
def getTransactionMeta (c : Chain) (txID : Bytes32) : Except LookupErr TxMeta :=
  match c.loadTxMeta txID with
  | .error err => .error err
  | .ok places =>
    match places.find? (fun m => c.loadBlockHash (number m.blockID) == m.blockID) with
    | some m => .ok m
    | none => .error .notFound

/-- `Chain.getTransaction`. -/
def getTransaction (c : Chain) (blockID : Bytes32) (index : UInt64) : Except LookupErr Bytes :=
  match c.getBlock blockID with
  | none => .error .notFound
  | some blk =>
    match blk.txs[index.toNat]? with
    | none => .error .indexOutOfRange
    | some tx => .ok tx

/-- `Chain.GetTrunkTransaction`. -/
def getTrunkTransaction (c : Chain) (txID : Bytes32) : Except LookupErr (Bytes × TxMeta) :=
  match c.getTransactionMeta txID with
  | .error err => .error err
  | .ok m =>
    match c.getTransaction m.blockID m.index with
    | .error err => .error err
    | .ok tx => .ok (tx, m)

/-- The block is on the trunk: the best block, or an ancestor of it. -/
def OnTrunk (c : Chain) (b : Block) : Prop := ∃ k, c.ancestor c.bestBlock k = some b

end Chain

/-- The block has a transaction with this hash. -/
def Block.HasTx (H : Hashes) (b : Block) (txID : Bytes32) : Prop := ∃ tx ∈ b.txs, H.sha256 tx = txID

/-- **The lookup of a transaction is sound and complete**: one that stands in a
block of the trunk is found, with a place where it stands, and one that does
not is not found. -/
structure Chain.LooksUp (H : Hashes) (c : Chain) (txID : Bytes32) : Prop where
  found : (∃ b, c.OnTrunk b ∧ b.HasTx H txID) → ∃ tx m, c.getTrunkTransaction txID = .ok (tx, m)
    ∧ H.sha256 tx = txID
    ∧ ∃ b, c.OnTrunk b ∧ b.id H = m.blockID ∧ b.txs[m.index.toNat]? = some tx
  absent : (¬ ∃ b, c.OnTrunk b ∧ b.HasTx H txID) →
    ∃ err, c.getTrunkTransaction txID = .error err ∧ err.isNotFound = true

/-! ## The places AddBlock writes -/

/-- The place `AddBlock` adds for a hash: that of the last transaction that
has it. -/
def Block.places (H : Hashes) (txID : Bytes32) (b : Block) : List TxMeta :=
  (b.txs.zipIdx.filter (fun tx => H.sha256 tx.1 = txID)).getLast?.toList.map
    (fun tx => ⟨b.id H, UInt64.ofNat tx.2⟩)

/-- A place of a transaction is one where it stands. -/
theorem Block.of_mem_places {b : Block} {txID : Bytes32} {m : TxMeta} (h : m ∈ b.places H txID) :
    ∃ tx i, m = ⟨b.id H, UInt64.ofNat i⟩ ∧ b.txs[i]? = some tx ∧ H.sha256 tx = txID := by
  obtain ⟨⟨tx, i⟩, hlast, rfl⟩ := List.mem_map.mp h
  have hmem := List.mem_of_getLast? (Option.mem_toList.mp hlast)
  obtain ⟨hzip, hhash⟩ := List.mem_filter.mp hmem
  exact ⟨tx, i, rfl, List.mem_zipIdx_iff_getElem?.mp hzip, of_decide_eq_true hhash⟩

/-- A block has a place for the hashes of its transactions, and no other. -/
theorem Block.places_eq_nil_iff {b : Block} {txID : Bytes32} :
    b.places H txID = [] ↔ ¬ b.HasTx H txID := by
  have hnil : b.places H txID = [] ↔ b.txs.zipIdx.filter (fun tx => H.sha256 tx.1 = txID) = [] := by
    unfold places
    rw [List.map_eq_nil_iff, Option.toList_eq_nil_iff, List.getLast?_eq_none_iff]
  rw [hnil, List.filter_eq_nil_iff]
  constructor
  · rintro h ⟨tx, htx, hhash⟩
    obtain ⟨i, hi⟩ := List.getElem?_of_mem htx
    exact h (tx, i) (List.mem_zipIdx_iff_getElem?.mpr hi) (decide_eq_true hhash)
  · rintro h ⟨tx, i⟩ hzip hhash
    have htx := List.mem_of_getElem? (List.mem_zipIdx_iff_getElem?.mp hzip)
    exact h ⟨tx, htx, of_decide_eq_true hhash⟩

/-- **What `AddBlock` makes of the places.** -/
theorem Chain.txMeta_saveBlock (kv : KV) (b : Block) (txID : Bytes32) :
    (saveBlock H kv b).txMeta txID = kv.txMeta txID ++ b.places H txID := by
  have hfold : ∀ l : List (Bytes × ℕ),
      l.foldl (fun metas tx => Function.update metas (H.sha256 tx.1)
          (kv.txMeta (H.sha256 tx.1) ++ [⟨b.id H, UInt64.ofNat tx.2⟩])) kv.txMeta txID
        = kv.txMeta txID ++ ((l.filter (fun tx => H.sha256 tx.1 = txID)).getLast?.toList.map
          (fun tx => (⟨b.id H, UInt64.ofNat tx.2⟩ : TxMeta))) := by
    intro l
    induction l using List.reverseRecOn with
    | nil => exact (List.append_nil _).symm
    | append_singleton l tx ih =>
      rw [List.foldl_append, List.filter_append, List.foldl_cons, List.foldl_nil]
      by_cases hhash : H.sha256 tx.1 = txID
      · -- the last place so far replaces the one before
        have hlast : [tx].filter (fun tx => H.sha256 tx.1 = txID) = [tx] := by simp [hhash]
        rw [hhash, Function.update_self, hlast, List.getLast?_concat]
        rfl
      · have hnone : [tx].filter (fun tx => H.sha256 tx.1 = txID) = [] := by simp [hhash]
        rw [Function.update_of_ne (Ne.symm hhash), ih, hnone, List.append_nil]
  exact hfold b.txs.zipIdx

/-! ## Blocks on top of the best one -/

namespace Chain

/-- The call adds a block on top of the best one. -/
def ExtendsBest (H : Hashes) (c : Chain) (call : Block × Option QuorumCert) : Prop :=
  call.1.parentID = c.bestBlock.id H ∧ c.bestBlock.number < call.1.number

/-- **What is stored is the trunk**, newest block first: its blocks stand in
the store and in the index, and the places of a transaction are those in its
blocks. The best block may be missing, if the store did not take it. -/
structure TrunkStored (H : Hashes) (c : Chain) (trunk : List Block) : Prop where
  stored : ∀ b ∈ trunk, c.getBlock (b.id H) = some b
  only : ∀ id b, c.getBlock id = some b → b ∈ trunk ∧ b.id H = id
  best : c.bestBlock ∈ trunk ∨ c.getBlock (c.bestBlock.id H) = none
  below : ∀ b ∈ trunk, b.number ≤ c.bestBlock.number
  onTrunk : ∀ b ∈ trunk, c.OnTrunk b
  indexed : ∀ b ∈ trunk, c.loadBlockHash b.number = b.id H
  places : ∀ txID, c.kv.txMeta txID = trunk.reverse.flatMap (Block.places H txID)
  sized : ∀ b ∈ trunk, b.txs.length < UInt64.size

section Growing

variable {c : Chain} {trunk : List Block} {blk : Block}

/-- A new best block has the trunk below it, if the old best block is
stored. -/
theorem TrunkStored.onTrunk_of_best (h : c.TrunkStored H trunk) {c' : Chain}
    (hparent : c.getBlock c'.bestBlock.parentID = some c.bestBlock)
    (hgrows : ∀ id b, c.getBlock id = some b → c'.getBlock id = some b) :
    ∀ b ∈ trunk, c'.OnTrunk b := by
  intro b hb
  obtain ⟨k, hk⟩ := h.onTrunk b hb
  refine ⟨k + 1, ?_⟩
  rw [ancestor_succ, hgrows _ _ hparent]
  exact ancestor_mono hgrows k hk

/-- A block above the best one is not in the store. -/
theorem TrunkStored.unstored (h : c.TrunkStored H trunk)
    (habove : c.bestBlock.number < blk.number) : c.kv.blocks (blk.id H) = none := by
  cases hblk : c.kv.blocks (blk.id H) with
  | none => rfl
  | some b =>
    obtain ⟨hmem, hid⟩ := h.only _ b hblk
    have hnumber : b.number = blk.number := by rw [← Block.number_id H b, hid, Block.number_id]
    exact absurd habove (UInt32.not_lt.mpr (hnumber ▸ h.below b hmem))

/-- **A block on top of the best one, once it is written**, is the new head of
the trunk. -/
theorem TrunkStored.withBest (h : c.TrunkStored H trunk) (qc : QuorumCert)
    (hparent : c.getBlock blk.parentID = some c.bestBlock)
    (habove : c.bestBlock.number < blk.number) (hsize : blk.txs.length < UInt64.size) :
    (c.withBest H blk qc).TrunkStored H (blk :: trunk) := by
  have hlt : ∀ b ∈ trunk, b.number < blk.number :=
    fun b hb => UInt32.lt_of_le_of_lt (h.below b hb) habove
  have hunstored := h.unstored habove
  have hgrows : ∀ id b, c.getBlock id = some b → (c.withBest H blk qc).getBlock id = some b :=
    getBlock_of_update rfl hunstored
  have hblocks : (c.withBest H blk qc).kv.blocks
      = Function.update c.kv.blocks (blk.id H) (some blk) := rfl
  have hself : (c.withBest H blk qc).getBlock (blk.id H) = some blk := by
    rw [getBlock, hblocks, Function.update_self]
  have hhash : ∀ n, (c.withBest H blk qc).loadBlockHash n
      = if n = blk.number then blk.id H else c.loadBlockHash n := loadBlockHash_of_update rfl
  refine ⟨List.forall_mem_cons.mpr ⟨hself, fun b hb => hgrows _ b (h.stored b hb)⟩,
    fun id b hb => ?_, .inl List.mem_cons_self,
    List.forall_mem_cons.mpr ⟨UInt32.le_refl _, fun b hb => UInt32.le_of_lt (hlt b hb)⟩,
    List.forall_mem_cons.mpr ⟨⟨0, rfl⟩, h.onTrunk_of_best hparent hgrows⟩,
    List.forall_mem_cons.mpr ⟨?_, fun b hb => ?_⟩, fun txID => ?_,
    List.forall_mem_cons.mpr ⟨hsize, h.sized⟩⟩
  · -- only
    rw [getBlock, hblocks, Function.update_apply] at hb
    split at hb
    next hid =>
      obtain rfl := Option.some.inj hb
      exact ⟨List.mem_cons_self, hid.symm⟩
    next =>
      obtain ⟨hmem, hid⟩ := h.only id b hb
      exact ⟨List.mem_cons_of_mem _ hmem, hid⟩
  · rw [hhash, if_pos rfl]
  · rw [hhash, if_neg (UInt32.ne_of_lt (hlt b hb)), h.indexed b hb]
  · show (saveBlock H c.kv blk).txMeta txID = _
    rw [txMeta_saveBlock, h.places, List.reverse_cons, List.flatMap_append, List.flatMap_singleton]

/-- **A block on top of the best one that the store did not take** leaves the
store as it is. -/
theorem TrunkStored.unwritten (h : c.TrunkStored H trunk) (qc : QuorumCert) (n : ℕ)
    (hparent : c.getBlock blk.parentID = some c.bestBlock)
    (habove : c.bestBlock.number < blk.number) :
    TrunkStored H { c with bestBlock := blk, bestQC := qc, batchWrites := n } trunk where
  stored := h.stored
  only := h.only
  best := .inr (h.unstored habove)
  below b hb := UInt32.le_trans (h.below b hb) (UInt32.le_of_lt habove)
  onTrunk := h.onTrunk_of_best hparent fun _ _ hb => hb
  indexed := h.indexed
  places := h.places
  sized := h.sized

/-- **One call**: what is stored stays the trunk. A call that comes to write
found the best block in the store. -/
theorem TrunkStored.step (h : c.TrunkStored H trunk) {call : Block × Option QuorumCert}
    (hcall : c.ExtendsBest H call) (hsize : call.1.txs.length < UInt64.size) :
    ∃ trunk', (c.afterAddBlock H call).TrunkStored H trunk' := by
  obtain ⟨blk, qc⟩ := call
  obtain ⟨hparentID, habove⟩ := hcall
  have htrue : c.isTrunk H blk.header = true := isTrunk_of_lt H habove
  have hparent : c.ReachesWrite H blk → c.getBlock blk.parentID = some c.bestBlock := by
    intro hreach
    obtain ⟨header, hheader⟩ := Option.isSome_iff_exists.mp hreach.2.1
    obtain ⟨b, hb, -⟩ := Option.map_eq_some_iff.mp hheader
    rw [hparentID] at hb ⊢
    rcases h.best with hmem | hnone
    · exact h.stored _ hmem
    · exact nomatch hnone.symm.trans hb
  unfold afterAddBlock
  cases hadd : c.addBlock H blk qc with
  | error fault => exact ⟨trunk, h⟩
  | ok r =>
    obtain ⟨result, c'⟩ := r
    cases addBlock_cases hadd with
    | refused => exact ⟨trunk, h⟩
    | extended fork qc hreach => exact ⟨_, h.withBest qc (hparent hreach) habove hsize⟩
    | unwritten e qc n hreach => exact ⟨_, h.unwritten qc n (hparent hreach) habove⟩
    | branched fork hreach hfalse => exact nomatch hfalse.symm.trans htrue
    | lost e n hreach hfalse => exact nomatch hfalse.symm.trans htrue

/-- **Every sequence of calls.** -/
theorem TrunkStored.play (h : c.TrunkStored H trunk) {calls : List (Block × Option QuorumCert)}
    (hplays : Machine.Plays (afterAddBlock H) (ExtendsBest H) c calls)
    (hsize : ∀ call ∈ calls, call.1.txs.length < UInt64.size) :
    ∃ trunk', (Machine.play (afterAddBlock H) c calls).TrunkStored H trunk' := by
  induction calls generalizing c trunk with
  | nil => exact ⟨trunk, h⟩
  | cons call calls ih =>
    obtain ⟨hcall, hrest⟩ := hplays
    obtain ⟨hfirst, hsizes⟩ := List.forall_mem_cons.mp hsize
    obtain ⟨trunk', h'⟩ := h.step hcall hfirst
    exact ih h' hrest hsizes

end Growing

/-- A fresh chain has the genesis block, which has no transactions. -/
theorem trunkStored_initializeStore (E : Env) {genesis : Block} (vset nextVSet : ValidatorSet)
    (writeOK : ℕ → Bool) (hnumber : genesis.number = 0) (htxs : genesis.txs = []) :
    (initializeStore E genesis vset nextVSet writeOK).TrunkStored E.H [genesis] := by
  have hget : ∀ id, (initializeStore E genesis vset nextVSet writeOK).getBlock id
      = if id = genesis.id E.H then some genesis else none := fun _ => rfl
  refine ⟨List.forall_mem_singleton.mpr ?_, fun id b hb => ?_, .inl List.mem_cons_self,
    List.forall_mem_singleton.mpr (UInt32.le_refl _), List.forall_mem_singleton.mpr ⟨0, rfl⟩,
    List.forall_mem_singleton.mpr ?_, fun txID => ?_, List.forall_mem_singleton.mpr ?_⟩
  · rw [hget, if_pos rfl]
  · obtain ⟨rfl, rfl⟩ := eq_of_blocks_initializeStore hb
    exact ⟨List.mem_cons_self, rfl⟩
  · have hhash : (initializeStore E genesis vset nextVSet writeOK).kv.hashes genesis.number
        = some (genesis.id E.H) := if_pos hnumber
    rw [loadBlockHash, hhash, Option.getD_some]
  · have hnil : genesis.places E.H txID = [] := by
      refine Block.places_eq_nil_iff.mpr ?_
      rintro ⟨tx, htx, -⟩
      rw [htxs] at htx
      cases htx
    show [] = [genesis].reverse.flatMap (Block.places E.H txID)
    rw [List.reverse_singleton, List.flatMap_singleton, hnil]
  · rw [htxs]
    decide

/-! ## The lookup -/

section Lookup

variable {c : Chain} {trunk : List Block} {txID : Bytes32}

/-- **A transaction of a stored block of the trunk is found.** All its places
are in blocks of the trunk, so the first one is taken. -/
theorem TrunkStored.found (h : c.TrunkStored H trunk) {b : Block} (hb : b ∈ trunk)
    (hhas : b.HasTx H txID) : ∃ tx m, c.getTrunkTransaction txID = .ok (tx, m)
      ∧ H.sha256 tx = txID ∧ ∃ b, c.OnTrunk b ∧ b.id H = m.blockID
        ∧ b.txs[m.index.toNat]? = some tx := by
  have hne : c.kv.txMeta txID ≠ [] := by
    intro hnil
    rw [h.places, List.flatMap_eq_nil_iff] at hnil
    exact Block.places_eq_nil_iff.mp (hnil b (List.mem_reverse.mpr hb)) hhas
  obtain ⟨m, ms, hplaces⟩ := List.exists_cons_of_ne_nil hne
  have hm : m ∈ trunk.reverse.flatMap (Block.places H txID) := by
    rw [← h.places, hplaces]
    exact List.mem_cons_self
  obtain ⟨b', hb', hm⟩ := List.mem_flatMap.mp hm
  have hb' := List.mem_reverse.mp hb'
  obtain ⟨tx, i, rfl, htx, hhash⟩ := Block.of_mem_places hm
  have hindex : (UInt64.ofNat i).toNat = i := by
    have hlt : i < UInt64.size := lt_trans (List.getElem?_eq_some_iff.mp htx).1 (h.sized b' hb')
    exact UInt64.toNat_ofNat_of_lt' hlt
  have hmeta : c.getTransactionMeta txID = .ok ⟨b'.id H, UInt64.ofNat i⟩ := by
    have hon : c.loadBlockHash (number (b'.id H)) = b'.id H := by
      rw [Block.number_id, h.indexed b' hb']
    unfold getTransactionMeta loadTxMeta
    rw [hplaces]
    dsimp only
    rw [List.find?_cons, beq_iff_eq.mpr hon]
  refine ⟨tx, ⟨b'.id H, UInt64.ofNat i⟩, ?_, hhash, b', h.onTrunk b' hb', rfl, ?_⟩
  · unfold getTrunkTransaction getTransaction
    rw [hmeta]
    dsimp only
    rw [h.stored b' hb']
    dsimp only
    rw [hindex, htx]
  · show b'.txs[(UInt64.ofNat i).toNat]? = some tx
    rw [hindex]
    exact htx

/-- **A transaction that no stored block has ends with `io.EOF`.** -/
theorem TrunkStored.eof (h : c.TrunkStored H trunk) (hnone : ∀ b ∈ trunk, ¬ b.HasTx H txID) :
    c.getTrunkTransaction txID = .error .eof := by
  have hplaces : c.kv.txMeta txID = [] := by
    rw [h.places, List.flatMap_eq_nil_iff]
    exact fun b hb => Block.places_eq_nil_iff.mpr (hnone b (List.mem_reverse.mp hb))
  unfold getTrunkTransaction getTransactionMeta loadTxMeta
  rw [hplaces]

/-- **That is never the right answer**: `IsNotFound` does not know the
error. -/
theorem not_looksUp_of_eof (heof : c.getTrunkTransaction txID = .error .eof) :
    ¬ c.LooksUp H txID := by
  intro hlooks
  by_cases htrunk : ∃ b, c.OnTrunk b ∧ b.HasTx H txID
  · obtain ⟨tx, m, hok, -⟩ := hlooks.found htrunk
    exact nomatch heof.symm.trans hok
  · obtain ⟨err, herr, hnotFound⟩ := hlooks.absent htrunk
    obtain rfl := Except.error.inj (heof.symm.trans herr)
    exact nomatch hnotFound

/-- Under which condition the lookup of a hash does what it should. -/
theorem TrunkStored.looksUp_iff (h : c.TrunkStored H trunk) :
    c.LooksUp H txID ↔
      ∃ b, c.OnTrunk b ∧ c.getBlock (b.id H) = some b ∧ b.HasTx H txID := by
  constructor
  · intro hlooks
    by_contra hnone
    exact not_looksUp_of_eof
      (h.eof fun b hb hhas => hnone ⟨b, h.onTrunk b hb, h.stored b hb, hhas⟩) hlooks
  · rintro ⟨b, hon, hstored, hhas⟩
    exact ⟨fun _ => h.found (h.only _ b hstored).1 hhas,
      fun habsent => absurd ⟨b, hon, hhas⟩ habsent⟩

end Lookup

end Chain

/-- **A transaction is looked up as it should exactly if a stored block of the
trunk has it.** The other hashes end with the error of the decoder, which does
not count as "not found". -/
theorem looksUp_iff_stored (E : Env) {genesis : Block} (vset nextVSet : ValidatorSet)
    (writeOK : ℕ → Bool) (hnumber : genesis.number = 0) (htxs : genesis.txs = [])
    {calls : List (Block × Option QuorumCert)}
    (hplays : Machine.Plays (Chain.afterAddBlock E.H) (Chain.ExtendsBest E.H)
      (Chain.initializeStore E genesis vset nextVSet writeOK) calls)
    (hsize : ∀ call ∈ calls, call.1.txs.length < UInt64.size) (txID : Bytes32) :
    let c := Machine.play (Chain.afterAddBlock E.H)
      (Chain.initializeStore E genesis vset nextVSet writeOK) calls
    c.LooksUp E.H txID ↔
      ∃ b, c.OnTrunk b ∧ c.getBlock (b.id E.H) = some b ∧ b.HasTx E.H txID := by
  obtain ⟨trunk, h⟩ := (Chain.trunkStored_initializeStore E vset nextVSet writeOK hnumber
    htxs).play hplays hsize
  exact h.looksUp_iff

namespace Testnet

/-- A block with two transactions, and a block on top of it that has the
second one again, twice. -/
def paidBlock : Block := block genesis 1 genesisQC [[5], [7]]

def paidAgain : Block := block paidBlock 2 (certificate paidBlock 1) [[7], [9], [7]]

def paidCalls : List (Block × Option QuorumCert) :=
  [(paidBlock, some (certificate paidBlock 1)), (paidAgain, some (certificate paidAgain 2))]

def paid : Chain := Machine.play (Chain.afterAddBlock hashes) chain paidCalls

theorem extendsBest_paidCalls :
    Machine.Plays (Chain.afterAddBlock hashes) (Chain.ExtendsBest hashes) chain paidCalls := by
  refine ⟨⟨?_, ?_⟩, ⟨?_, ?_⟩, trivial⟩
  all_goals decide +kernel

/-- **The transaction both blocks have is found where it stood first.** -/
theorem repeated_tx_looksUp :
    paid.kv.txMeta (hashes.sha256 [7]) = [⟨paidBlock.id hashes, 1⟩, ⟨paidAgain.id hashes, 2⟩]
      ∧ paid.LooksUp hashes (hashes.sha256 [7]) := by
  refine ⟨by decide +kernel, ?_⟩
  refine (looksUp_iff_stored env committee committee (fun _ => true) (by decide +kernel)
    (by decide +kernel) extendsBest_paidCalls (by decide) _).mpr
    ⟨paidBlock, ⟨1, ?_⟩, ?_, [7], ?_, rfl⟩
  all_goals decide +kernel

/-- **A transaction that no block of the trunk has.** The error is the
decoder's, and `IsNotFound` is false of it. -/
theorem unknown_tx_not_looksUp :
    Machine.Plays (Chain.afterAddBlock hashes) (Chain.ExtendsBest hashes) chain paidCalls
      ∧ (¬ ∃ b, paid.OnTrunk b ∧ b.HasTx hashes (hashes.sha256 [8]))
      ∧ paid.getTrunkTransaction (hashes.sha256 [8]) = .error .eof
      ∧ ¬ paid.LooksUp hashes (hashes.sha256 [8]) := by
  have heof : paid.getTrunkTransaction (hashes.sha256 [8]) = .error .eof := by
    have hplaces : paid.kv.txMeta (hashes.sha256 [8]) = [] := by decide +kernel
    unfold Chain.getTrunkTransaction Chain.getTransactionMeta Chain.loadTxMeta
    rw [hplaces]
  refine ⟨extendsBest_paidCalls, ?_, heof, Chain.not_looksUp_of_eof heof⟩
  rintro ⟨b, ⟨k, hk⟩, tx, htx, hhash⟩
  have hnone : ∀ k < 3, (paid.ancestor paid.bestBlock k).all
      (fun b => b.txs.all (fun tx => hashes.sha256 tx != hashes.sha256 [8])) = true := by
    decide +kernel
  have hend : paid.ancestor paid.bestBlock 3 = none := by decide +kernel
  rcases lt_or_ge k 3 with hlt | hge
  · have hall := hnone k hlt
    rw [hk, Option.all_some, List.all_eq_true] at hall
    exact bne_iff_ne.mp (hall tx htx) hhash
  · obtain ⟨j, rfl⟩ := Nat.exists_eq_add_of_le hge
    rw [Chain.ancestor_add, hend] at hk
    exact nomatch hk

end Testnet

end LoragonBFT
