import LoragonBFT.Codec
import LoragonBFT.Handshaker
import LoragonBFT.TrunkIndex

/-!
# What a restarted node finds

The chain keeps its blocks in a database of bytes. Under one letter and an
identifier stands the encoding of a block, under another letter and a number
the identifier of a block, and two keys of their own hold the identifier of the
best block and its certificate. `AddBlock` puts all it has to say into one
batch, and a batch is written as a whole or not at all.

A node that starts again reads the best block, the certificate and, to see that
it is looking at a chain, the block of number zero and the validator set that
block names. The module has the database byte by byte (`Disk`), with the writes
of `Initialize` and `AddBlock`, and says that it holds what the chain holds in
memory (`Mirrors`): keys do not run into each other, and what is decoded is
what was encoded.

So a restart finds the chain it left – as long as the block of number zero is
the genesis. Numbers have 32 bits. The block on top of the block `2 ^ 32 - 1`
is numbered zero again; it is stored beside the trunk, and its entry in the
index replaces that of the genesis.
-/

namespace LoragonBFT

/-- The protobuf encoding of validator sets: `ToProto` and `Marshal` one way,
`Unmarshal` and `ValidatorSetFromProto` the other. -/
structure ValidatorSetCodec where
  marshal : ValidatorSet → Bytes
  unmarshal : Bytes → Option ValidatorSet

/-! ## Transaction locations -/

namespace TxMeta

/-- A location as RLP encodes it. `Reverted` is never set. -/
def item (place : TxMeta) : Rlp.Item :=
  .list [.str (Bytes32.bytes place.blockID), .uint place.index.toNat, .uint 0]

/-- The location RLP decodes. -/
def ofItem : Rlp.Item → Option TxMeta
  | .list [blockID, index, _] => do
    let blockID ← blockID.array? 32
    let index ← index.uint? 8
    return ⟨BitVec.ofNat 256 (Rlp.beValue blockID), UInt64.ofNat index⟩
  | _ => none

theorem ofItem_item (place : TxMeta) : ofItem place.item = some place := by
  unfold item ofItem
  dsimp only
  rw [array?_bytes32, uint?_uint64]
  show some _ = some _
  rw [Bytes32.ofNat_beValue_bytes, UInt64.ofNat_toNat]

/-- The locations of a transaction. -/
def encodeAll (metas : List TxMeta) : Bytes := (Rlp.Item.list (metas.map item)).encode

/-- `loadTxMeta` of what is stored. -/
def decodeAll (raw : Bytes) : Option (List TxMeta) := do
  (← (← Rlp.decode raw).list?).mapM ofItem

theorem decodeAll_encodeAll {metas : List TxMeta} (h : (encodeAll metas).length < 2 ^ 64) :
    decodeAll (encodeAll metas) = some metas := by
  unfold decodeAll
  rw [encodeAll, Rlp.decode_encode _ h]
  exact Rlp.mapM_map ofItem_item metas

end TxMeta

/-! ## The database -/

/-- `types.BytesToBytes32`. -/
def bytesToBytes32 (data : Bytes) : Bytes32 := BitVec.ofNat 256 (Rlp.beValue data)

/-- What the database holds: bytes by key. -/
abbrev Disk := Bytes → Option Bytes

variable {key : Bytes} {c' : Chain} {fork : Fork} {calls : List (Block × QuorumCert)}

namespace Disk

/-- `blockPrefix`, and a block identifier. -/
def blockKey (id : Bytes32) : Bytes := 0x62 :: Bytes32.bytes id

/-- `hashKeyPrefix`, and a number. -/
def hashKey (num : UInt32) : Bytes := 0x68 :: Rlp.beBytes 4 num.toNat

/-- `txMetaPrefix`, and the hash of a transaction. -/
def txMetaKey (hash : Bytes32) : Bytes := 0x74 :: Bytes32.bytes hash

/-- `validatorPrefix`, and the hash of a validator set. -/
def validatorKey (hash : Bytes) : Bytes := 0x76 :: hash

/-- `bestBlockKey`: the text `best`. -/
def bestBlockKey : Bytes := [0x62, 0x65, 0x73, 0x74]

/-- `bestQCKey`: the text `best-qc`. -/
def bestQCKey : Bytes := [0x62, 0x65, 0x73, 0x74, 0x2d, 0x71, 0x63]

/-- `batch.Write`, of a batch that is taken. -/
def write (d : Disk) (batch : List (Bytes × Bytes)) : Disk :=
  batch.foldl (fun d entry => Function.update d entry.1 (some entry.2)) d

theorem write_append (d : Disk) (batch batch' : List (Bytes × Bytes)) :
    d.write (batch ++ batch') = (d.write batch).write batch' := List.foldl_append ..

theorem write_pair (d : Disk) (entry entry' : Bytes × Bytes) :
    d.write [entry, entry']
      = Function.update (Function.update d entry.1 (some entry.2)) entry'.1 (some entry'.2) := rfl

/-- A key that is not written keeps its value. -/
theorem write_of_ne {d : Disk} {batch : List (Bytes × Bytes)} (h : ∀ entry ∈ batch, entry.1 ≠ key) :
    d.write batch key = d key := by
  induction batch generalizing d with
  | nil => rfl
  | cons entry batch ih =>
    show Disk.write (Function.update d entry.1 (some entry.2)) batch key = d key
    rw [ih fun e he => h e (List.mem_cons_of_mem _ he),
      Function.update_of_ne (h entry List.mem_cons_self).symm]

/-- `loadBlockRaw`, decoded. -/
def loadBlock (d : Disk) (id : Bytes32) : Option Block :=
  (d (blockKey id)).bind blockDecodeFromBytes

/-- `loadBlockHash`. -/
def loadBlockHash (d : Disk) (num : UInt32) : Option Bytes32 := (d (hashKey num)).map bytesToBytes32

/-- `loadTxMeta`. -/
def loadTxMeta (d : Disk) (hash : Bytes32) : List TxMeta :=
  ((d (txMetaKey hash)).bind TxMeta.decodeAll).getD []

/-- `loadValidatorSet`. -/
def loadValidatorSet (C : ValidatorSetCodec) (d : Disk) (hash : Bytes) : Option ValidatorSet :=
  (d (validatorKey hash)).bind C.unmarshal

/-- `loadBestBlockID`: zero if there is none. -/
def loadBestBlockID (d : Disk) : Bytes32 := ((d bestBlockKey).map bytesToBytes32).getD 0

/-- `loadBestQC`. -/
def loadBestQC (d : Disk) : Option QuorumCert := (d bestQCKey).bind qcDecodeFromBytes

/-- The store as the chain reads it. Where there is no certificate,
`Initialize` writes that of the genesis. -/
def kv (H : Hashes) (C : ValidatorSetCodec) (d : Disk) : KV where
  blocks := d.loadBlock
  hashes := d.loadBlockHash
  txMeta := d.loadTxMeta
  validators := d.loadValidatorSet C
  bestBlockID := d.loadBestBlockID
  bestQC := d.loadBestQC.getD
    (((d.loadBlock ((d.loadBlockHash 0).getD 0)).bind (fun gene =>
      (d.loadValidatorSet C gene.header.nextValidatorsHash).map (fun nxtVSet =>
        genesisEscortQC H gene nxtVSet.size))).getD ⟨0, 0, 0, [], .new 0⟩)

/-- A new `Chain` over the database, and `Initialize(nil)`. -/
def reopen (E : Env) (C : ValidatorSetCodec) (d : Disk) (writeOK : ℕ → Bool) :
    Except Panic (Except Err Chain) :=
  Chain.initialise E (d.kv E.H C) writeOK none

/-! ## What is written -/

/-- `saveValidatorSet`, of a set that cannot be loaded yet. -/
def saveValidatorSet (E : Env) (C : ValidatorSetCodec) (d : Disk) (vset : ValidatorSet) : Disk :=
  if (d.loadValidatorSet C (E.validatorSetHash vset)).isSome then d
  else d.write [(validatorKey (E.validatorSetHash vset), C.marshal vset)]

/-- The batch of `Initialize`. -/
def genesisBatch (E : Env) (g : Genesis) : List (Bytes × Bytes) :=
  [(blockKey (g.block.id E.H), g.block.item.encode),
    (bestBlockKey, Bytes32.bytes (g.block.id E.H)),
    (hashKey 0, Bytes32.bytes (g.block.id E.H)),
    (bestQCKey, (genesisEscortQC E.H g.block g.nextValidatorSet.size).item.encode)]

/-- What `Initialize` leaves in an empty database. -/
def initialise (E : Env) (C : ValidatorSetCodec) (g : Genesis) : Disk :=
  (saveValidatorSet E C (saveValidatorSet E C (fun _ => none) g.validatorSet)
    g.nextValidatorSet).write (genesisBatch E g)

/-- The entries for the transactions of a block. -/
def txBatch (H : Hashes) (metas : Bytes32 → List TxMeta) (blk : Block) : List (Bytes × Bytes) :=
  blk.txs.zipIdx.map (fun tx => (txMetaKey (H.sha256 tx.1),
    TxMeta.encodeAll (metas (H.sha256 tx.1) ++ [⟨blk.id H, UInt64.ofNat tx.2⟩])))

/-- The entries for a block, wherever it is. -/
def blockBatch (H : Hashes) (metas : Bytes32 → List TxMeta) (blk : Block) : List (Bytes × Bytes) :=
  [(blockKey (blk.id H), blk.item.encode), (hashKey blk.number, Bytes32.bytes (blk.id H))]
    ++ txBatch H metas blk

/-- The batch of `AddBlock`. -/
def addBatch (H : Hashes) (c : Chain) (blk : Block) (qc : QuorumCert) : List (Bytes × Bytes) :=
  blockBatch H c.kv.txMeta blk
    ++ if c.isTrunk H blk.header then
        [(bestBlockKey, Bytes32.bytes (blk.id H)), (bestQCKey, qc.item.encode)]
      else []

/-! ## Keys do not run into each other -/

theorem blockKey_inj {id id' : Bytes32} : blockKey id = blockKey id' ↔ id = id' :=
  ⟨fun h => Bytes32.bytes_injective (List.cons.inj h).2, fun h => h ▸ rfl⟩

theorem txMetaKey_inj {hash hash' : Bytes32} : txMetaKey hash = txMetaKey hash' ↔ hash = hash' :=
  ⟨fun h => Bytes32.bytes_injective (List.cons.inj h).2, fun h => h ▸ rfl⟩

theorem hashKey_inj {num num' : UInt32} : hashKey num = hashKey num' ↔ num = num' := by
  refine ⟨fun h => UInt32.toNat.inj (Rlp.beBytes_injOn ?_ ?_ (List.cons.inj h).2), fun h => h ▸ rfl⟩
  · exact num.toNat_lt
  · exact num'.toNat_lt

/-- What a key is for: the places of the database. -/
inductive Place where
  | block
  | hash
  | txMeta
  | validators
  | bestBlock
  | bestQC
deriving DecidableEq

/-- The place of a key: by its first letter, and for the letter of the blocks
by its length. -/
def place (key : Bytes) : Option Place :=
  match key.head? with
  | some 0x62 => if key.length = 33 then some .block
    else if key.length = 4 then some .bestBlock else some .bestQC
  | some 0x68 => some .hash
  | some 0x74 => some .txMeta
  | some 0x76 => some .validators
  | _ => none

@[simp] theorem place_blockKey (id : Bytes32) : place (blockKey id) = some .block := by
  simp [place, blockKey, Bytes32.length_bytes]

@[simp] theorem place_hashKey (num : UInt32) : place (hashKey num) = some .hash := rfl

@[simp] theorem place_txMetaKey (hash : Bytes32) : place (txMetaKey hash) = some .txMeta := rfl

@[simp] theorem place_validatorKey (hash : Bytes) :
    place (validatorKey hash) = some .validators := rfl

@[simp] theorem place_bestBlockKey : place bestBlockKey = some .bestBlock := rfl

@[simp] theorem place_bestQCKey : place bestQCKey = some .bestQC := rfl

/-- Keys of different places are different. -/
theorem ne_of_place {key' : Bytes} (h : place key ≠ place key') : key ≠ key' :=
  fun heq => h (congrArg place heq)

variable {metas : Bytes32 → List TxMeta}

theorem place_of_mem_txBatch {H : Hashes} {blk : Block} {entry : Bytes × Bytes}
    (h : entry ∈ txBatch H metas blk) : place entry.1 = some .txMeta := by
  obtain ⟨tx, -, rfl⟩ := List.mem_map.mp h
  rfl

/-- A key of another place is not touched by the entries for transactions. -/
theorem write_txBatch {H : Hashes} {blk : Block} (hkey : place key ≠ some .txMeta) (d : Disk) :
    d.write (txBatch H metas blk) key = d key :=
  write_of_ne fun entry hentry => ne_of_place (by
    rw [place_of_mem_txBatch hentry]
    exact hkey.symm)

section AddBatch

variable {H : Hashes} (c : Chain) (blk : Block) (qc : QuorumCert) (d : Disk)

/-- The entries for the best block touch no other place. -/
theorem write_addBatch (hblock : place key ≠ some .bestBlock) (hqc : place key ≠ some .bestQC) :
    d.write (addBatch H c blk qc) key = d.write (blockBatch H c.kv.txMeta blk) key := by
  rw [addBatch, write_append]
  refine write_of_ne fun entry hentry => ?_
  split at hentry
  · rcases List.mem_pair.mp hentry with rfl | rfl
    · exact ne_of_place hblock.symm
    · exact ne_of_place hqc.symm
  · exact absurd hentry List.not_mem_nil

theorem write_blockBatch (key : Bytes) (hkey : place key ≠ some .txMeta) :
    d.write (blockBatch H c.kv.txMeta blk) key
      = if key = hashKey blk.number then some (Bytes32.bytes (blk.id H))
        else if key = blockKey (blk.id H) then some blk.item.encode else d key := by
  rw [blockBatch, write_append, write_txBatch hkey, write_pair, Function.update_apply,
    Function.update_apply]

/-- **The block is stored, and no other block is touched.** -/
theorem write_addBatch_blockKey (id : Bytes32) :
    d.write (addBatch H c blk qc) (blockKey id)
      = if id = blk.id H then some blk.item.encode else d (blockKey id) := by
  have hne : blockKey id ≠ hashKey blk.number := ne_of_place (by simp)
  rw [write_addBatch c blk qc d (by simp) (by simp), write_blockBatch c blk d _ (by simp),
    if_neg hne]
  simp only [blockKey_inj]

theorem write_addBatch_hashKey (num : UInt32) :
    d.write (addBatch H c blk qc) (hashKey num)
      = if num = blk.number then some (Bytes32.bytes (blk.id H)) else d (hashKey num) := by
  have hne : hashKey num ≠ blockKey (blk.id H) := ne_of_place (by simp)
  rw [write_addBatch c blk qc d (by simp) (by simp), write_blockBatch c blk d _ (by simp),
    if_neg hne]
  simp only [hashKey_inj]

theorem write_addBatch_validatorKey (hash : Bytes) :
    d.write (addBatch H c blk qc) (validatorKey hash) = d (validatorKey hash) := by
  rw [write_addBatch c blk qc d (by simp) (by simp), write_blockBatch c blk d _ (by simp),
    if_neg (ne_of_place (by simp)), if_neg (ne_of_place (by simp))]

/-- The keys of the best block change with it. -/
theorem write_addBatch_best :
    d.write (addBatch H c blk qc) bestBlockKey
        = (if c.isTrunk H blk.header then some (Bytes32.bytes (blk.id H)) else d bestBlockKey)
      ∧ d.write (addBatch H c blk qc) bestQCKey
        = if c.isTrunk H blk.header then some qc.item.encode else d bestQCKey := by
  rw [addBatch, write_append]
  split
  · rw [write_pair]
    refine ⟨?_, Function.update_self ..⟩
    rw [Function.update_of_ne (ne_of_place (by simp)), Function.update_self]
  · show d.write (blockBatch H c.kv.txMeta blk) _ = _ ∧ d.write (blockBatch H c.kv.txMeta blk) _ = _
    rw [write_blockBatch c blk d _ (by simp), write_blockBatch c blk d _ (by simp),
      if_neg (ne_of_place (by simp)), if_neg (ne_of_place (by simp)),
      if_neg (ne_of_place (by simp)), if_neg (ne_of_place (by simp))]
    exact ⟨rfl, rfl⟩

/-- **The locations of the transactions are stored as they are kept in
memory**: entry by entry, the last one counts. -/
theorem loadTxMeta_write_txBatch (before : Bytes32 → List TxMeta)
    (hfits : ∀ entry ∈ txBatch H metas blk, entry.2.length < 2 ^ 64)
    (h : ∀ hash, d.loadTxMeta hash = before hash) (hash : Bytes32) :
    (d.write (txBatch H metas blk)).loadTxMeta hash
      = blk.txs.zipIdx.foldl (fun kept tx => Function.update kept (H.sha256 tx.1)
          (metas (H.sha256 tx.1) ++ [⟨blk.id H, UInt64.ofNat tx.2⟩])) before hash := by
  unfold txBatch at hfits ⊢
  generalize blk.txs.zipIdx = txs at hfits ⊢
  induction txs generalizing d before with
  | nil => exact h hash
  | cons tx txs ih =>
    refine ih (Function.update d _ _) _ (fun hash' => ?_)
      fun entry he => hfits entry (List.mem_cons_of_mem _ he)
    unfold loadTxMeta
    simp only [Function.update_apply, txMetaKey_inj]
    split
    · rw [Option.bind_some, TxMeta.decodeAll_encodeAll (hfits _ List.mem_cons_self)]
      rfl
    · exact h hash'

end AddBatch

end Disk

/-! ## The database holds what the chain holds -/

section Mirrors

open Disk

variable {E : Env} {C : ValidatorSetCodec}

/-- **The database holds what the chain holds in memory**, up to the words of
the bit arrays. -/
structure Mirrors (E : Env) (d : Disk) (c : Chain) : Prop where
  blocks : ∀ id, d.loadBlock id = (c.kv.blocks id).map Block.wire
  hashes : ∀ num, d.loadBlockHash num = c.kv.hashes num
  txMeta : ∀ hash, d.loadTxMeta hash = c.kv.txMeta hash
  bestBlock : d.loadBestBlockID = c.bestBlock.id E.H
  bestQC : d.loadBestQC = some c.bestQC.wire

theorem bytesToBytes32_bytes (x : Bytes32) : bytesToBytes32 (Bytes32.bytes x) = x :=
  Bytes32.ofNat_beValue_bytes x

/-- **What an `AddBlock` that succeeds has done.** -/
theorem Chain.eq_of_addBlock_ok {H : Hashes} {c : Chain} {blk : Block} {qc : QuorumCert}
    (h : c.addBlock H blk (some qc) = .ok (.ok fork, c')) :
    c' = if c.isTrunk H blk.header then c.withBest H blk qc else c.withBranch H blk := by
  cases Chain.addBlock_cases h with
  | extended fork qc' reached trunk qc_eq => rw [if_pos trunk, Option.some.inj qc_eq]
  | branched fork reached trunk => rw [trunk, if_neg Bool.false_ne_true]

/-- The block, its number and its transactions are in the store. -/
theorem Chain.kv_of_addBlock_ok {H : Hashes} {c : Chain} {blk : Block} {qc : QuorumCert}
    (h : c.addBlock H blk (some qc) = .ok (.ok fork, c')) :
    c'.kv.blocks = Function.update c.kv.blocks (blk.id H) (some blk)
      ∧ c'.kv.hashes = Function.update c.kv.hashes blk.number (some (blk.id H))
      ∧ c'.kv.txMeta = (Chain.saveBlock H c.kv blk).txMeta := by
  rw [Chain.eq_of_addBlock_ok h]
  split <;> exact ⟨rfl, rfl, rfl⟩

/-- **One `AddBlock` that succeeds.** -/
theorem Mirrors.addBlock {d : Disk} {c : Chain} (h : Mirrors E d c) {blk : Block} {qc : QuorumCert}
    (hadd : c.addBlock E.H blk (some qc) = .ok (.ok fork, c'))
    (hfits : ∀ entry ∈ addBatch E.H c blk qc, entry.2.length < 2 ^ 64) :
    Mirrors E (d.write (addBatch E.H c blk qc)) c' := by
  obtain ⟨hblocks, hhashes, htxMeta⟩ := Chain.kv_of_addBlock_ok hadd
  have hblk := hfits (blockKey (blk.id E.H), blk.item.encode)
    (List.mem_append_left _ (List.mem_append_left _ List.mem_cons_self))
  have hbest := write_addBatch_best (H := E.H) c blk qc d
  refine ⟨fun id => ?_, fun num => ?_, fun hash => ?_, ?_, ?_⟩
  · rw [loadBlock, write_addBatch_blockKey, hblocks, Function.update_apply]
    split
    · rw [Option.bind_some, blockDecodeFromBytes_encode hblk]
      rfl
    · exact h.blocks id
  · rw [Disk.loadBlockHash, write_addBatch_hashKey, hhashes, Function.update_apply]
    split
    · rw [Option.map_some, bytesToBytes32_bytes]
    · exact h.hashes num
  · rw [loadTxMeta, write_addBatch c blk qc d (by simp) (by simp), htxMeta, blockBatch,
      write_append]
    refine loadTxMeta_write_txBatch blk _ c.kv.txMeta (fun entry hentry => ?_) (fun hash' => ?_)
      hash
    · exact hfits entry (List.mem_append_left _ (List.mem_append_right _ hentry))
    · rw [loadTxMeta, write_pair, Function.update_of_ne (ne_of_place (by simp)),
        Function.update_of_ne (ne_of_place (by simp))]
      exact h.txMeta hash'
  · rw [loadBestBlockID, hbest.1, Chain.eq_of_addBlock_ok hadd]
    split
    · rw [Option.map_some, bytesToBytes32_bytes]
      rfl
    · exact h.bestBlock
  · rw [loadBestQC, hbest.2, Chain.eq_of_addBlock_ok hadd]
    split
    · rename_i htrunk
      have hmem : (bestQCKey, qc.item.encode) ∈ addBatch E.H c blk qc := by
        refine List.mem_append_right _ ?_
        rw [if_pos htrunk]
        exact List.mem_cons_of_mem _ List.mem_cons_self
      have hqc := hfits _ hmem
      rw [Option.bind_some, qcDecodeFromBytes_encode hqc]
      rfl
    · exact h.bestQC

/-- A set that was saved can be loaded, if its encoding can be read. -/
theorem isSome_loadValidatorSet_saveValidatorSet {vset : ValidatorSet}
    (h : C.unmarshal (C.marshal vset) = some vset) (d : Disk) :
    ((saveValidatorSet E C d vset).loadValidatorSet C (E.validatorSetHash vset)).isSome = true := by
  unfold saveValidatorSet
  split
  · assumption
  · have hget : d.write [(validatorKey (E.validatorSetHash vset), C.marshal vset)]
        (validatorKey (E.validatorSetHash vset)) = some (C.marshal vset) := Function.update_self ..
    rw [loadValidatorSet, hget, Option.bind_some, h]
    rfl

/-- Saving a set touches no other place. -/
theorem saveValidatorSet_of_place {vset : ValidatorSet} (hkey : place key ≠ some .validators)
    (d : Disk) : saveValidatorSet E C d vset key = d key := by
  unfold saveValidatorSet
  split
  · rfl
  · refine write_of_ne fun entry hentry => ?_
    rw [List.mem_singleton.mp hentry]
    exact ne_of_place hkey.symm

/-- **The database after `Initialize`**, place by place. -/
theorem initialise_apply (g : Genesis) (hkey : place key ≠ some .validators) :
    Disk.initialise E C g key
      = if key = bestQCKey then
          some (genesisEscortQC E.H g.block g.nextValidatorSet.size).item.encode
        else if key = hashKey 0 then some (Bytes32.bytes (g.block.id E.H))
        else if key = bestBlockKey then some (Bytes32.bytes (g.block.id E.H))
        else if key = blockKey (g.block.id E.H) then some g.block.item.encode else none := by
  show Function.update (Function.update (Function.update (Function.update
    (saveValidatorSet E C (saveValidatorSet E C _ _) _) _ _) _ _) _ _) _ _ key = _
  rw [Function.update_apply, Function.update_apply, Function.update_apply, Function.update_apply,
    saveValidatorSet_of_place hkey, saveValidatorSet_of_place hkey]

/-- **The database mirrors a chain that was just initialised.** -/
theorem Mirrors.initialise (g : Genesis) (writeOK : ℕ → Bool)
    (hfits : ∀ entry ∈ genesisBatch E g, entry.2.length < 2 ^ 64) :
    Mirrors E (Disk.initialise E C g)
      (.initializeStore E g.block g.validatorSet g.nextValidatorSet writeOK) := by
  have hblk := hfits (blockKey (g.block.id E.H), g.block.item.encode) List.mem_cons_self
  have hqc := hfits (bestQCKey, (genesisEscortQC E.H g.block g.nextValidatorSet.size).item.encode)
    (by simp [genesisBatch])
  refine ⟨fun id => ?_, fun num => ?_, fun hash => ?_, ?_, ?_⟩
  · rw [loadBlock, initialise_apply g (by simp), if_neg (ne_of_place (by simp)),
      if_neg (ne_of_place (by simp)), if_neg (ne_of_place (by simp))]
    simp only [blockKey_inj]
    show _ = Option.map Block.wire (if id = g.block.id E.H then some g.block else none)
    split
    · rw [Option.bind_some, blockDecodeFromBytes_encode hblk]
      rfl
    · rfl
  · rw [Disk.loadBlockHash, initialise_apply g (by simp), if_neg (ne_of_place (by simp))]
    simp only [hashKey_inj]
    show _ = if num = 0 then some (g.block.id E.H) else none
    split
    · rw [Option.map_some, bytesToBytes32_bytes]
    · rw [if_neg (ne_of_place (by simp)), if_neg (ne_of_place (by simp))]
      rfl
  · rw [loadTxMeta, initialise_apply g (by simp), if_neg (ne_of_place (by simp)),
      if_neg (ne_of_place (by simp)), if_neg (ne_of_place (by simp)),
      if_neg (ne_of_place (by simp))]
    rfl
  · rw [loadBestBlockID, initialise_apply g (by simp), if_neg (ne_of_place (by simp)),
      if_neg (ne_of_place (by simp)), if_pos rfl, Option.map_some, bytesToBytes32_bytes]
    rfl
  · rw [loadBestQC, initialise_apply g (by simp), if_pos rfl, Option.bind_some,
      qcDecodeFromBytes_encode hqc]
    rfl

end Mirrors

/-! ## Restarting -/

section Restart

open Disk

variable {E : Env} {C : ValidatorSetCodec} {g : Genesis} {writeOK : ℕ → Bool}

/-- **A sequence of successful `AddBlock` calls from an initialised chain**, with
the database it leaves behind. Each block comes with a certificate that
certifies it. What is written is a slice of bytes, so it is shorter than
`2 ^ 64`. -/
inductive Persisted (E : Env) (C : ValidatorSetCodec) (g : Genesis) (writeOK : ℕ → Bool) :
    List (Block × QuorumCert) → Chain → Disk → Prop
  | fresh (fits : ∀ entry ∈ genesisBatch E g, entry.2.length < 2 ^ 64) :
      Persisted E C g writeOK []
        (.initializeStore E g.block g.validatorSet g.nextValidatorSet writeOK)
        (Disk.initialise E C g)
  | add {calls : List (Block × QuorumCert)} {c c' : Chain} {d : Disk} {blk : Block}
      {qc : QuorumCert} {fork : Fork} (run : Persisted E C g writeOK calls c d)
      (added : c.addBlock E.H blk (some qc) = .ok (.ok fork, c'))
      (certifies : qc.blockID = blk.id E.H)
      (fits : ∀ entry ∈ addBatch E.H c blk qc, entry.2.length < 2 ^ 64) :
      Persisted E C g writeOK (calls ++ [(blk, qc)]) c' (d.write (addBatch E.H c blk qc))

/-- **Along the way the database mirrors the chain.** -/
theorem Persisted.mirrors {c : Chain} {d : Disk} (run : Persisted E C g writeOK calls c d) :
    Mirrors E d c := by
  induction run with
  | fresh fits => exact .initialise g writeOK fits
  | add run added certifies fits ih => exact ih.addBlock added fits

/-- **A chain is recovered**: it has the same best block, the same best
certificate, and the same blocks. -/
structure Recovers (E : Env) (c c' : Chain) : Prop where
  bestBlock : c'.bestBlock.id E.H = c.bestBlock.id E.H
  bestQC : c.bestQC.Same c'.bestQC
  blocks : ∀ id b, c.getBlock id = some b → ∃ b', c'.getBlock id = some b'
    ∧ b'.header = b.header ∧ b'.txs = b.txs ∧ b.qc.Same b'.qc

/-- What has to hold of a chain for a restart to find it: the best block is
stored, with its own certificate, and number zero is the genesis. -/
structure Rooted (E : Env) (g : Genesis) (c : Chain) : Prop where
  best_ne : c.bestBlock.id E.H ≠ 0
  best_stored : c.kv.blocks (c.bestBlock.id E.H) = some c.bestBlock
  certified : c.bestQC.blockID = c.bestBlock.id E.H
  genesis_indexed : c.kv.hashes 0 = some (g.block.id E.H)
  genesis_stored : c.kv.blocks (g.block.id E.H) = some g.block

/-- A block that is written over a stored one is above the best block. -/
theorem Chain.ReachesWrite.lt_number {H : Hashes} {c : Chain} {blk b : Block}
    (h : c.ReachesWrite H blk) (hb : c.kv.blocks (blk.id H) = some b) :
    c.bestBlock.number < blk.number := by
  have hexists := h.1
  unfold Chain.blockExists Chain.getBlockHeader at hexists
  rw [hb] at hexists
  simp only [Option.map_some] at hexists
  split at hexists
  · have hnot := of_decide_eq_false hexists
    rw [Block.number_id] at hnot
    exact UInt32.not_le.mp hnot
  · exact nomatch hexists

theorem Rooted.initializeStore (hid : g.block.id E.H ≠ 0) :
    Rooted E g (.initializeStore E g.block g.validatorSet g.nextValidatorSet writeOK) := by
  have hstored : (if g.block.id E.H = g.block.id E.H then some g.block else none)
      = some g.block := if_pos rfl
  exact ⟨hid, hstored, rfl, rfl, hstored⟩

/-- **A block with a number keeps the genesis in its place.** -/
theorem Rooted.addBlock {c : Chain} (h : Rooted E g c) {blk : Block} {qc : QuorumCert}
    (hnumber : g.block.number = 0) (hadd : c.addBlock E.H blk (some qc) = .ok (.ok fork, c'))
    (hcertifies : qc.blockID = blk.id E.H) (hne : blk.number ≠ 0) : Rooted E g c' := by
  have hgenesis : g.block.id E.H ≠ blk.id E.H := fun heq => by
    have := congrArg number heq
    rw [Block.number_id, Block.number_id, hnumber] at this
    exact hne this.symm
  have hid : blk.id E.H ≠ 0 := fun hzero => by
    have hnum := Block.number_id E.H blk
    rw [hzero] at hnum
    exact hne hnum.symm
  obtain ⟨hblocks, hhashes, -⟩ := Chain.kv_of_addBlock_ok hadd
  have hindexed : c'.kv.hashes 0 = some (g.block.id E.H) := by
    rw [hhashes, Function.update_of_ne hne.symm, h.genesis_indexed]
  have hstored : c'.kv.blocks (g.block.id E.H) = some g.block := by
    rw [hblocks, Function.update_of_ne hgenesis, h.genesis_stored]
  cases Chain.addBlock_cases hadd with
  | extended fork qc' reached trunk qc_eq =>
    obtain rfl := Option.some.inj qc_eq
    refine ⟨hid, ?_, hcertifies, hindexed, hstored⟩
    rw [hblocks]
    exact Function.update_self ..
  | branched fork reached trunk =>
    have hbest : c.bestBlock.id E.H ≠ blk.id E.H := fun heq => by
      have hlt := reached.lt_number (heq ▸ h.best_stored)
      have hnumber := congrArg number heq
      rw [Block.number_id, Block.number_id] at hnumber
      rw [hnumber] at hlt
      exact UInt32.lt_irrefl _ hlt
    refine ⟨h.best_ne, ?_, h.certified, hindexed, hstored⟩
    rw [hblocks]
    exact (Function.update_of_ne hbest ..).trans h.best_stored

/-- **A rooted chain is found again.** -/
theorem Mirrors.recovers {d : Disk} {c : Chain} (h : Mirrors E d c) (hrooted : Rooted E g c)
    (hvset : (d.loadValidatorSet C g.block.header.nextValidatorsHash).isSome = true)
    (writeOK' : ℕ → Bool) : ∃ c', d.reopen E C writeOK' = .ok (.ok c') ∧ Recovers E c c' := by
  have hbestID : (d.kv E.H C).bestBlockID = c.bestBlock.id E.H := h.bestBlock
  have hbestQC : (d.kv E.H C).bestQC = c.bestQC.wire := by
    show d.loadBestQC.getD _ = _
    rw [h.bestQC]
    rfl
  have hgene : (d.kv E.H C).blocks (((d.kv E.H C).hashes 0).getD 0) = some g.block.wire := by
    show d.loadBlock ((d.loadBlockHash 0).getD 0) = _
    rw [h.hashes, hrooted.genesis_indexed, Option.getD_some, h.blocks, hrooted.genesis_stored]
    rfl
  have hbest : (d.kv E.H C).blocks (d.kv E.H C).bestBlockID = some c.bestBlock.wire := by
    rw [hbestID]
    show d.loadBlock _ = _
    rw [h.blocks, hrooted.best_stored]
    rfl
  have hnumber : c.bestBlock.wire.number ≤ (d.kv E.H C).bestQC.number := by
    rw [hbestQC]
    show c.bestBlock.number ≤ number c.bestQC.blockID
    rw [hrooted.certified, Block.number_id]
    exact UInt32.le_refl _
  obtain ⟨c', hload, hkv, hbest', hqc'⟩ :=
    Chain.exists_load (d.kv E.H C) writeOK' g.block.wire c.bestBlock.wire hgene hvset hbest hnumber
  refine ⟨c', ?_, ?_, ?_, fun id b hb => ?_⟩
  · unfold Disk.reopen Chain.initialise
    rw [hbestID, if_neg hrooted.best_ne, hload]
  · rw [hbest']
    rfl
  · rw [hqc', hbestQC]
    exact c.bestQC.same_wire
  · refine ⟨b.wire, ?_, rfl, rfl, b.qc.same_wire⟩
    show c'.kv.blocks id = _
    rw [hkv]
    show d.loadBlock id = _
    rw [h.blocks, show c.kv.blocks id = some b from hb]
    rfl

/-- **A restart recovers the chain.** A chain is initialised from a genesis and
grows by successful calls of `AddBlock`, none of which adds a block of number
zero. A new chain over its database has the same best block, the same best
certificate and the same blocks. -/
theorem restart_recovers {timestamp : UInt64} {extraData : Bytes32}
    {vset nextVSet : ValidatorSet}
    (hid : (Genesis.build E timestamp extraData vset nextVSet).block.id E.H ≠ 0)
    (hvset : C.unmarshal (C.marshal nextVSet) = some nextVSet)
    {calls : List (Block × QuorumCert)} {c : Chain} {d : Disk}
    (run : Persisted E C (.build E timestamp extraData vset nextVSet) writeOK calls c d)
    (hnumbers : ∀ call ∈ calls, call.1.number ≠ 0) (writeOK' : ℕ → Bool) :
    ∃ c', d.reopen E C writeOK' = .ok (.ok c') ∧ Recovers E c c' := by
  have hnumber := Genesis.number_build E timestamp extraData vset nextVSet
  have hinv : Rooted E (.build E timestamp extraData vset nextVSet) c
      ∧ (d.loadValidatorSet C (E.validatorSetHash nextVSet)).isSome = true := by
    induction run with
    | fresh fits =>
      refine ⟨.initializeStore hid, ?_⟩
      have hkept : Disk.initialise E C (.build E timestamp extraData vset nextVSet)
          (validatorKey (E.validatorSetHash nextVSet))
          = saveValidatorSet E C (saveValidatorSet E C (fun _ => none) vset) nextVSet
            (validatorKey (E.validatorSetHash nextVSet)) := by
        refine write_of_ne fun entry hentry => ne_of_place ?_
        simp only [genesisBatch, List.mem_cons, List.not_mem_nil, or_false] at hentry
        rcases hentry with rfl | rfl | rfl | rfl <;> simp
      rw [loadValidatorSet, hkept]
      exact isSome_loadValidatorSet_saveValidatorSet hvset _
    | @add calls c c' d blk qc fork run added certifies fits ih =>
      obtain ⟨hrooted, hset⟩ :=
        ih fun call hcall => hnumbers call (List.mem_append_left _ hcall)
      have hne : blk.number ≠ 0 := hnumbers (blk, qc) (List.mem_append_right _ List.mem_cons_self)
      refine ⟨hrooted.addBlock hnumber added certifies hne, ?_⟩
      rw [loadValidatorSet, write_addBatch_validatorKey]
      exact hset
  exact run.mirrors.recovers hinv.1 hinv.2 writeOK'

end Restart

namespace Testnet

open Disk

/-! ## A chain as long as there are numbers

To follow a chain past its last number its identifiers are made readable: a
digest is the index of the proposer, plus one. -/

/-- Digests that can be read. -/
def plainHashes : Hashes :=
  { hashes with blake2b := fun bytes => BitVec.ofNat 256 (Rlp.beValue (bytes.drop 32) + 1) }

/-- The libraries with these digests. -/
def plainEnv : Env := { env with H := plainHashes }

/-- Validator sets by their keys. -/
def plainCodec : ValidatorSetCodec where
  marshal := env.validatorSetHash
  unmarshal raw := if raw = env.validatorSetHash committee then some committee else none

/-- The genesis. -/
def plainGenesis : Genesis := .build plainEnv 0 0 committee committee

/-- A block on top of another one. -/
def onTop (parent : Block) (proposerIndex : UInt32) (nextValidatorsHash : Bytes) : Block :=
  Builder.build plainHashes
    { parentID := parent.id plainHashes, timestamp := 1, nonce := 0, validatorsHash := [],
      nextValidatorsHash, proposerIndex, lastKBlock := 0, qc := ⟨0, 0, 0, [], .new 0⟩, txs := [] }

/-- A certificate of a block. -/
def certifying (b : Block) : QuorumCert := ⟨0, 0, b.id plainHashes, [], .new 0⟩

theorem plain_digest (b : Block) :
    b.id plainHashes
      = putNumber b.number (BitVec.ofNat 256 (b.header.proposerIndex.toNat + 1)) := by
  have hdrop : (b.header.idPreimage plainHashes).drop 32
      = Rlp.beBytes 4 b.header.proposerIndex.toNat := by
    rw [Header.idPreimage, List.drop_left' (Bytes32.length_bytes _)]
  show putNumber _
    (BitVec.ofNat 256 (Rlp.beValue ((b.header.idPreimage plainHashes).drop 32) + 1)) = _
  rw [hdrop, Rlp.beValue_beBytes b.header.proposerIndex.toNat_lt]
  rfl

/-- The number of a block on top of one that is not the genesis of another
chain. -/
theorem number_onTop {parent : Block} (h : parent.id plainHashes ≠ 0) (proposerIndex : UInt32)
    (nextValidatorsHash : Bytes) :
    (onTop parent proposerIndex nextValidatorsHash).number = parent.number + 1 := by
  show (if parent.id plainHashes = 0 then 0 else number (parent.id plainHashes) + 1) = _
  rw [if_neg h, Block.number_id]

/-- A certificate without a signature is short. -/
theorem weight_certificate (blockID : Bytes32) :
    (QuorumCert.item ⟨0, 0, blockID, [], .new 0⟩).weight ≤ 200 := by
  have hepoch := Rlp.Item.weight_uint_le (0 : UInt64).toNat
  have hround := Rlp.Item.weight_uint_le (0 : UInt32).toNat
  have hbits : (BitArray.new 0).item.weight = 11 := rfl
  have hid := Bytes32.length_bytes blockID
  simp only [QuorumCert.item, Rlp.Item.weight, Rlp.weightAll, List.length_nil] at *
  omega

/-- Blocks and certificates are short. -/
theorem length_onTop (parent : Block) (proposerIndex : UInt32) (nextValidatorsHash : Bytes)
    (h : nextValidatorsHash.length ≤ 4) :
    (onTop parent proposerIndex nextValidatorsHash).item.encode.length < 2 ^ 64
      ∧ (certifying (onTop parent proposerIndex nextValidatorsHash)).item.encode.length
        < 2 ^ 64 := by
  have hqc := weight_certificate ((onTop parent proposerIndex nextValidatorsHash).id plainHashes)
  have hown := weight_certificate 0
  have hheader := (onTop parent proposerIndex nextValidatorsHash).header.weight_item_le
  have hroot : (onTop parent proposerIndex nextValidatorsHash).header.txsRoot.length = 32 :=
    Rlp.length_beBytes _ _
  have hhash : (onTop parent proposerIndex nextValidatorsHash).header.qcHash.length = 32 :=
    Bytes32.length_bytes _
  have hnext : (onTop parent proposerIndex nextValidatorsHash).header.nextValidatorsHash.length
      ≤ 4 :=
    h
  have hempty : (onTop parent proposerIndex nextValidatorsHash).header.validatorsHash.length = 0
      ∧ (onTop parent proposerIndex nextValidatorsHash).header.appHash.length = 0 := ⟨rfl, rfl⟩
  have hblock : (onTop parent proposerIndex nextValidatorsHash).item.weight
      = (onTop parent proposerIndex nextValidatorsHash).header.item.weight + (9
        + ((QuorumCert.item ⟨0, 0, 0, [], .new 0⟩).weight + 0)) + 9 := by
    show Rlp.weightAll [_, .list [], _] + 9 = _
    simp only [Rlp.weightAll, Rlp.Item.weight, Nat.zero_add]
    rfl
  have hle := (onTop parent proposerIndex nextValidatorsHash).item.length_encode_le
  have hle' := (certifying (onTop parent proposerIndex nextValidatorsHash)).item.length_encode_le
  have hcert : (certifying (onTop parent proposerIndex nextValidatorsHash)).item.weight ≤ 200 := hqc
  constructor <;> omega

theorem fits_onTop (c : Chain) (parent : Block) (proposerIndex : UInt32)
    (nextValidatorsHash : Bytes) (h : nextValidatorsHash.length ≤ 4) :
    ∀ entry ∈ addBatch plainHashes c (onTop parent proposerIndex nextValidatorsHash)
      (certifying (onTop parent proposerIndex nextValidatorsHash)), entry.2.length < 2 ^ 64 := by
  obtain ⟨hblock, hqc⟩ := length_onTop parent proposerIndex nextValidatorsHash h
  have hid : (Bytes32.bytes ((onTop parent proposerIndex nextValidatorsHash).id plainHashes)).length
      < 2 ^ 64 := by
    rw [Bytes32.length_bytes]
    omega
  intro entry hentry
  rcases List.mem_append.mp hentry with hentry | hentry
  · rcases List.mem_append.mp hentry with hentry | hentry
    · rcases List.mem_pair.mp hentry with rfl | rfl
      · exact hblock
      · exact hid
    · exact absurd hentry List.not_mem_nil
  · split at hentry
    · rcases List.mem_pair.mp hentry with rfl | rfl
      · exact hid
      · exact hqc
    · exact absurd hentry List.not_mem_nil

/-- A chain of blocks of one proposer, one for each number up to its best
block. -/
structure Tower (calls : List (Block × QuorumCert)) (c : Chain) (d : Disk) : Prop where
  persisted : Persisted plainEnv plainCodec plainGenesis (fun _ => true) calls c d
  numbered : ∀ call ∈ calls, call.1.number ≠ 0
  stored : c.WellStored plainHashes
  proposers : ∀ id b, c.kv.blocks id = some b → b.header.proposerIndex = 0
  writes : ∀ n, c.writeOK n = true
  unknown : d (validatorKey [9]) = none

theorem tower_fresh : Tower [] (.initializeStore plainEnv plainGenesis.block committee committee
    (fun _ => true)) (Disk.initialise plainEnv plainCodec plainGenesis) where
  persisted := .fresh (by decide +kernel)
  numbered _ h := absurd h List.not_mem_nil
  stored := Chain.wellStored_initializeStore plainEnv committee committee (fun _ => true) rfl
  proposers id b hb := by
    simp only [Chain.initializeStore] at hb
    split at hb
    · rw [← Option.some.inj hb]
      rfl
    · cases hb
  writes _ := rfl
  unknown := by decide +kernel

/-- The best block of a tower has an identifier. -/
theorem Tower.id_ne_zero {c : Chain} {d : Disk} (h : Tower calls c d) :
    c.bestBlock.id plainHashes ≠ 0 := by
  rw [plain_digest, h.proposers _ _ h.stored.best_stored]
  intro hzero
  have htail := tail28_of_putNumber_eq (hzero.trans (show (0 : Bytes32) = putNumber 0 0 from rfl))
  exact absurd htail (by decide)

/-- **One more block.** -/
theorem Tower.succ {c : Chain} {d : Disk} (h : Tower calls c d)
    (hlast : c.bestBlock.number.toNat + 1 < 2 ^ 32) :
    ∃ calls' c' d', Tower calls' c' d'
      ∧ c'.bestBlock.number.toNat = c.bestBlock.number.toNat + 1 := by
  have hnumber := number_onTop h.id_ne_zero 0 []
  have hfits := fits_onTop c c.bestBlock 0 [] (Nat.zero_le _)
  have hparent : (onTop c.bestBlock 0 []).parentID = c.bestBlock.id plainHashes := rfl
  have hproposer : (onTop c.bestBlock 0 []).header.proposerIndex = 0 := rfl
  generalize onTop c.bestBlock 0 [] = blk at hnumber hfits hparent hproposer
  have hsucc : blk.number.toNat = c.bestBlock.number.toNat + 1 := by
    rw [hnumber, UInt32.toNat_add]
    exact Nat.mod_eq_of_lt hlast
  have habove : c.bestBlock.number < blk.number := by
    rw [UInt32.lt_iff_toNat_lt, hsucc]
    omega
  obtain ⟨hreach, htrunk, fork, hadd⟩ := h.stored.addBlock_child (certifying blk) hparent habove
    (h.writes _)
  refine ⟨_, c.withBest plainHashes blk (certifying blk), _,
    ⟨.add h.persisted hadd rfl hfits, fun call hcall => ?_, h.stored.withBest hreach htrunk _,
      fun id b hb => ?_, h.writes, ?_⟩, hsucc⟩
  · rcases List.mem_append.mp hcall with hcall | hcall
    · exact h.numbered call hcall
    · rw [List.mem_singleton.mp hcall]
      intro hzero
      rw [hzero] at habove
      exact UInt32.not_lt_zero habove
  · obtain ⟨hblocks, -, -⟩ := Chain.kv_of_addBlock_ok hadd
    rw [hblocks, Function.update_apply] at hb
    split at hb
    · rw [← Option.some.inj hb]
      exact hproposer
    · exact h.proposers id b hb
  · rw [write_addBatch_validatorKey]
    exact h.unknown

/-- **There is a chain of every height.** -/
theorem exists_tower (n : ℕ) (hn : n < 2 ^ 32) :
    ∃ calls c d, Tower calls c d ∧ c.bestBlock.number.toNat = n := by
  induction n with
  | zero => exact ⟨_, _, _, tower_fresh, rfl⟩
  | succ n ih =>
    obtain ⟨calls, c, d, htower, hbest⟩ := ih (by omega)
    obtain ⟨calls', c', d', htower', hbest'⟩ := htower.succ (by omega)
    exact ⟨calls', c', d', htower', by rw [hbest', hbest]⟩

/-- **The block after the last number.** It is added beside the trunk, and the
index has it in place of the genesis. -/
theorem Tower.wrapped {c : Chain} {d : Disk} (h : Tower calls c d)
    (hlast : c.bestBlock.number.toNat = 2 ^ 32 - 1) :
    ∃ (calls' : List (Block × QuorumCert)) (c' : Chain) (d' : Disk) (w : Block),
      Persisted plainEnv plainCodec plainGenesis (fun _ => true) calls' c' d'
      ∧ d'.loadBestBlockID ≠ 0 ∧ d'.loadBlockHash 0 = some (w.id plainHashes)
      ∧ d'.loadBlock (w.id plainHashes) = some w.wire ∧ w.header.nextValidatorsHash = [9]
      ∧ d' (validatorKey [9]) = none := by
  have hfits := fits_onTop c c.bestBlock 1 [9] (by decide)
  have hparent : (onTop c.bestBlock 1 [9]).parentID = c.bestBlock.id plainHashes := rfl
  have hnumber : (onTop c.bestBlock 1 [9]).number = 0 := by
    rw [number_onTop h.id_ne_zero]
    refine UInt32.toNat.inj ?_
    rw [UInt32.toNat_add, hlast]
    rfl
  have hdigest := plain_digest (onTop c.bestBlock 1 [9])
  have hproposer : (onTop c.bestBlock 1 [9]).header.proposerIndex = 1 := rfl
  have hnext : (onTop c.bestBlock 1 [9]).header.nextValidatorsHash = [9] := rfl
  rw [hproposer] at hdigest
  generalize onTop c.bestBlock 1 [9] = w at hfits hparent hnumber hdigest hnext
  -- every stored block has another proposer, so this one is not stored
  have hunstored : c.kv.blocks (w.id plainHashes) = none := by
    cases hw : c.kv.blocks (w.id plainHashes) with
    | none => rfl
    | some b =>
      have hid := h.stored.keyed _ b hw
      rw [plain_digest b, h.proposers _ b hw, hdigest] at hid
      exact absurd (tail28_of_putNumber_eq hid) (by decide)
  have hlow : w.header.number < c.bestBlock.number := by
    rw [UInt32.lt_iff_toNat_lt, hlast, show w.header.number = 0 from hnumber]
    decide
  have hadd : c.addBlock plainHashes w (some (certifying w))
      = .ok (.ok ⟨c.bestBlock.header, [], [w.header]⟩, c.withBranch plainHashes w) := by
    unfold Chain.addBlock Chain.blockExists Chain.getBlockHeader Chain.isTrunk
    rw [hunstored, hparent, h.stored.best_stored, if_pos hlow]
    simp only [Option.map_none, Option.map_some, Bool.false_eq_true, if_false, Chain.writeBatch,
      h.writes, if_true]
    rfl
  have hmirrors := h.persisted.mirrors.addBlock hadd hfits
  refine ⟨_, c.withBranch plainHashes w, _, w, .add h.persisted hadd rfl hfits, ?_, ?_, ?_, hnext,
    ?_⟩
  · rw [hmirrors.bestBlock]
    exact h.id_ne_zero
  · rw [hmirrors.hashes, (Chain.kv_of_addBlock_ok hadd).2.1, hnumber, Function.update_self]
  · rw [hmirrors.blocks, (Chain.kv_of_addBlock_ok hadd).1, Function.update_self]
    rfl
  · rw [write_addBatch_validatorKey]
    exact h.unknown

/-- **A restart after two blocks.** -/
theorem restart_recovers_two_blocks :
    ∃ calls c d c', Persisted plainEnv plainCodec plainGenesis (fun _ => true) calls c d
      ∧ c.bestBlock.number.toNat = 2 ∧ d.reopen plainEnv plainCodec (fun _ => true) = .ok (.ok c')
      ∧ Recovers plainEnv c c' := by
  obtain ⟨calls, c, d, htower, hbest⟩ := exists_tower 2 (by omega)
  obtain ⟨c', hreopen, hrecovers⟩ := restart_recovers (E := plainEnv) (C := plainCodec)
    (by decide +kernel) (by decide) htower.persisted htower.numbered (fun _ => true)
  exact ⟨calls, c, d, c', htower.persisted, hbest, hreopen, hrecovers⟩

/-- **A chain that has used all its numbers is not found again.** The block
after the last number is numbered zero, and names validators that are not
stored. A restart takes it for the genesis. -/
theorem wrapped_chain_is_not_found :
    ∃ calls c d, Persisted plainEnv plainCodec plainGenesis (fun _ => true) calls c d
      ∧ plainGenesis.block.id plainHashes ≠ 0
      ∧ plainCodec.unmarshal (plainCodec.marshal committee) = some committee
      ∧ ∀ writeOK, d.reopen plainEnv plainCodec writeOK = .ok (.error .notFound) := by
  obtain ⟨calls, c, d, htower, hbest⟩ := exists_tower (2 ^ 32 - 1) (by omega)
  obtain ⟨calls', c', d', w, hpersisted, hbestID, hindex, hblock, hhash, hunknown⟩ :=
    htower.wrapped hbest
  refine ⟨calls', c', d', hpersisted, by decide +kernel, by decide, fun writeOK => ?_⟩
  have hgene : (d'.kv plainEnv.H plainCodec).blocks
      (((d'.kv plainEnv.H plainCodec).hashes 0).getD 0) = some w.wire := by
    show d'.loadBlock ((d'.loadBlockHash 0).getD 0) = _
    rw [hindex, Option.getD_some, hblock]
  have hvset : (d'.kv plainEnv.H plainCodec).validators w.wire.header.nextValidatorsHash
      = none := by
    show (d' (validatorKey w.header.nextValidatorsHash)).bind _ = none
    rw [hhash, hunknown]
    rfl
  have hbest : (d'.kv plainEnv.H plainCodec).bestBlockID ≠ 0 := hbestID
  unfold Disk.reopen Chain.initialise
  rw [if_neg hbest]
  unfold Chain.load
  rw [hgene]
  dsimp only
  rw [hvset]

end Testnet

end LoragonBFT
