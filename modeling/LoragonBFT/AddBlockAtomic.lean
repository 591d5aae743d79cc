import LoragonBFT.Util.Lru
import LoragonBFT.Testnet

/-!
# Adding a block, or leaving the chain as it was

A block is added in one critical section: what is stored of it goes into a
batch that is written at the end. A call that fails should leave nothing
behind, and after one that succeeds the best block in memory should be the one
that a restart finds.

The batch takes care of the store. Two things are outside it. The best block
and its certificate are replaced in memory while the batch is put together –
the block before the check that there is a certificate, both before the batch
is written – and no error takes them back. And the chain is read through a
cache of blocks, which every lookup changes.

`CachedChain` adds that cache to the chain. Its `addBlock` reads what the source
reads, in that order, and refines `Chain.addBlock` (`addBlockThrough_eq`).
`atomic_iff_addsSafely` says which calls leave nothing behind: those in which a
block that takes the best one's place is also written.
-/

namespace LoragonBFT

/-- `caches.rawBlocks`. A raw block is the stored encoding together with the
block it decodes to; the model keeps the block. -/
abbrev RawBlocks := Lru.Cache Bytes32 Block

/-- `blockCacheLimit`. -/
def blockCacheLimit : ℕ := 512

variable {cache : RawBlocks}

namespace Chain

variable (H : Hashes)

/-! ## Reading through the cache -/

/-- `Chain.getBlockHeader`, through `getRawBlock`. -/
def lookUpHeader (c : Chain) (id : Bytes32) : StateM RawBlocks (Option Header) :=
  Option.map Block.header <$> Lru.getOrLoad blockCacheLimit c.kv.blocks id

/-- The first check of `AddBlock`. -/
def lookUpExists (c : Chain) (newBlock : Block) : StateM RawBlocks Bool := do
  match ← c.lookUpHeader (newBlock.id H) with
  | none => return false
  | some header =>
    if header.number = newBlock.number ∧ header.parentID = newBlock.parentID
        ∧ header.timestamp = newBlock.header.timestamp ∧ c.isBlockFinalized header.parentID then
      return c.isBlockFinalized (newBlock.id H)
    else return true

/-- The loop of `buildFork`. -/
def lookUpForkLoop (c : Chain) : ℕ → Header → Header → List Header → List Header →
    StateM RawBlocks (Except Panic (Except Err Fork))
  | 0, _, _, _, _ => return .error .diverges
  | fuel + 1, b₁, b₂, trunk, branch =>
    if b₁.number > b₂.number then do
      match ← c.lookUpHeader b₁.parentID with
      | some b₁' => lookUpForkLoop c fuel b₁' b₂ (b₁ :: trunk) branch
      | none => return .ok (.error .notFound)
    else if b₁.number < b₂.number then do
      match ← c.lookUpHeader b₂.parentID with
      | some b₂' => lookUpForkLoop c fuel b₁ b₂' trunk (b₂ :: branch)
      | none => return .ok (.error .notFound)
    else if b₁.id H = b₂.id H then return .ok (.ok ⟨b₁, trunk, branch⟩)
    else do
      match ← c.lookUpHeader b₁.parentID with
      | none => return .ok (.error .notFound)
      | some b₁' =>
        match ← c.lookUpHeader b₂.parentID with
        | none => return .ok (.error .notFound)
        | some b₂' => lookUpForkLoop c fuel b₁' b₂' (b₁ :: trunk) (b₂ :: branch)

/-- `Chain.buildFork`. -/
def lookUpFork (c : Chain) (trunkHead branchHead : Header) :
    StateM RawBlocks (Except Panic (Except Err Fork)) :=
  c.lookUpForkLoop H (trunkHead.number.toNat + branchHead.number.toNat + 2) trunkHead branchHead
    [] []

/-- `batch.Write`, and what follows it: only a block that was written enters
the cache. -/
def writeThrough (c : Chain) (newBlock : Block) (kv : KV) (fork : Fork) :
    StateM RawBlocks (Except Err Fork × Chain) := do
  match writeBatch c kv fork with
  | (.error e, c') => return (.error e, c')
  | (.ok fork, c') =>
    modify (Lru.add blockCacheLimit (newBlock.id H) newBlock)
    return (.ok fork, c')

/-- `Chain.AddBlock`, with the cache it reads through. -/
def addBlockThrough (c : Chain) (newBlock : Block) (escortQC : Option QuorumCert) :
    StateM RawBlocks (Except Panic (Except Err Fork × Chain)) := do
  if ← c.lookUpExists H newBlock then return .ok (.error .blockExist, c)
  match ← c.lookUpHeader newBlock.parentID with
  | none => return .ok (.error .parentHeaderMissing, c)
  | some parent =>
    if c.isTrunk H newBlock.header then
      match ← c.lookUpFork H newBlock.header c.bestBlock.header with
      | .error p => return .error p
      | .ok (.error e) => return .ok (.error e, c)
      | .ok (.ok fork) =>
        match escortQC with
        | none => return .ok (.error .escortQCNil, { c with bestBlock := newBlock })
        | some qc =>
          .ok <$> writeThrough H { c with bestBlock := newBlock, bestQC := qc } newBlock
            { saveBlock H c.kv newBlock with bestBlockID := newBlock.id H, bestQC := qc } fork
    else
      .ok <$> writeThrough H c newBlock (saveBlock H c.kv newBlock) ⟨parent, [], [newBlock.header]⟩

/-! ## What is looked up -/

/-- The headers the loop of `buildFork` looks up. -/
def forkReads (c : Chain) : ℕ → Header → Header → List Bytes32
  | 0, _, _ => []
  | fuel + 1, b₁, b₂ =>
    if b₁.number > b₂.number then
      b₁.parentID :: ((c.getBlockHeader b₁.parentID).map (forkReads c fuel · b₂)).getD []
    else if b₁.number < b₂.number then
      b₂.parentID :: ((c.getBlockHeader b₂.parentID).map (forkReads c fuel b₁)).getD []
    else if b₁.id H = b₂.id H then []
    else b₁.parentID :: ((c.getBlockHeader b₁.parentID).map fun b₁' =>
      b₂.parentID :: ((c.getBlockHeader b₂.parentID).map (forkReads c fuel b₁')).getD []).getD []

/-- **The headers `AddBlock` looks up**: the block's own, its parent's, and for
a block on the trunk those down to the fork. -/
def headersRead (c : Chain) (blk : Block) : List Bytes32 :=
  blk.id H :: if c.blockExists H blk then [] else
    blk.parentID :: if (c.getBlockHeader blk.parentID).isSome ∧ c.isTrunk H blk.header then
      c.forkReads H (blk.header.number.toNat + c.bestBlock.header.number.toNat + 2) blk.header
        c.bestBlock.header
    else []

section Sees

variable {H} {c : Chain}

theorem sees_lookUpHeader (id : Bytes32) :
    Lru.Sees blockCacheLimit c.kv.blocks (c.lookUpHeader id) (c.getBlockHeader id) [id] :=
  (Lru.Sees.getOrLoad id).map _

theorem sees_lookUpExists (blk : Block) :
    Lru.Sees blockCacheLimit c.kv.blocks (c.lookUpExists H blk) (c.blockExists H blk)
      [blk.id H] := by
  refine (sees_lookUpHeader (blk.id H)).bind ?_
  unfold blockExists
  cases c.getBlockHeader (blk.id H) with
  | none => exact .pure _
  | some header =>
    dsimp only
    split <;> exact .pure _

theorem sees_lookUpForkLoop (fuel : ℕ) (b₁ b₂ : Header) (trunk branch : List Header) :
    Lru.Sees blockCacheLimit c.kv.blocks (c.lookUpForkLoop H fuel b₁ b₂ trunk branch)
      (c.buildForkLoop H fuel b₁ b₂ trunk branch) (c.forkReads H fuel b₁ b₂) := by
  induction fuel generalizing b₁ b₂ trunk branch with
  | zero => exact .pure _
  | succ fuel ih =>
    unfold lookUpForkLoop buildForkLoop forkReads
    by_cases hgt : b₁.number > b₂.number
    · rw [if_pos hgt, if_pos hgt, if_pos hgt]
      refine (sees_lookUpHeader b₁.parentID).bind ?_
      cases c.getBlockHeader b₁.parentID with
      | none => exact .pure _
      | some b₁' => exact ih b₁' b₂ (b₁ :: trunk) branch
    rw [if_neg hgt, if_neg hgt, if_neg hgt]
    by_cases hlt : b₁.number < b₂.number
    · rw [if_pos hlt, if_pos hlt, if_pos hlt]
      refine (sees_lookUpHeader b₂.parentID).bind ?_
      cases c.getBlockHeader b₂.parentID with
      | none => exact .pure _
      | some b₂' => exact ih b₁ b₂' trunk (b₂ :: branch)
    rw [if_neg hlt, if_neg hlt, if_neg hlt]
    by_cases hid : b₁.id H = b₂.id H
    · rw [if_pos hid, if_pos hid, if_pos hid]
      exact .pure _
    rw [if_neg hid, if_neg hid, if_neg hid]
    refine (sees_lookUpHeader b₁.parentID).bind ?_
    cases c.getBlockHeader b₁.parentID with
    | none => exact .pure _
    | some b₁' =>
      refine (sees_lookUpHeader b₂.parentID).bind ?_
      cases c.getBlockHeader b₂.parentID with
      | none => exact .pure _
      | some b₂' => exact ih b₁' b₂' (b₁ :: trunk) (b₂ :: branch)

theorem sees_lookUpFork (b₁ b₂ : Header) :
    Lru.Sees blockCacheLimit c.kv.blocks (c.lookUpFork H b₁ b₂) (c.buildFork H b₁ b₂)
      (c.forkReads H (b₁.number.toNat + b₂.number.toNat + 2) b₁ b₂) :=
  sees_lookUpForkLoop _ b₁ b₂ [] []

/-- What a call adds to the cache: the block, if it was written. -/
def cacheWritten (H : Hashes) (blk : Block) (cache : RawBlocks) :
    Except Panic (Except Err Fork × Chain) → RawBlocks
  | .ok (.ok _, _) => Lru.add blockCacheLimit (blk.id H) blk cache
  | _ => cache

theorem writeThrough_apply (c' : Chain) (blk : Block) (kv : KV) (fork : Fork) (cache : RawBlocks) :
    (Except.ok (ε := Panic) <$> writeThrough H c' blk kv fork) cache
      = (.ok (writeBatch c' kv fork), cacheWritten H blk cache (.ok (writeBatch c' kv fork))) := by
  show (Except.ok (writeThrough H c' blk kv fork cache).1, _) = _
  unfold writeThrough writeBatch
  cases c'.writeOK c'.batchWrites <;> rfl

/-- **Reading through the cache changes no answer**: from a coherent cache,
`AddBlock` does what it does without one, and what it looks up is what
`headersRead` says. -/
theorem addBlockThrough_eq (blk : Block) (escortQC : Option QuorumCert)
    (hcache : Lru.Coherent c.kv.blocks cache) :
    c.addBlockThrough H blk escortQC cache
      = (c.addBlock H blk escortQC, cacheWritten H blk
          (Lru.lookups blockCacheLimit c.kv.blocks (c.headersRead H blk) cache)
          (c.addBlock H blk escortQC)) := by
  unfold addBlockThrough addBlock headersRead
  rw [(sees_lookUpExists blk).bind_apply _ hcache]
  by_cases hexists : c.blockExists H blk = true
  · rw [if_pos hexists, if_pos hexists, if_pos hexists]
    rfl
  rw [if_neg hexists, if_neg hexists, if_neg hexists,
    (sees_lookUpHeader blk.parentID).bind_apply _ (hcache.lookups _), ← Lru.lookups_append,
    List.singleton_append]
  cases hparent : c.getBlockHeader blk.parentID with
  | none =>
    rw [if_neg (by simp)]
    rfl
  | some parent =>
    dsimp only
    cases htrunk : c.isTrunk H blk.header with
    | false =>
      rw [if_neg Bool.false_ne_true, if_neg Bool.false_ne_true, if_neg (by simp)]
      exact writeThrough_apply c blk _ _ _
    | true =>
      rw [if_pos rfl, if_pos rfl, if_pos (by simp)]
      rw [(sees_lookUpFork blk.header c.bestBlock.header).bind_apply _ (hcache.lookups _),
        ← Lru.lookups_append]
      match c.buildFork H blk.header c.bestBlock.header with
      | .error p => rfl
      | .ok (.error e) => rfl
      | .ok (.ok fork) =>
        cases escortQC with
        | none => rfl
        | some qc => exact writeThrough_apply _ blk _ fork _

/-- **The cache stays coherent.** A block enters it together with the store. -/
theorem coherent_addBlock {blk : Block} {escortQC : Option QuorumCert}
    (hcache : Lru.Coherent c.kv.blocks cache) {result : Except Err Fork} {c' : Chain}
    (h : c.addBlock H blk escortQC = .ok (result, c')) :
    Lru.Coherent c'.kv.blocks (cacheWritten H blk cache (.ok (result, c'))) := by
  cases addBlock_cases h with
  | refused e unreached => exact hcache
  | extended fork qc reached trunk qc_eq written => exact hcache.write _ _
  | unwritten e qc n reached trunk failed => exact hcache
  | branched fork reached trunk written => exact hcache.write _ _
  | lost e n reached trunk failed => exact hcache

/-- A block that was added came to be written. -/
theorem reachesWrite_of_addBlock {blk : Block} {escortQC : Option QuorumCert} {fork : Fork}
    {c' : Chain} (h : c.addBlock H blk escortQC = .ok (.ok fork, c')) : c.ReachesWrite H blk := by
  cases addBlock_cases h with
  | extended fork qc reached trunk qc_eq written => exact reached
  | branched fork reached trunk written => exact reached

end Sees

end Chain

/-! ## The chain with its cache -/

/-- **The chain and the cache in front of it.** -/
structure CachedChain where
  chain : Chain
  rawBlocks : RawBlocks
  coherent : Lru.Coherent chain.kv.blocks rawBlocks

namespace CachedChain

variable (H : Hashes)

theorem coherent_of_addBlockThrough {H : Hashes} (c : CachedChain) {blk : Block}
    {escortQC : Option QuorumCert} {result : Except Err Fork} {chain : Chain}
    (h : c.chain.addBlockThrough H blk escortQC c.rawBlocks = (.ok (result, chain), cache)) :
    Lru.Coherent chain.kv.blocks cache := by
  rw [Chain.addBlockThrough_eq blk escortQC c.coherent] at h
  obtain ⟨hadd, rfl⟩ := Prod.mk.inj h
  rw [hadd]
  exact Chain.coherent_addBlock (c.coherent.lookups _) hadd

/-- `Chain.AddBlock`. -/
def addBlock (c : CachedChain) (newBlock : Block) (escortQC : Option QuorumCert) :
    Except Panic (Except Err Fork × CachedChain) :=
  match h : c.chain.addBlockThrough H newBlock escortQC c.rawBlocks with
  | (.error p, _) => .error p
  | (.ok (result, chain), cache) =>
    .ok (result, ⟨chain, cache, c.coherent_of_addBlockThrough h⟩)

variable {H} {c c' : CachedChain} {blk : Block} {escortQC : Option QuorumCert}
  {result : Except Err Fork}

/-- The cache once the headers of a call have been looked up. -/
def lookedUp (H : Hashes) (c : CachedChain) (blk : Block) : RawBlocks :=
  Lru.lookups blockCacheLimit c.chain.kv.blocks (c.chain.headersRead H blk) c.rawBlocks

/-- **What a call does to the chain, and what to the cache.** -/
theorem addBlock_eq (h : c.addBlock H blk escortQC = .ok (result, c')) :
    c.chain.addBlock H blk escortQC = .ok (result, c'.chain)
      ∧ c'.rawBlocks = Chain.cacheWritten H blk (c.lookedUp H blk) (.ok (result, c'.chain)) := by
  unfold addBlock at h
  split at h
  · exact nomatch h
  · rename_i result₁ chain cache hthrough
    obtain ⟨rfl, rfl⟩ := Prod.mk.inj (Except.ok.inj h)
    rw [Chain.addBlockThrough_eq blk escortQC c.coherent] at hthrough
    obtain ⟨hadd, hcache⟩ := Prod.mk.inj hthrough
    rw [hadd] at hcache
    exact ⟨hadd, hcache.symm⟩

/-! ## Nothing half done -/

/-- **A call left nothing half done**: after an error the best block, its
certificate, the cache and the store are what they were, and without one the
best block and its certificate are the ones that are stored. -/
structure Atomic (c : CachedChain) (result : Except Err Fork) (c' : CachedChain) : Prop where
  failed : ∀ e, result = .error e → c'.chain.bestBlock = c.chain.bestBlock
    ∧ c'.chain.bestQC = c.chain.bestQC ∧ c'.rawBlocks = c.rawBlocks ∧ c'.chain.kv = c.chain.kv
  persisted : ∀ fork, result = .ok fork →
    c'.chain.kv.blocks c'.chain.kv.bestBlockID = some c'.chain.bestBlock
      ∧ c'.chain.kv.bestQC = c'.chain.bestQC

/-- **A block can be added safely.** If it is to take the best block's place, it
has a certificate and the batch is written. If it is refused or cannot be
written, the headers looked up leave the cache as it is. If it is written
beside the trunk, the best block and its certificate are the stored ones
before – or the block is the best one itself, which was not stored yet. -/
structure AddsSafely (H : Hashes) (c : CachedChain) (blk : Block)
    (escortQC : Option QuorumCert) : Prop where
  written : c.chain.ReachesWrite H blk → c.chain.isTrunk H blk.header = true →
    escortQC.isSome = true ∧ c.chain.writeOK c.chain.batchWrites = true
  kept : ¬ (c.chain.ReachesWrite H blk ∧ c.chain.writeOK c.chain.batchWrites = true) →
    c.lookedUp H blk = c.rawBlocks
  beside : c.chain.ReachesWrite H blk → c.chain.isTrunk H blk.header = false →
    c.chain.writeOK c.chain.batchWrites = true →
    (if c.chain.kv.bestBlockID = blk.id H then blk = c.chain.bestBlock
      else c.chain.kv.blocks c.chain.kv.bestBlockID = some c.chain.bestBlock)
      ∧ c.chain.kv.bestQC = c.chain.bestQC

/-- A block on the trunk is another one than the best. -/
theorem ne_of_isTrunk {c : Chain} (h : c.isTrunk H blk.header = true) : blk ≠ c.bestBlock := by
  rintro rfl
  unfold Chain.isTrunk at h
  have hlt : ¬ c.bestBlock.header.number < c.bestBlock.number := UInt32.lt_irrefl _
  have hgt : ¬ c.bestBlock.header.number > c.bestBlock.number := UInt32.lt_irrefl _
  have hid : ¬ (c.bestBlock.header.id H).toNat < (c.bestBlock.id H).toNat := lt_irrefl _
  rw [if_neg hlt, if_neg hgt] at h
  exact hid (of_decide_eq_true h)

/-- **A call of `AddBlock` leaves nothing half done exactly if the block can be
added safely.** -/
theorem atomic_iff_addsSafely (h : c.addBlock H blk escortQC = .ok (result, c')) :
    Atomic c result c' ↔ AddsSafely H c blk escortQC := by
  obtain ⟨hadd, hcache⟩ := addBlock_eq h
  obtain ⟨chain', rawBlocks', hcoherent⟩ := c'
  dsimp only at hadd hcache
  cases Chain.addBlock_cases hadd with
  | refused e unreached =>
    refine ⟨fun hatomic => ?_, fun hsafe => ?_⟩
    · refine ⟨fun hreach => absurd hreach unreached, fun _ => ?_,
        fun hreach => absurd hreach unreached⟩
      exact hcache.symm.trans (hatomic.failed e rfl).2.2.1
    · refine ⟨fun _ _ => ⟨rfl, rfl, ?_, rfl⟩, fun _ hok => (nomatch hok)⟩
      exact hcache.trans (hsafe.kept fun hreach => unreached hreach.1)
  | extended fork qc reached trunk qc_eq written =>
    refine ⟨fun _ => ?_, fun _ => ?_⟩
    · refine ⟨fun _ _ => ⟨by rw [qc_eq]; rfl, written⟩, fun hnot => absurd ⟨reached, written⟩ hnot,
        fun _ hbeside => ?_⟩
      rw [trunk] at hbeside
      exact nomatch hbeside
    · exact ⟨fun _ herr => (nomatch herr), fun _ _ => ⟨Function.update_self .., rfl⟩⟩
  | unwritten e qc n reached trunk failed =>
    refine ⟨fun hatomic => ?_, fun hsafe => absurd (hsafe.written reached trunk) failed⟩
    exact absurd (hatomic.failed e rfl).1 (ne_of_isTrunk trunk)
  | branched fork reached trunk written =>
    have hstored : (Function.update c.chain.kv.blocks (blk.id H) (some blk)
          c.chain.kv.bestBlockID = some c.chain.bestBlock)
        ↔ if c.chain.kv.bestBlockID = blk.id H then blk = c.chain.bestBlock
          else c.chain.kv.blocks c.chain.kv.bestBlockID = some c.chain.bestBlock := by
      rw [Function.update_apply]
      split
      · exact Option.some_inj
      · exact Iff.rfl
    refine ⟨fun hatomic => ?_, fun hsafe => ?_⟩
    · refine ⟨fun _ htrunk => ?_, fun hnot => absurd ⟨reached, written⟩ hnot, fun _ _ _ => ?_⟩
      · rw [trunk] at htrunk
        exact nomatch htrunk
      · exact ⟨hstored.mp (hatomic.persisted fork rfl).1, (hatomic.persisted fork rfl).2⟩
    · obtain ⟨hbest, hqc⟩ := hsafe.beside reached trunk written
      exact ⟨fun _ herr => (nomatch herr), fun _ _ => ⟨hstored.mpr hbest, hqc⟩⟩
  | lost e n reached trunk failed =>
    have hfailed : ¬ c.chain.writeOK c.chain.batchWrites = true := by rw [failed]; simp
    refine ⟨fun hatomic => ?_, fun hsafe => ?_⟩
    · refine ⟨fun _ htrunk => ?_, fun _ => ?_, fun _ _ hwritten => absurd hwritten hfailed⟩
      · rw [trunk] at htrunk
        exact nomatch htrunk
      · exact hcache.symm.trans (hatomic.failed e rfl).2.2.1
    · refine ⟨fun _ _ => ⟨rfl, rfl, ?_, rfl⟩, fun _ hok => (nomatch hok)⟩
      exact hcache.trans (hsafe.kept fun hreach => hfailed hreach.2)

end CachedChain

namespace Testnet

/-- The chain of the network with an empty cache. -/
def cachedChain (writeOK : ℕ → Bool) : CachedChain where
  chain := Chain.initializeStore env genesis committee committee writeOK
  rawBlocks := []
  coherent := fun _ he => nomatch he

/-- The first block of the network. -/
def firstChild : Block := block genesis 1 genesisQC []

/-- A call that ends as a test says, and leaves the best block a test asks
for. -/
theorem exists_of_added {x : Except Panic (Except Err Fork × CachedChain)} (fails : Bool)
    (best : Block) (h : x.toOption.any (fun r => r.1.toBool != fails
      && r.2.chain.bestBlock == best) = true) :
    ∃ result c', x = .ok (result, c') ∧ c'.chain.bestBlock = best
      ∧ (fails = true → ∃ e, result = .error e) ∧ (fails = false → ∃ fork, result = .ok fork) := by
  cases x with
  | error fault => exact nomatch h
  | ok r =>
    obtain ⟨result, c'⟩ := r
    obtain ⟨hends, hbest⟩ := Bool.and_eq_true_iff.mp h
    refine ⟨result, c', rfl, eq_of_beq hbest, ?_, ?_⟩
    all_goals
      rintro rfl
      cases result <;> simp [Except.toBool] at hends ⊢

/-- **The first block is added whole.** -/
theorem atomic_firstChild :
    ∃ result c', (cachedChain fun _ => true).addBlock hashes firstChild
        (some (certificate firstChild 1)) = .ok (result, c')
      ∧ CachedChain.Atomic (cachedChain fun _ => true) result c' := by
  obtain ⟨result, c', hadd, -, -, hok⟩ := exists_of_added (x := (cachedChain fun _ => true).addBlock
    hashes firstChild (some (certificate firstChild 1))) false firstChild (by decide +kernel)
  obtain ⟨fork, rfl⟩ := hok rfl
  refine ⟨_, c', hadd, (CachedChain.atomic_iff_addsSafely hadd).mpr ?_⟩
  have htrunk : (cachedChain fun _ => true).chain.isTrunk hashes firstChild.header = true := by
    decide +kernel
  have hreach := Chain.reachesWrite_of_addBlock (CachedChain.addBlock_eq hadd).1
  refine ⟨fun _ _ => ⟨rfl, rfl⟩, fun hnot => absurd ⟨hreach, rfl⟩ hnot, fun _ hbeside => ?_⟩
  rw [htrunk] at hbeside
  exact nomatch hbeside

/-- **A block that cannot be added stays behind.** Without a certificate, or
when the batch cannot be written, the call fails and leaves its block the best
one in memory. -/
theorem unwritten_block_stays :
    (∃ e c', (cachedChain fun _ => true).addBlock hashes firstChild none = .ok (.error e, c')
      ∧ c'.chain.bestBlock = firstChild)
    ∧ (∃ e c', (cachedChain fun _ => false).addBlock hashes firstChild
        (some (certificate firstChild 1)) = .ok (.error e, c')
      ∧ c'.chain.bestBlock = firstChild)
    ∧ ∀ writeOK, (cachedChain writeOK).chain.bestBlock ≠ firstChild := by
  have hne : genesis ≠ firstChild := by decide +kernel
  refine ⟨?_, ?_, fun _ => hne⟩
  · obtain ⟨result, c', hadd, hbest, herr, -⟩ := exists_of_added (x := (cachedChain fun _ =>
      true).addBlock hashes firstChild none) true firstChild (by decide +kernel)
    obtain ⟨e, rfl⟩ := herr rfl
    exact ⟨e, c', hadd, hbest⟩
  · obtain ⟨result, c', hadd, hbest, herr, -⟩ := exists_of_added (x := (cachedChain fun _ =>
      false).addBlock hashes firstChild (some (certificate firstChild 1))) true firstChild
      (by decide +kernel)
    obtain ⟨e, rfl⟩ := herr rfl
    exact ⟨e, c', hadd, hbest⟩

end Testnet

end LoragonBFT
