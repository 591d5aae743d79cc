import LoragonBFT.Pacemaker.DraftTree

/-!
# The index of the trunk

The store keeps, for every number, the identifier of a block: the index
`GetTrunkBlockID` reads. It is meant to list the trunk, which is the best
block with its ancestors, and everything that serves, replays or looks up
blocks by number relies on that.

`AddBlock` writes the entry of a new block before it looks whether the block
is on the trunk at all, and writes no other entry. So the index is right as
long as the trunk grows at its end. A block beside the trunk overwrites the
entry of the trunk block of its height; and when a block whose parent is
beside the trunk takes over, the entries below it stay those of the old
trunk. The best block, in turn, is replaced in memory before the store has
taken the write, and even if there is no certificate to write.

The condition under which one call keeps the index right is therefore exact,
and so is the condition on a sequence of calls.
-/

namespace LoragonBFT

variable {H : Hashes}

variable {c : Chain}

namespace Chain

/-! ## The ancestors of a block -/

/-- The block that some links up from a block leads to. -/
def ancestor (c : Chain) (b : Block) : ℕ → Option Block
  | 0 => some b
  | k + 1 => (c.ancestor b k).bind (fun a => c.getBlock a.parentID)

/-- Walking on from an ancestor. -/
theorem ancestor_add (c : Chain) (b : Block) (j k : ℕ) :
    c.ancestor b (j + k) = (c.ancestor b j).bind (fun a => c.ancestor a k) := by
  induction k with
  | zero => exact (Option.bind_fun_some (c.ancestor b j)).symm
  | succ k ih =>
    show (c.ancestor b (j + k)).bind _ = _
    rw [ih, Option.bind_assoc]
    rfl

/-- The first link leads to the parent. -/
theorem ancestor_succ (c : Chain) (b : Block) (k : ℕ) :
    c.ancestor b (k + 1) = (c.getBlock b.parentID).bind (fun a => c.ancestor a k) := by
  rw [Nat.add_comm, ancestor_add]
  rfl

variable {c' : Chain} {blk : Block}

/-- A store that has more blocks has the same ancestors. -/
theorem ancestor_mono (h : ∀ id b, c.getBlock id = some b → c'.getBlock id = some b) {b a : Block}
    (k : ℕ) (ha : c.ancestor b k = some a) : c'.ancestor b k = some a := by
  induction k generalizing a with
  | zero => exact ha
  | succ k ih =>
    obtain ⟨a', ha', hparent⟩ := Option.bind_eq_some_iff.mp ha
    exact Option.bind_eq_some_iff.mpr ⟨a', ih ha', h _ a hparent⟩

/-- **The index lists the trunk**: under every number up to the best block's
it has the identifier of the ancestor of the best block at that height. -/
def TrunkIndexed (H : Hashes) (c : Chain) : Prop :=
  ∀ n ≤ c.bestBlock.number,
    ∃ a, c.ancestor c.bestBlock (c.bestBlock.number.toNat - n.toNat) = some a
      ∧ a.number = n ∧ c.loadBlockHash n = a.id H

/-- The index ends with the best block. -/
theorem TrunkIndexed.loadBlockHash_best (h : c.TrunkIndexed H) :
    c.loadBlockHash c.bestBlock.number = c.bestBlock.id H := by
  obtain ⟨a, ha, -, hid⟩ := h c.bestBlock.number (UInt32.le_refl _)
  rw [Nat.sub_self] at ha
  rw [hid, ← Option.some.inj ha]

/-- What holds of a store next to that: blocks stand under their identifiers,
the best one among them, and neither a block nor an entry of the index is
above it. -/
structure WellStored (H : Hashes) (c : Chain) : Prop where
  keyed : ∀ id b, c.kv.blocks id = some b → b.id H = id
  best_stored : c.kv.blocks (c.bestBlock.id H) = some c.bestBlock
  le_best : ∀ id b, c.kv.blocks id = some b → b.number ≤ c.bestBlock.number
  unindexed : ∀ n, c.bestBlock.number < n → c.kv.hashes n = none

/-! ## What one call writes -/

/-- A call that comes to write returns. -/
theorem ReachesWrite.exists_addBlock (h : c.ReachesWrite H blk) (qc : Option QuorumCert) :
    ∃ r, c.addBlock H blk qc = .ok r := by
  obtain ⟨hexists, hparent, hfork⟩ := h
  obtain ⟨parent, hparent⟩ := Option.isSome_iff_exists.mp hparent
  unfold addBlock
  rw [hexists, if_neg Bool.false_ne_true, hparent]
  dsimp only
  split
  · rename_i htrunk
    obtain ⟨fork, hfork⟩ := hfork htrunk
    rw [hfork]
    cases qc <;> exact ⟨_, rfl⟩
  · exact ⟨_, rfl⟩

/-- The block of a call that comes to write is not in the store. -/
theorem WellStored.unstored (h : c.WellStored H) (hreach : c.ReachesWrite H blk) :
    c.kv.blocks (blk.id H) = none := by
  cases hblk : c.kv.blocks (blk.id H) with
  | none => rfl
  | some b =>
    -- a stored block is not above the best one, so the first check stops at it
    have hnumber : b.number = blk.number := by
      rw [← Block.number_id H b, h.keyed _ b hblk, Block.number_id]
    have hfinal : c.isBlockFinalized (blk.id H) = true := by
      refine decide_eq_true ?_
      rw [Block.number_id, ← hnumber]
      exact h.le_best _ b hblk
    have hexists := hreach.1
    unfold blockExists getBlockHeader at hexists
    rw [hblk, hfinal] at hexists
    simp at hexists

/-- A block on the trunk is as high as the best one or one higher. -/
theorem WellStored.number_of_isTrunk (h : c.WellStored H) (hreach : c.ReachesWrite H blk)
    (htrunk : c.isTrunk H blk.header = true) :
    c.bestBlock.number ≤ blk.number
      ∧ (blk.number ≠ 0 → blk.number.toNat = (number blk.parentID).toNat + 1
        ∧ number blk.parentID ≤ c.bestBlock.number) := by
  refine ⟨?_, fun hne => ?_⟩
  · unfold isTrunk at htrunk
    split at htrunk
    · exact nomatch htrunk
    · rename_i hlt
      exact UInt32.not_lt.mp hlt
  · obtain ⟨header, hheader⟩ := Option.isSome_iff_exists.mp hreach.2.1
    obtain ⟨P, hP, -⟩ := Option.map_eq_some_iff.mp hheader
    have hle : number blk.parentID ≤ c.bestBlock.number := by
      rw [← h.keyed _ P hP, Block.number_id]
      exact h.le_best _ P hP
    exact ⟨Block.toNat_number_of_ne hne, hle⟩

/-- An ancestor of the best block is stored under its identifier. -/
theorem WellStored.ancestor_stored (h : c.WellStored H) {k : ℕ} {a : Block}
    (ha : c.ancestor c.bestBlock k = some a) : c.kv.blocks (a.id H) = some a := by
  cases k with
  | zero => exact Option.some.inj ha ▸ h.best_stored
  | succ k =>
    obtain ⟨a', -, hparent⟩ := Option.bind_eq_some_iff.mp ha
    rw [h.keyed _ a hparent]
    exact hparent

/-! ## One call -/

/-- **The condition under which a call keeps the index right.** If it comes to
write, then either the block is on the trunk, its parent is the block the
index has below it, there is a certificate and the store takes the write; or
the block is beside the trunk and the store does not take the write. -/
def KeepsIndex (H : Hashes) (c : Chain) (call : Block × Option QuorumCert) : Prop :=
  c.ReachesWrite H call.1 →
    c.isTrunk H call.1.header = true
        ∧ (call.1.number = 0 ∨ c.loadBlockHash (call.1.number - 1) = call.1.parentID)
        ∧ call.2.isSome = true ∧ c.writeOK c.batchWrites = true
      ∨ c.isTrunk H call.1.header = false ∧ c.writeOK c.batchWrites = false

/-- The chain after a call of `AddBlock`. A call that does not return leaves
it as it is. -/
def afterAddBlock (H : Hashes) (c : Chain) (call : Block × Option QuorumCert) : Chain :=
  match c.addBlock H call.1 call.2 with
  | .ok (_, c') => c'
  | .error _ => c

/-- The index has another block than the new one at its height. -/
theorem WellStored.loadBlockHash_ne (h : c.WellStored H) (hindex : c.TrunkIndexed H)
    (hreach : c.ReachesWrite H blk) : c.loadBlockHash blk.number ≠ blk.id H := by
  intro heq
  rcases UInt32.lt_or_le c.bestBlock.number blk.number with hlt | hle
  · -- above the best block the index is empty, and reads as zero
    rw [loadBlockHash, h.unindexed _ hlt] at heq
    have hzero : number (blk.id H) = 0 := by rw [← heq]; rfl
    rw [Block.number_id] at hzero
    rw [hzero] at hlt
    exact UInt32.not_lt_zero hlt
  · -- at or below it, it has a stored block
    obtain ⟨a, ha, -, hid⟩ := hindex _ hle
    have hunstored := h.unstored hreach
    rw [← heq, hid, h.ancestor_stored ha] at hunstored
    cases hunstored

/-- Looking up a stored block after another one was written. -/
theorem getBlock_of_update
    (hblocks : c'.kv.blocks = Function.update c.kv.blocks (blk.id H) (some blk))
    (hunstored : c.kv.blocks (blk.id H) = none) (id : Bytes32) (b : Block)
    (hb : c.getBlock id = some b) : c'.getBlock id = some b := by
  have hne : id ≠ blk.id H := by
    rintro rfl
    rw [getBlock, hunstored] at hb
    cases hb
  rw [getBlock, hblocks, Function.update_of_ne hne]
  exact hb

/-- One entry of the index changes. -/
theorem loadBlockHash_of_update {num : UInt32} {id : Bytes32}
    (hhashes : c'.kv.hashes = Function.update c.kv.hashes num (some id)) (n : UInt32) :
    c'.loadBlockHash n = if n = num then id else c.loadBlockHash n := by
  rw [loadBlockHash, hhashes, Function.update_apply]
  split <;> rfl

/-- **A block that becomes the best one** leaves the index right exactly if
the index has its parent below it. -/
theorem WellStored.extended_iff (h : c.WellStored H) (hindex : c.TrunkIndexed H)
    (hreach : c.ReachesWrite H blk) (htrunk : c.isTrunk H blk.header = true)
    (hbest : c'.bestBlock = blk)
    (hblocks : c'.kv.blocks = Function.update c.kv.blocks (blk.id H) (some blk))
    (hhashes : c'.kv.hashes = Function.update c.kv.hashes blk.number (some (blk.id H))) :
    c'.TrunkIndexed H ↔ blk.number = 0 ∨ c.loadBlockHash (blk.number - 1) = blk.parentID := by
  obtain ⟨-, hparent⟩ := h.number_of_isTrunk hreach htrunk
  have hunstored := h.unstored hreach
  have hpred : blk.number ≠ 0 → (blk.number - 1).toNat = blk.number.toNat - 1 := fun hne => by
    have hpos : blk.number.toNat ≠ 0 := fun h0 => hne (UInt32.toNat.inj h0)
    rw [UInt32.toNat_sub_of_le _ _ (UInt32.le_iff_toNat_le.mpr (by simp; omega))]
    rfl
  constructor
  · intro hindex'
    by_cases hne : blk.number = 0
    · exact .inl hne
    have hpos : blk.number.toNat ≠ 0 := fun h0 => hne (UInt32.toNat.inj h0)
    obtain ⟨a, ha, -, hid⟩ := hindex' (blk.number - 1) (by
      rw [hbest, UInt32.le_iff_toNat_le, hpred hne]
      omega)
    rw [hbest, hpred hne, show blk.number.toNat - (blk.number.toNat - 1) = 0 + 1 by omega,
      ancestor_succ] at ha
    obtain ⟨P, hP, hPa⟩ := Option.bind_eq_some_iff.mp ha
    obtain rfl := Option.some.inj hPa
    have hne' : blk.number - 1 ≠ blk.number := fun heq => by
      have := congrArg UInt32.toNat heq
      rw [hpred hne] at this
      omega
    rw [loadBlockHash_of_update hhashes, if_neg hne'] at hid
    refine .inr (hid.trans ?_)
    -- the parent is not the block itself, so it was stored before
    have hself : blk.parentID ≠ blk.id H := fun heq => by
      have hnum := (hparent hne).1
      rw [heq, Block.number_id] at hnum
      omega
    rw [getBlock, hblocks, Function.update_of_ne hself] at hP
    exact h.keyed _ P hP
  · intro hcond n hn
    rw [hbest] at hn ⊢
    have hn' := UInt32.le_iff_toNat_le.mp hn
    by_cases hnm : n = blk.number
    · subst hnm
      rw [Nat.sub_self, loadBlockHash_of_update hhashes, if_pos rfl]
      exact ⟨blk, rfl, rfl, rfl⟩
    have hlt : n.toNat < blk.number.toNat :=
      lt_of_le_of_ne hn' fun heq => hnm (UInt32.toNat.inj heq)
    have hne : blk.number ≠ 0 := fun h0 => by
      have : blk.number.toNat = 0 := congrArg UInt32.toNat h0
      omega
    obtain ⟨hnum, hle⟩ := hparent hne
    have hle' := UInt32.le_iff_toNat_le.mp hle
    have hcond' := hcond.resolve_left hne
    -- the walk down the old trunk passes the parent
    obtain ⟨P, hP, -, hPid⟩ := hindex (blk.number - 1) (by
      rw [UInt32.le_iff_toNat_le, hpred hne]
      omega)
    obtain ⟨a, ha, hanum, haid⟩ := hindex n (by
      rw [UInt32.le_iff_toNat_le]
      omega)
    rw [hpred hne] at hP
    rw [show c.bestBlock.number.toNat - n.toNat
        = (c.bestBlock.number.toNat - (blk.number.toNat - 1)) + (blk.number.toNat - 1 - n.toNat)
        by omega, ancestor_add, hP] at ha
    have hPstored : c.getBlock blk.parentID = some P := by
      rw [← hcond', hPid]
      exact h.ancestor_stored hP
    have hmono := getBlock_of_update hblocks hunstored
    refine ⟨a, ?_, hanum, ?_⟩
    · rw [show blk.number.toNat - n.toNat = (blk.number.toNat - 1 - n.toNat) + 1 by omega,
        ancestor_succ, hmono _ P hPstored]
      exact ancestor_mono hmono _ ha
    · rw [loadBlockHash_of_update hhashes, if_neg hnm]
      exact haid

/-- **A block written beside the trunk spoils the index** at its height. -/
theorem WellStored.not_indexed_of_branched (h : c.WellStored H) (hindex : c.TrunkIndexed H)
    (hreach : c.ReachesWrite H blk) (htrunk : c.isTrunk H blk.header = false)
    (hbest : c'.bestBlock = c.bestBlock)
    (hblocks : c'.kv.blocks = Function.update c.kv.blocks (blk.id H) (some blk))
    (hhashes : c'.kv.hashes = Function.update c.kv.hashes blk.number (some (blk.id H))) :
    ¬ c'.TrunkIndexed H := by
  have hunstored := h.unstored hreach
  have hle : blk.number ≤ c.bestBlock.number := by
    unfold isTrunk at htrunk
    split at htrunk
    · rename_i hlt
      exact UInt32.le_of_lt hlt
    · split at htrunk
      · exact nomatch htrunk
      · rename_i hgt
        exact UInt32.not_lt.mp hgt
  intro hindex'
  obtain ⟨a, ha, -, -⟩ := hindex blk.number hle
  obtain ⟨a', ha', -, hid⟩ := hindex' blk.number (hbest ▸ hle)
  rw [hbest, ancestor_mono (getBlock_of_update hblocks hunstored) _ ha] at ha'
  obtain rfl := Option.some.inj ha'
  rw [loadBlockHash_of_update hhashes, if_pos rfl] at hid
  rw [hid, h.ancestor_stored ha] at hunstored
  exact nomatch hunstored

/-- **A best block that was not written spoils the index** at its own
height. -/
theorem WellStored.not_indexed_of_unwritten (h : c.WellStored H) (hindex : c.TrunkIndexed H)
    (hreach : c.ReachesWrite H blk) (hbest : c'.bestBlock = blk) (hkv : c'.kv = c.kv) :
    ¬ c'.TrunkIndexed H := by
  intro hindex'
  have hid := hindex'.loadBlockHash_best
  rw [hbest, loadBlockHash, hkv] at hid
  exact h.loadBlockHash_ne hindex hreach hid

theorem WellStored.congr (h : c.WellStored H) (hbest : c'.bestBlock = c.bestBlock)
    (hkv : c'.kv = c.kv) : c'.WellStored H := by
  refine ⟨?_, ?_, ?_, ?_⟩ <;> rw [hkv]
  · exact h.keyed
  · rw [hbest]
    exact h.best_stored
  · rw [hbest]
    exact h.le_best
  · rw [hbest]
    exact h.unindexed

theorem TrunkIndexed.congr (h : c.TrunkIndexed H) (hbest : c'.bestBlock = c.bestBlock)
    (hkv : c'.kv = c.kv) : c'.TrunkIndexed H := by
  have hanc : ∀ b k, c'.ancestor b k = c.ancestor b k := by
    intro b k
    induction k with
    | zero => rfl
    | succ k ih =>
      show (c'.ancestor b k).bind (fun a => c'.kv.blocks a.parentID) = _
      rw [ih, hkv]
      rfl
  intro n hn
  rw [hbest] at hn ⊢
  obtain ⟨a, ha, hnum, hid⟩ := h n hn
  refine ⟨a, by rw [hanc]; exact ha, hnum, ?_⟩
  rw [loadBlockHash, hkv]
  exact hid

/-- **One call**: where the index is right, it stays right exactly under the
condition. -/
theorem WellStored.indexed_iff (h : c.WellStored H) (hindex : c.TrunkIndexed H)
    (call : Block × Option QuorumCert) :
    (c.afterAddBlock H call).TrunkIndexed H ↔ c.KeepsIndex H call := by
  obtain ⟨blk, qc⟩ := call
  unfold afterAddBlock KeepsIndex
  cases hadd : c.addBlock H blk qc with
  | error fault =>
    refine ⟨fun _ hreach => ?_, fun _ => hindex⟩
    obtain ⟨r, hr⟩ := hreach.exists_addBlock qc
    exact nomatch hadd.symm.trans hr
  | ok r =>
    obtain ⟨result, c'⟩ := r
    cases addBlock_cases hadd with
    | refused e hnot => exact ⟨fun _ hreach => absurd hreach hnot, fun _ => hindex⟩
    | extended fork qc hreach htrunk hqc hok =>
      rw [h.extended_iff hindex hreach htrunk rfl rfl rfl]
      refine ⟨fun hparent _ => .inl ⟨htrunk, hparent, by rw [hqc]; rfl, hok⟩, fun hcond => ?_⟩
      rcases hcond hreach with ⟨-, hparent, -⟩ | ⟨hfalse, -⟩
      · exact hparent
      · exact absurd (hfalse.symm.trans htrunk) Bool.false_ne_true
    | unwritten e q n hreach htrunk hnot =>
      refine ⟨fun hindex' => absurd hindex'
        (h.not_indexed_of_unwritten hindex hreach rfl rfl), fun hcond => ?_⟩
      rcases hcond hreach with ⟨-, -, hwritten⟩ | ⟨hfalse, -⟩
      · exact absurd hwritten hnot
      · exact absurd (hfalse.symm.trans htrunk) Bool.false_ne_true
    | branched fork hreach htrunk hok =>
      refine ⟨fun hindex' => absurd hindex'
        (h.not_indexed_of_branched hindex hreach htrunk rfl rfl rfl), fun hcond => ?_⟩
      rcases hcond hreach with ⟨htrue, -⟩ | ⟨-, hfails⟩
      · exact absurd (htrunk.symm.trans htrue) Bool.false_ne_true
      · exact absurd (hfails.symm.trans hok) Bool.false_ne_true
    | lost e n hreach htrunk hok =>
      exact ⟨fun _ _ => .inr ⟨htrunk, hok⟩, fun _ => hindex.congr rfl rfl⟩

/-- A block that becomes the best one leaves the store in order. -/
theorem WellStored.withBest (h : c.WellStored H) (hreach : c.ReachesWrite H blk)
    (htrunk : c.isTrunk H blk.header = true) (qc : QuorumCert) :
    (c.withBest H blk qc).WellStored H := by
  obtain ⟨hle, -⟩ := h.number_of_isTrunk hreach htrunk
  have hblocks : (c.withBest H blk qc).kv.blocks
      = Function.update c.kv.blocks (blk.id H) (some blk) := rfl
  refine ⟨fun id b hb => ?_, ?_, fun id b hb => ?_, fun n hn => ?_⟩
  · rw [hblocks, Function.update_apply] at hb
    split at hb
    · rename_i hid
      rw [← Option.some.inj hb, hid]
    · exact h.keyed id b hb
  · rw [hblocks]
    exact Function.update_self ..
  · show b.number ≤ blk.number
    rw [hblocks, Function.update_apply] at hb
    split at hb
    · rw [← Option.some.inj hb]
      exact UInt32.le_refl _
    · exact UInt32.le_trans (h.le_best id b hb) hle
  · have hn : blk.number < n := hn
    show Function.update c.kv.hashes blk.number (some (blk.id H)) n = none
    rw [Function.update_of_ne (UInt32.ne_of_lt hn).symm]
    exact h.unindexed n (UInt32.lt_of_le_of_lt hle hn)

/-- **A block on top of the best one can be added.** -/
theorem WellStored.addBlock_child (h : c.WellStored H) (qc : QuorumCert)
    (hparent : blk.parentID = c.bestBlock.id H) (habove : c.bestBlock.number < blk.number)
    (hok : c.writeOK c.batchWrites = true) :
    c.ReachesWrite H blk ∧ c.isTrunk H blk.header = true
      ∧ ∃ fork, c.addBlock H blk (some qc) = .ok (.ok fork, c.withBest H blk qc) := by
  have hheader : c.getBlockHeader blk.parentID = some c.bestBlock.header := by
    rw [getBlockHeader, hparent, h.best_stored]
    rfl
  have hexists : c.blockExists H blk = false := by
    unfold blockExists
    cases hstored : c.getBlockHeader (blk.id H) with
    | none => rfl
    | some header =>
      -- a stored block is not above the best one
      obtain ⟨b, hb, -⟩ := Option.map_eq_some_iff.mp hstored
      have hle := h.le_best _ b hb
      rw [← Block.number_id H b, h.keyed _ b hb, Block.number_id] at hle
      exact absurd habove (UInt32.not_lt.mpr hle)
  have htrunk : c.isTrunk H blk.header = true := isTrunk_of_lt H habove
  obtain ⟨fork, hfork⟩ :
      ∃ fork, c.buildFork H blk.header c.bestBlock.header = .ok (.ok fork) := by
    have hgt : blk.header.number > c.bestBlock.header.number := habove
    have hlookup : c.getBlockHeader blk.header.parentID = some c.bestBlock.header := hheader
    refine ⟨⟨c.bestBlock.header, [blk.header], []⟩, ?_⟩
    unfold buildFork buildForkLoop
    rw [if_pos hgt, hlookup]
    dsimp only
    unfold buildForkLoop
    rw [if_neg (UInt32.lt_irrefl _), if_neg (UInt32.lt_irrefl _), if_pos rfl]
  refine ⟨⟨hexists, by rw [hheader]; rfl, fun _ => ⟨fork, hfork⟩⟩, htrunk, fork, ?_⟩
  unfold addBlock
  rw [hexists, if_neg Bool.false_ne_true, hheader]
  dsimp only
  rw [htrunk, if_pos rfl, hfork]
  simp only [writeBatch, hok, if_true]
  rfl

/-- A call that meets the condition leaves the store in order. -/
theorem WellStored.afterAddBlock (h : c.WellStored H) {call : Block × Option QuorumCert}
    (hcond : c.KeepsIndex H call) :
    (c.afterAddBlock H call).WellStored H := by
  obtain ⟨blk, qc⟩ := call
  unfold Chain.afterAddBlock
  cases hadd : c.addBlock H blk qc with
  | error fault => exact h
  | ok r =>
    obtain ⟨result, c'⟩ := r
    cases addBlock_cases hadd with
    | refused => exact h
    | extended fork qc hreach htrunk => exact h.withBest hreach htrunk qc
    | unwritten e q n hreach htrunk hnot =>
      rcases hcond hreach with ⟨-, -, hwritten⟩ | ⟨hfalse, -⟩
      · exact absurd hwritten hnot
      · exact absurd (hfalse.symm.trans htrunk) Bool.false_ne_true
    | branched fork hreach htrunk hok =>
      rcases hcond hreach with ⟨htrue, -⟩ | ⟨-, hfails⟩
      · exact absurd (htrunk.symm.trans htrue) Bool.false_ne_true
      · exact absurd (hfails.symm.trans hok) Bool.false_ne_true
    | lost => exact h.congr rfl rfl

/-! ## Sequences of calls -/

theorem wellStored_initializeStore (E : Env) {genesis : Block} (vset nextVSet : ValidatorSet)
    (writeOK : ℕ → Bool) (hgenesis : genesis.number = 0) :
    (initializeStore E genesis vset nextVSet writeOK).WellStored E.H := by
  refine ⟨fun id b hb => ?_, if_pos rfl, fun id b hb => ?_, fun n hn => ?_⟩
  · obtain ⟨rfl, rfl⟩ := eq_of_blocks_initializeStore hb
    rfl
  · obtain ⟨rfl, rfl⟩ := eq_of_blocks_initializeStore hb
    exact UInt32.le_refl _
  · have hn : genesis.number < n := hn
    refine if_neg fun hzero => ?_
    rw [hgenesis, hzero] at hn
    exact UInt32.lt_irrefl _ hn

theorem trunkIndexed_initializeStore (E : Env) {genesis : Block} (vset nextVSet : ValidatorSet)
    (writeOK : ℕ → Bool) (hgenesis : genesis.number = 0) :
    (initializeStore E genesis vset nextVSet writeOK).TrunkIndexed E.H := by
  intro n hn
  have hn : n ≤ genesis.number := hn
  rw [hgenesis] at hn
  obtain rfl : n = 0 := UInt32.toNat.inj (Nat.le_zero.mp (UInt32.le_iff_toNat_le.mp hn))
  refine ⟨genesis, ?_, hgenesis, rfl⟩
  show ancestor _ genesis (genesis.number.toNat - (0 : UInt32).toNat) = some genesis
  rw [hgenesis]
  rfl

end Chain

/-- **The index lists the trunk all along a sequence of calls exactly if every
call of it grows the trunk at its end, or replaces its last block by a
sibling, and is written.** -/
theorem trunkIndexed_iff_keepsIndex {E : Env} {genesis : Block} (vset nextVSet : ValidatorSet)
    (writeOK : ℕ → Bool) (hgenesis : genesis.number = 0)
    (calls : List (Block × Option QuorumCert)) :
    (∀ n, (Machine.play (Chain.afterAddBlock E.H)
        (Chain.initializeStore E genesis vset nextVSet writeOK) (calls.take n)).TrunkIndexed E.H)
      ↔ Machine.Plays (Chain.afterAddBlock E.H) (Chain.KeepsIndex E.H)
        (Chain.initializeStore E genesis vset nextVSet writeOK) calls :=
  Machine.forall_take_iff_plays calls (Machine.plays_of_forall (fun _ _ => trivial) calls _)
    (Chain.wellStored_initializeStore E vset nextVSet writeOK hgenesis)
    (Chain.trunkIndexed_initializeStore E vset nextVSet writeOK hgenesis)
    (fun _ _ hstored _ _ hcond => hstored.afterAddBlock hcond)
    (fun _ call hstored hindex _ => hstored.indexed_iff hindex call)

/-- A chain grown under the condition is in order and its index lists its
trunk. -/
theorem Chain.grown_of_keepsIndex (hstored : c.WellStored H) (hindex : c.TrunkIndexed H)
    {calls : List (Block × Option QuorumCert)}
    (hplays : Machine.Plays (afterAddBlock H) (KeepsIndex H) c calls) :
    (Machine.play (afterAddBlock H) c calls).WellStored H
      ∧ (Machine.play (afterAddBlock H) c calls).TrunkIndexed H := by
  refine (Machine.Run.of_plays calls hplays).invariant
    (P := fun c => c.WellStored H ∧ c.TrunkIndexed H) ⟨hstored, hindex⟩ ?_
  rintro c call hcond ⟨hstored, hindex⟩
  exact ⟨hstored.afterAddBlock hcond, (hstored.indexed_iff hindex call).mpr hcond⟩

namespace Testnet

/-- The chain after some calls of `AddBlock`, each with a certificate of its
block. -/
def addBlocks (blocks : List Block) : Chain :=
  Machine.play (Chain.afterAddBlock hashes) chain
    (blocks.map (fun b => (b, some (certificate b 1))))

/-- A block on the genesis block, and a block on that one. -/
def twoBlocks : List Block :=
  let b := block genesis 1 genesisQC []
  [b, block b 2 (certificate b 1) []]

theorem keepsIndex_twoBlocks :
    Machine.Plays (Chain.afterAddBlock hashes) (Chain.KeepsIndex hashes) chain
      (twoBlocks.map (fun b => (b, some (certificate b 1)))) := by
  refine ⟨fun _ => .inl ⟨?_, .inr ?_, rfl, rfl⟩, fun _ => .inl ⟨?_, .inr ?_, rfl, ?_⟩, trivial⟩
  all_goals decide +kernel

theorem grown_twoBlocks :
    (addBlocks twoBlocks).WellStored hashes ∧ (addBlocks twoBlocks).TrunkIndexed hashes :=
  Chain.grown_of_keepsIndex
    (Chain.wellStored_initializeStore env committee committee (fun _ => true) rfl)
    (Chain.trunkIndexed_initializeStore env committee committee (fun _ => true) rfl)
    keepsIndex_twoBlocks

/-- Two blocks on top of each other. -/
theorem trunkIndexed_of_two_blocks :
    (addBlocks twoBlocks).bestBlock.number = 2
      ∧ ∀ n, (Machine.play (Chain.afterAddBlock hashes) chain
          ((twoBlocks.map (fun b => (b, some (certificate b 1)))).take n)).TrunkIndexed hashes :=
  ⟨by decide +kernel,
    (trunkIndexed_iff_keepsIndex (E := env) committee committee (fun _ => true) rfl _).mpr
      keepsIndex_twoBlocks⟩

/-- **A block beside the trunk takes its place in the index.** The second
block of height one is not on the trunk, and from then on the index has it
under that number. -/
theorem sibling_takes_the_entry :
    let b := block genesis 1 genesisQC []
    let sibling := block genesis 2 genesisQC []
    let c := addBlocks [b, sibling]
    c.bestBlock = b ∧ c.loadBlockHash 1 = sibling.id hashes ∧ ¬ c.TrunkIndexed hashes := by
  refine ⟨by decide +kernel, by decide +kernel, fun hindex => ?_⟩
  have hbest := hindex.loadBlockHash_best
  revert hbest
  decide +kernel

end Testnet

end LoragonBFT
