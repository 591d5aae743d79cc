import LoragonBFT.StoreRuns
import LoragonBFT.TrunkIndex

/-!
# Reading a chain that may switch branches

`NewBlockReader` hands out the blocks of the trunk one after the other. It
remembers the block it has come to, and if that block is no longer on the
trunk it first takes it back, and its ancestors with it, until it comes to a
block that is: the blocks it returns are marked as obsolete or not.

What a reader is good for is said by the one who reads. They hold a list of
blocks, take the top one off for a block marked obsolete and put every other
block on top. Whatever is added to the chain between two reads – as long as
the index lists the trunk, which is what the reader goes by – the blocks that
come always fit: what is taken back is on top, and what is put on top has the
top as its parent. So the list is at all times the whole chain from the block
the reader has come to down to the genesis; and if nothing more is added, it
becomes the trunk.
-/

namespace LoragonBFT

variable {H : Hashes}

/-- `chain.Block`: a block, and whether it is obsolete. -/
structure ReadBlock where
  block : Block
  obsolete : Bool

namespace Chain

/-- The loop of `Read`, with the position it leaves behind. -/
def readLoop (H : Hashes) (c : Chain) : ℕ → Bytes32 → List ReadBlock →
    Except Panic (Except Err (List ReadBlock) × Bytes32)
  | 0, _, _ => .error .diverges
  | fuel + 1, position, blocks =>
    match c.getBlock position with
    | none => .ok (.error .notFound, position)
    | some b =>
      if number position > number (c.bestBlock.id H) then
        c.readLoop H fuel b.parentID (blocks ++ [⟨b, true⟩])
      else if position = c.loadBlockHash (number position) then
        -- `nextBlock`
        match c.getTrunkBlock (number position + 1) with
        | none => .ok (.error .notFound, position)
        | some next => .ok (.ok (blocks ++ [⟨next, false⟩]), next.id H)
      else c.readLoop H fuel b.parentID (blocks ++ [⟨b, true⟩])

/-- `Read` of a block reader at a position. -/
def read (H : Hashes) (c : Chain) (position : Bytes32) :
    Except Panic (Except Err (List ReadBlock) × Bytes32) :=
  if c.bestBlock.id H = position then .ok (.ok [], position)
  else c.readLoop H ((number position).toNat + 2) position []

/-! ## The blocks down to the genesis -/

/-- **The blocks from one down to the genesis**, each stored and the parent of
the one before. -/
inductive Line (H : Hashes) (c : Chain) (genesis : Block) : List Block → Prop
  | root (stored : c.kv.blocks (genesis.id H) = some genesis) : Line H c genesis [genesis]
  | step {b p : Block} {l : List Block} (stored : c.kv.blocks (b.id H) = some b)
      (link : b.parentID = p.id H) (rest : Line H c genesis (p :: l)) :
      Line H c genesis (b :: p :: l)

/-- What a reader needs of a chain: a rooted store, and an index that lists
the trunk. -/
structure Readable (H : Hashes) (genesis : Block) (c : Chain) : Prop where
  rooted : c.kv.Rooted H genesis
  wellStored : c.WellStored H
  indexed : c.TrunkIndexed H

variable {c : Chain} {genesis b : Block} {l : List Block}

theorem Line.stored (h : c.Line H genesis (b :: l)) : c.kv.blocks (b.id H) = some b := by
  cases h with
  | root stored => exact stored
  | step stored => exact stored

theorem Line.mono {c' : Chain}
    (hstays : ∀ id b, c.kv.blocks id = some b → c'.kv.blocks id = some b)
    (h : c.Line H genesis l) : c'.Line H genesis l := by
  induction h with
  | root stored => exact .root (hstays _ _ stored)
  | step stored link _ ih => exact .step (hstays _ _ stored) link ih

/-- The index has the block. -/
def Listed (H : Hashes) (c : Chain) (b : Block) : Prop := c.loadBlockHash b.number = b.id H

/-- A block with the number zero is on the trunk. -/
theorem Readable.listed_of_zero (h : c.Readable H genesis)
    (hstored : c.kv.blocks (b.id H) = some b) (hzero : b.number = 0) : c.Listed H b := by
  obtain ⟨a, ha, hnumber, hid⟩ := h.indexed b.number (h.wellStored.le_best _ b hstored)
  rw [Listed, hid, h.rooted.root _ a (h.wellStored.ancestor_stored ha) (hnumber.trans hzero),
    h.rooted.root _ b hstored hzero]

/-- Below the best block, the index goes on with a child. -/
theorem Readable.exists_next (h : c.Readable H genesis)
    (hstored : c.kv.blocks (b.id H) = some b) (htrunk : c.Listed H b)
    (hne : c.bestBlock.id H ≠ b.id H) :
    ∃ next, c.getTrunkBlock (b.number + 1) = some next
      ∧ c.kv.blocks (next.id H) = some next ∧ next.parentID = b.id H
      ∧ next.number.toNat = b.number.toNat + 1 ∧ c.Listed H next := by
  have hle := UInt32.le_iff_toNat_le.mp (h.wellStored.le_best _ b hstored)
  have hlt : b.number.toNat < c.bestBlock.number.toNat := by
    refine lt_of_le_of_ne hle fun heq => hne ?_
    rw [← h.indexed.loadBlockHash_best, ← UInt32.toNat.inj heq]
    exact htrunk
  have hfits := c.bestBlock.number.toNat_lt
  have hsucc : (b.number + 1).toNat = b.number.toNat + 1 := by
    rw [UInt32.toNat_add]
    exact Nat.mod_eq_of_lt (by simp; omega)
  obtain ⟨next, hnext, hnumber, hid⟩ := h.indexed (b.number + 1)
    (UInt32.le_iff_toNat_le.mpr (by omega))
  have hnext_stored := h.wellStored.ancestor_stored hnext
  -- one link further down the index has the block itself
  obtain ⟨a, ha, -, haid⟩ := h.indexed b.number (UInt32.le_iff_toNat_le.mpr hle)
  rw [show c.bestBlock.number.toNat - b.number.toNat
      = (c.bestBlock.number.toNat - (b.number + 1).toNat) + 1 by omega] at ha
  obtain ⟨next', hnext', hparent⟩ := Option.bind_eq_some_iff.mp ha
  obtain rfl := Option.some.inj (hnext'.symm.trans hnext)
  refine ⟨next', ?_, hnext_stored, ?_, by rw [hnumber, hsucc], ?_⟩
  · unfold getTrunkBlock
    rw [hid]
    exact hnext_stored
  · rw [← h.wellStored.keyed _ a hparent, ← haid]
    exact htrunk
  · unfold Listed
    rw [hnumber]
    exact hid

end Chain

/-! ## What comes of a read -/

/-- **What a user does with a block they read**: the top block is taken back,
or a child of it is put on top. Nothing else fits. -/
def follow (H : Hashes) : List Block → ReadBlock → Option (List Block)
  | [], _ => none
  | top :: rest, ⟨b, true⟩ => if b = top then some rest else none
  | top :: rest, ⟨b, false⟩ => if b.parentID = top.id H then some (b :: top :: rest) else none

namespace Chain

variable {c : Chain} {genesis b : Block} {l : List Block}

/-- **What the loop returns fits**, and leaves a line that ends on the
trunk – one block further if it began there. -/
theorem Readable.readLoop_eq (h : c.Readable H genesis) (hgenesis : genesis.number = 0)
    (fuel : ℕ) (blocks : List ReadBlock) (hline : c.Line H genesis (b :: l))
    (hne : c.bestBlock.id H ≠ b.id H) (hfuel : b.number.toNat < fuel) :
    ∃ shown next rest, c.readLoop H fuel (b.id H) blocks
        = .ok (.ok (blocks ++ shown), next.id H)
      ∧ shown.foldlM (follow H) (b :: l) = some (next :: rest)
      ∧ c.Line H genesis (next :: rest) ∧ c.Listed H next
      ∧ (c.Listed H b → next.number.toNat = b.number.toNat + 1) := by
  induction fuel generalizing b l blocks with
  | zero => exact absurd hfuel (Nat.not_lt_zero _)
  | succ fuel ih =>
    have hstored := hline.stored
    have hle := h.wellStored.le_best _ b hstored
    unfold readLoop
    rw [show c.getBlock (b.id H) = some b from hstored, Block.number_id, Block.number_id]
    dsimp only
    rw [if_neg (UInt32.not_lt.mpr hle)]
    by_cases htrunk : c.Listed H b
    · obtain ⟨next, hnext, hnext_stored, hlink, hnumber, hnext_trunk⟩ :=
        h.exists_next hstored htrunk hne
      rw [if_pos (Eq.symm htrunk), hnext]
      refine ⟨[⟨next, false⟩], next, b :: l, rfl, ?_, .step hnext_stored hlink hline, hnext_trunk,
        fun _ => hnumber⟩
      simp [follow, hlink]
    · rw [if_neg fun heq => htrunk heq.symm]
      have hzero : b.number ≠ 0 := fun hzero => htrunk (h.listed_of_zero hstored hzero)
      cases hline with
      | root => exact absurd hgenesis hzero
      | @step _ p l stored link rest =>
        have hlow : b.number.toNat = p.number.toNat + 1 := by
          rw [Block.toNat_number_of_ne hzero, link, Block.number_id]
        have hbest : c.bestBlock.id H ≠ p.id H := fun heq => by
          have hsame := congrArg number heq
          rw [Block.number_id, Block.number_id] at hsame
          have := UInt32.le_iff_toNat_le.mp hle
          rw [hsame] at this
          omega
        obtain ⟨shown, next, rest', hloop, hfollow, hline', hnext, -⟩ :=
          ih (blocks ++ [⟨b, true⟩]) rest hbest (by omega)
        refine ⟨⟨b, true⟩ :: shown, next, rest', ?_, ?_, hline', hnext,
          fun hon => absurd hon htrunk⟩
        · rw [link, hloop, List.append_assoc]
          rfl
        · rw [List.foldlM_cons]
          simpa [follow] using hfollow

end Chain

/-! ## Reading while the chain grows -/

/-- A chain, a reader of it, and what its user holds – nothing at all once a
read has failed or a block did not fit. -/
structure Following where
  chain : Chain
  position : Bytes32
  held : Option (List Block)

namespace Following

/-- What can happen: a call of `AddBlock`, or a read. -/
inductive Turn where
  | add (call : Block × Option QuorumCert)
  | read

/-- The user with what a read returned. -/
def onRead (H : Hashes) (s : Following) :
    Except Panic (Except Err (List ReadBlock) × Bytes32) → Following
  | .ok (.ok blocks, position) =>
    { s with position, held := s.held.bind (blocks.foldlM (follow H)) }
  | .ok (.error _, position) => { s with position, held := none }
  | .error _ => { s with held := none }

def step (H : Hashes) (s : Following) : Turn → Following
  | .add call => { s with chain := s.chain.afterAddBlock H call }
  | .read => s.onRead H (s.chain.read H s.position)

/-- The calls keep the index right. -/
def KeepsIndex (H : Hashes) (s : Following) : Turn → Prop
  | .add call => s.chain.KeepsIndex H call
  | .read => True

/-- A reader at the genesis. -/
def start (H : Hashes) (c : Chain) (genesis : Block) : Following where
  chain := c
  position := genesis.id H
  held := some [genesis]

/-- **The user holds the blocks from the position down to the genesis.** -/
structure InStep (H : Hashes) (genesis : Block) (s : Following) : Prop where
  readable : s.chain.Readable H genesis
  held : ∃ b l, s.held = some (b :: l) ∧ b.id H = s.position ∧ s.chain.Line H genesis (b :: l)

variable {genesis : Block} {s : Following}

/-- A call that keeps the index right leaves a chain that can be read. -/
theorem readable_afterAddBlock {c : Chain} (h : c.Readable H genesis)
    (hgenesis : genesis.number = 0) (hid : genesis.id H ≠ 0)
    {call : Block × Option QuorumCert} (hkeeps : c.KeepsIndex H call) :
    (c.afterAddBlock H call).Readable H genesis
      ∧ ∀ id b, c.kv.blocks id = some b → (c.afterAddBlock H call).kv.blocks id = some b := by
  obtain ⟨blk, qc⟩ := call
  have hstored := h.wellStored.afterAddBlock hkeeps
  have hindexed := (h.wellStored.indexed_iff h.indexed (blk, qc)).mpr hkeeps
  -- the store is as it was, or has one more block above the genesis
  have hkv : (c.afterAddBlock H (blk, qc)).kv = c.kv
      ∨ c.ReachesWrite H blk ∧ c.isTrunk H blk.header = true
        ∧ (c.afterAddBlock H (blk, qc)).kv.blocks
          = Function.update c.kv.blocks (blk.id H) (some blk) := by
    unfold Chain.afterAddBlock
    cases hadd : c.addBlock H blk qc with
    | error fault => exact .inl rfl
    | ok r =>
      obtain ⟨result, c'⟩ := r
      cases Chain.addBlock_cases hadd with
      | extended fork qc hreach htrunk => exact .inr ⟨hreach, htrunk, rfl⟩
      | branched fork hreach htrunk hok =>
        rcases hkeeps hreach with ⟨htrue, -⟩ | ⟨-, hfails⟩
        · exact absurd (htrunk.symm.trans htrue) Bool.false_ne_true
        · exact absurd (hfails.symm.trans hok) Bool.false_ne_true
      | _ => exact .inl rfl
  rcases hkv with hsame | ⟨hreach, htrunk, hblocks⟩
  · exact ⟨⟨hsame ▸ h.rooted, hstored, hindexed⟩, fun id b hb => hsame ▸ hb⟩
  have hnumber : blk.number ≠ 0 := fun hzero => by
    -- a block with the number zero names a parent that is not stored
    have hle := (h.wellStored.number_of_isTrunk hreach htrunk).1
    obtain ⟨hd, hhd⟩ := Option.isSome_iff_exists.mp hreach.2.1
    obtain ⟨p, hp, -⟩ := Option.map_eq_some_iff.mp hhd
    have hpnumber : number blk.parentID ≤ blk.number := by
      rw [← h.wellStored.keyed _ p hp, Block.number_id]
      exact UInt32.le_trans (h.wellStored.le_best _ p hp) hle
    have hparent : blk.header.parentID ≠ 0 := fun h0 => by
      have hnone := Chain.getBlockHeader_zero h.rooted hid
      rw [← h0] at hnone
      cases hnone.symm.trans hhd
    have hsum : blk.number = number blk.parentID + 1 := if_neg hparent
    rw [hzero] at hpnumber hsum
    rw [UInt32.le_zero_iff.mp hpnumber] at hsum
    cases hsum
  refine ⟨⟨h.rooted.update hgenesis hnumber ?_ hblocks, hstored, hindexed⟩,
    Chain.getBlock_of_update hblocks (h.wellStored.unstored hreach)⟩
  have hparent := hreach.2.1
  unfold Chain.getBlockHeader at hparent
  rwa [Option.isSome_map] at hparent

/-- A read from elsewhere than the best block goes one block on, along the
trunk. -/
theorem InStep.read (h : s.InStep H genesis) (hgenesis : genesis.number = 0)
    (hne : s.chain.bestBlock.id H ≠ s.position) {b : Block} {l : List Block}
    (hheld : s.held = some (b :: l)) (hpos : b.id H = s.position)
    (hline : s.chain.Line H genesis (b :: l)) :
    ∃ next rest, s.step H .read = ⟨s.chain, next.id H, some (next :: rest)⟩
      ∧ s.chain.Line H genesis (next :: rest) ∧ s.chain.Listed H next
      ∧ (s.chain.Listed H b → next.number.toNat = b.number.toNat + 1) := by
  have hread : s.chain.read H s.position
      = s.chain.readLoop H (b.number.toNat + 2) (b.id H) [] := by
    unfold Chain.read
    rw [if_neg hne, ← hpos, Block.number_id]
  obtain ⟨shown, next, rest, hloop, hfollow, hline', hfacts⟩ :=
    h.readable.readLoop_eq hgenesis (b.number.toNat + 2) [] hline (by rwa [hpos]) (by omega)
  refine ⟨next, rest, ?_, hline', hfacts⟩
  show s.onRead H (s.chain.read H s.position) = _
  rw [hread, hloop]
  simp [onRead, hheld, hfollow]

theorem InStep.step (h : s.InStep H genesis) (hgenesis : genesis.number = 0)
    (hid : genesis.id H ≠ 0) {turn : Turn} (hkeeps : s.KeepsIndex H turn) :
    (s.step H turn).InStep H genesis := by
  obtain ⟨b, l, hheld, hpos, hline⟩ := h.held
  cases turn with
  | add call =>
    obtain ⟨hreadable, hstays⟩ := readable_afterAddBlock h.readable hgenesis hid hkeeps
    exact ⟨hreadable, b, l, hheld, hpos, hline.mono hstays⟩
  | read =>
    by_cases hbest : s.chain.bestBlock.id H = s.position
    · have hread : s.chain.read H s.position = .ok (.ok [], s.position) := if_pos hbest
      show (s.onRead H (s.chain.read H s.position)).InStep H genesis
      rw [hread]
      exact ⟨h.readable, b, l, by simp [onRead, hheld], hpos, hline⟩
    · obtain ⟨next, rest, hstep, hline', -⟩ := h.read hgenesis hbest hheld hpos hline
      rw [hstep]
      exact ⟨h.readable, next, rest, rfl, rfl, hline'⟩

/-- Reads alone lead to the best block: the first to the trunk, and each
further one a block up. -/
theorem InStep.exists_reads {s : Following} (h : s.InStep H genesis) (hgenesis : genesis.number = 0)
    (n : ℕ) {b : Block} {l : List Block} (hheld : s.held = some (b :: l))
    (hpos : b.id H = s.position) (hline : s.chain.Line H genesis (b :: l))
    (hn : s.chain.bestBlock.number.toNat < n ∨ s.chain.Listed H b
      ∧ s.chain.bestBlock.number.toNat ≤ b.number.toNat + n) :
    ∃ k ≤ n, (Machine.play (Following.step H) s (.replicate k .read)).position
      = s.chain.bestBlock.id H := by
  by_cases hbest : s.chain.bestBlock.id H = s.position
  · exact ⟨0, Nat.zero_le _, hbest.symm⟩
  obtain ⟨next, rest, hstep, hline', htrunk', hnumber⟩ := h.read hgenesis hbest hheld hpos hline
  have hle := UInt32.le_iff_toNat_le.mp (h.readable.wellStored.le_best _ next hline'.stored)
  have hroom : s.chain.bestBlock.number.toNat < next.number.toNat + n := by
    rcases hn with hn | ⟨htrunk, hn⟩
    · omega
    · have := hnumber htrunk
      omega
  cases n with
  | zero => omega
  | succ n =>
    obtain ⟨k, hk, hposition⟩ := exists_reads (s := ⟨s.chain, next.id H, some (next :: rest)⟩)
      ⟨h.readable, next, rest, rfl, rfl, hline'⟩ hgenesis n rfl rfl hline'
      (.inr ⟨htrunk', by dsimp only; omega⟩)
    refine ⟨k + 1, Nat.succ_le_succ hk, ?_⟩
    show (Machine.play (Following.step H) (s.step H .read) (.replicate k .read)).position = _
    rw [hstep]
    exact hposition

theorem InStep.of_run {E : Env} (vset nextVSet : ValidatorSet) (writeOK : ℕ → Bool)
    (hgenesis : genesis.number = 0) (hid : genesis.id E.H ≠ 0)
    (hrun : Machine.Run (Following.step E.H) (KeepsIndex E.H)
      (start E.H (.initializeStore E genesis vset nextVSet writeOK) genesis) s) :
    s.InStep E.H genesis := by
  have hrooted := rooted_initializeStore E vset nextVSet writeOK hgenesis
  refine hrun.invariant (P := InStep E.H genesis) ⟨⟨hrooted,
    Chain.wellStored_initializeStore E vset nextVSet writeOK hgenesis,
    Chain.trunkIndexed_initializeStore E vset nextVSet writeOK hgenesis⟩,
    genesis, [], rfl, rfl, .root hrooted.genesis_stored⟩
    fun _ _ hkeeps h => h.step hgenesis hid hkeeps

end Following

namespace Testnet

/-- A block is added and read, and then replaced by a sibling. -/
def siblingTurns : List Following.Turn :=
  let b := block genesis 1 genesisQC []
  let sibling := block genesis 2 genesisQC []
  [.add (sibling, some (certificate sibling 1)), .read, .add (b, some (certificate b 1)), .read]

theorem run_siblingTurns : Machine.Run (Following.step hashes) (Following.KeepsIndex hashes)
    (.start hashes chain genesis)
    (Machine.play (Following.step hashes) (.start hashes chain genesis) siblingTurns) := by
  refine .of_plays _ ⟨fun _ => .inl ⟨?_, .inr ?_, rfl, ?_⟩, trivial,
    fun _ => .inl ⟨?_, .inr ?_, rfl, ?_⟩, trivial, trivial⟩
  all_goals decide +kernel

end Testnet

/-- **A reader and its chain stay in step.** However reads and calls of
`AddBlock` that keep the index right alternate, no read fails, every block
that comes fits on what was read before, and what the user holds is the chain
from the reader's position down to the genesis. -/
theorem reader_in_step {E : Env} {genesis : Block} {vset nextVSet : ValidatorSet}
    {writeOK : ℕ → Bool} {s : Following} (hgenesis : genesis.number = 0)
    (hid : genesis.id E.H ≠ 0)
    (hrun : Machine.Run (Following.step E.H) (Following.KeepsIndex E.H)
      (.start E.H (.initializeStore E genesis vset nextVSet writeOK) genesis) s) :
    ∃ b l, s.held = some (b :: l) ∧ b.id E.H = s.position ∧ s.chain.Line E.H genesis (b :: l) :=
  (Following.InStep.of_run vset nextVSet writeOK hgenesis hid hrun).held

/-- The sibling was taken back. -/
theorem Testnet.sibling_in_step :
    let s := Machine.play (Following.step hashes) (.start hashes chain genesis) siblingTurns
    s.held = some [block genesis 1 genesisQC [], genesis]
      ∧ ∃ b l, s.held = some (b :: l) ∧ s.chain.Line hashes genesis (b :: l) := by
  refine ⟨by decide +kernel, ?_⟩
  obtain ⟨b, l, hheld, -, hline⟩ := reader_in_step (E := env) rfl (by decide +kernel)
    run_siblingTurns
  exact ⟨b, l, hheld, hline⟩

/-- **A reader catches up**: if nothing more is added, then after at most as
many reads as the trunk has blocks it is at the best block. -/
theorem reader_catches_up {E : Env} {genesis : Block} {vset nextVSet : ValidatorSet}
    {writeOK : ℕ → Bool} {s : Following} (hgenesis : genesis.number = 0)
    (hid : genesis.id E.H ≠ 0)
    (hrun : Machine.Run (Following.step E.H) (Following.KeepsIndex E.H)
      (.start E.H (.initializeStore E genesis vset nextVSet writeOK) genesis) s) :
    ∃ k ≤ s.chain.bestBlock.number.toNat + 1,
      (Machine.play (Following.step E.H) s (.replicate k .read)).position
        = s.chain.bestBlock.id E.H := by
  have h := Following.InStep.of_run vset nextVSet writeOK hgenesis hid hrun
  obtain ⟨b, l, hheld, hpos, hline⟩ := h.held
  exact h.exists_reads hgenesis _ hheld hpos hline (.inl (Nat.lt_succ_self _))

/-- The reader of the sibling is at the best block. -/
theorem Testnet.sibling_caught_up :
    let s := Machine.play (Following.step hashes) (.start hashes chain genesis) siblingTurns
    s.chain.bestBlock.number = 1
      ∧ ∃ k ≤ 2, (Machine.play (Following.step hashes) s (.replicate k .read)).position
        = s.chain.bestBlock.id hashes := by
  refine ⟨by decide +kernel, ?_⟩
  obtain ⟨k, hk, hposition⟩ := reader_catches_up (E := env) rfl (by decide +kernel)
    run_siblingTurns
  exact ⟨k, hk.trans (by decide +kernel), hposition⟩

end LoragonBFT
