import LoragonBFT.Rpc
import LoragonBFT.TrunkIndex

/-!
# The certificate a block is served with

A node that serves a block sends along a certificate of it. For a block below
the best one this is the certificate its child carries, and for the best block
it is `BestQC`. The handler finds out which by asking the chain: it compares the
number of the block with that of the best one, and then reads one or the other.
The chain locks itself for every one of these reads, and no lock is held from
one to the next. When a block is committed after the comparison and before the
read, `BestQC` is already the certificate of the new block, and it goes out with
the old one.

A block that a peer announces is handed on with `BestQC` whatever block it is:
this is its certificate only if the node has committed that very block and
nothing after it.

Here the reads of any number of handlers and the calls of `AddBlock` come in any
order. A server escorts every block rightly exactly if the best block is still
the one it was compared with whenever `BestQC` is read.
-/

namespace LoragonBFT

variable {H : Hashes}

variable {c : Chain} {escortQC : QuorumCert}

namespace Chain

/-! ## Chains that grow at their end -/

/-- **A call of `AddBlock` extends the best block with its own certificate**:
the new block is one above the best one, it carries a certificate of it, and it
comes with a certificate of its own. -/
structure Extends (H : Hashes) (c : Chain) (blk : Block) (escortQC : QuorumCert) : Prop where
  parent : blk.parentID = c.bestBlock.id H
  above : c.bestBlock.number < blk.number
  carries : blk.qc.blockID = blk.parentID
  certified : escortQC.blockID = blk.id H
  written : c.writeOK c.batchWrites = true

instance (H : Hashes) (c : Chain) (blk : Block) (escortQC : QuorumCert) :
    Decidable (c.Extends H blk escortQC) :=
  decidable_of_iff (blk.parentID = c.bestBlock.id H ∧ c.bestBlock.number < blk.number
      ∧ blk.qc.blockID = blk.parentID ∧ escortQC.blockID = blk.id H
      ∧ c.writeOK c.batchWrites = true)
    ⟨fun ⟨h₁, h₂, h₃, h₄, h₅⟩ => ⟨h₁, h₂, h₃, h₄, h₅⟩,
      fun ⟨h₁, h₂, h₃, h₄, h₅⟩ => ⟨h₁, h₂, h₃, h₄, h₅⟩⟩

/-- **A chain without branches.** All blocks that are stored are in the index,
each above its parent and with a certificate of it. -/
structure Linear (H : Hashes) (c : Chain) : Prop where
  stored : c.WellStored H
  indexed : ∀ id b, c.kv.blocks id = some b → c.loadBlockHash b.number = id
  linked : ∀ id b, c.kv.blocks id = some b → b.number ≠ 0 →
    c.loadBlockHash (b.number - 1) = b.parentID
  carries : ∀ id b, c.kv.blocks id = some b → b.number ≠ 0 → b.qc.blockID = b.parentID
  covered : ∀ n ≤ c.bestBlock.number, ∃ b, c.getTrunkBlock n = some b ∧ b.number = n
  certified : c.bestQC.blockID = c.bestBlock.id H

/-- The block the index has under the best block's identifier is the best
block. -/
theorem WellStored.getTrunkBlock_eq (h : c.WellStored H) {n : UInt32}
    (hload : c.loadBlockHash n = c.bestBlock.id H) : c.getTrunkBlock n = some c.bestBlock := by
  rw [getTrunkBlock, hload]
  exact h.best_stored

/-- A new store has one block and no branches. -/
theorem linear_initializeStore (E : Env) {genesis : Block} (vset nextVSet : ValidatorSet)
    (writeOK : ℕ → Bool) (hgenesis : genesis.number = 0) :
    (initializeStore E genesis vset nextVSet writeOK).Linear E.H := by
  have hstored := wellStored_initializeStore E vset nextVSet writeOK hgenesis
  have hload : (initializeStore E genesis vset nextVSet writeOK).loadBlockHash 0
      = genesis.id E.H := by
    simp only [loadBlockHash, initializeStore, if_true, Option.getD_some]
  refine ⟨hstored, fun id b hb => ?_, fun id b hb hne => ?_, fun id b hb hne => ?_,
    fun n hn => ?_, rfl⟩
  · obtain ⟨rfl, rfl⟩ := eq_of_blocks_initializeStore hb
    rw [hgenesis, hload]
  · obtain ⟨rfl, rfl⟩ := eq_of_blocks_initializeStore hb
    exact absurd hgenesis hne
  · obtain ⟨rfl, rfl⟩ := eq_of_blocks_initializeStore hb
    exact absurd hgenesis hne
  · have hn : n ≤ genesis.number := hn
    rw [hgenesis] at hn
    obtain rfl : n = 0 := UInt32.toNat.inj (Nat.le_zero.mp (UInt32.le_iff_toNat_le.mp hn))
    exact ⟨genesis, hstored.getTrunkBlock_eq hload, hgenesis⟩

/-- **In a chain without branches a number belongs to one block.** -/
theorem Linear.id_eq_iff (h : c.Linear H) {b b' : Block} (hb : c.kv.blocks (b.id H) = some b)
    (hb' : c.kv.blocks (b'.id H) = some b') :
    b.id H = b'.id H ↔ b.number = b'.number := by
  constructor
  · intro hid
    rw [← Block.number_id H b, hid, Block.number_id]
  · intro hnumber
    rw [← h.indexed _ b hb, hnumber, h.indexed _ b' hb']

/-- **The best certificate is that of the block with the best number.** -/
theorem Linear.bestQC_iff (h : c.Linear H) {b : Block} (hb : c.kv.blocks (b.id H) = some b) :
    c.bestQC.blockID = b.id H ↔ c.bestBlock.number = b.number := by
  rw [h.certified]
  exact h.id_eq_iff h.stored.best_stored hb

/-- **A block below the best one is certified in the next block of the
index.** -/
theorem Linear.certified_by_child (h : c.Linear H) {b child : Block}
    (hb : c.kv.blocks (b.id H) = some b) (hbelow : b.number < c.bestBlock.number)
    (hchild : c.getTrunkBlock (b.number + 1) = some child) : child.qc.blockID = b.id H := by
  have hlt := UInt32.lt_iff_toNat_lt.mp hbelow
  have hnext : (b.number + 1).toNat = b.number.toNat + 1 := by
    have hmax := c.bestBlock.number.toNat_lt
    rw [UInt32.toNat_add, show (1 : UInt32).toNat = 1 from rfl]
    omega
  obtain ⟨child', hchild', hnumber⟩ := h.covered (b.number + 1)
    (UInt32.le_iff_toNat_le.mpr (by omega))
  obtain rfl : child' = child := Option.some.inj (hchild'.symm.trans hchild)
  have hne : child'.number ≠ 0 := by
    intro hzero
    rw [hnumber] at hzero
    exact absurd (congrArg UInt32.toNat hzero) (by rw [hnext]; exact Nat.succ_ne_zero _)
  have hpred : child'.number - 1 = b.number := by
    rw [hnumber]
    exact UInt32.add_sub_cancel _ _
  rw [h.carries _ _ hchild hne, ← h.linked _ _ hchild hne, hpred, h.indexed _ b hb]

/-- A block that extends the best one is added. -/
theorem Linear.afterAddBlock_eq (h : c.Linear H) {blk : Block} (hext : c.Extends H blk escortQC) :
    c.afterAddBlock H (blk, some escortQC) = c.withBest H blk escortQC := by
  obtain ⟨-, -, fork, hadd⟩ := h.stored.addBlock_child escortQC hext.parent hext.above hext.written
  unfold Chain.afterAddBlock
  rw [hadd]

theorem toNat_sub_one {n : UInt32} (h : n ≠ 0) : (n - 1).toNat = n.toNat - 1 := by
  have hpos : 1 ≤ n.toNat := Nat.one_le_iff_ne_zero.mpr fun hzero => h (UInt32.toNat.inj hzero)
  have hle : (1 : UInt32) ≤ n := UInt32.le_iff_toNat_le.mpr hpos
  rw [UInt32.toNat_sub_of_le _ _ hle]
  rfl

/-- **A chain without branches stays one when it is extended.** -/
theorem Linear.extend (h : c.Linear H) {blk : Block} (hext : c.Extends H blk escortQC) :
    (c.withBest H blk escortQC).Linear H := by
  obtain ⟨hreach, htrunk, -⟩ :=
    h.stored.addBlock_child escortQC hext.parent hext.above hext.written
  have hunstored := h.stored.unstored hreach
  have hload : ∀ n, n ≤ c.bestBlock.number →
      (c.withBest H blk escortQC).loadBlockHash n = c.loadBlockHash n := by
    intro n hn
    rw [loadBlockHash_of_update rfl n, if_neg]
    rintro rfl
    exact absurd hext.above (UInt32.not_lt.mpr hn)
  have hloadNew : (c.withBest H blk escortQC).loadBlockHash blk.number = blk.id H := by
    rw [loadBlockHash_of_update rfl blk.number, if_pos rfl]
  have hcases : ∀ id b, (c.withBest H blk escortQC).kv.blocks id = some b →
      id = blk.id H ∧ b = blk ∨ c.kv.blocks id = some b := by
    intro id b hb
    have hb : Function.update c.kv.blocks (blk.id H) (some blk) id = some b := hb
    rw [Function.update_apply] at hb
    split at hb
    · rename_i hid
      exact .inl ⟨hid, (Option.some.inj hb).symm⟩
    · exact .inr hb
  have hne : blk.number ≠ 0 := by
    intro hzero
    have habove := hext.above
    rw [hzero] at habove
    exact absurd habove (UInt32.not_lt.mpr (UInt32.zero_le))
  have hpred : blk.number - 1 = c.bestBlock.number := by
    rw [Block.number_eq_of_ne hne, hext.parent, Block.number_id]
    exact UInt32.add_sub_cancel _ _
  have hstored := h.stored.withBest hreach htrunk escortQC
  refine ⟨hstored, fun id b hb => ?_, fun id b hb hb0 => ?_, fun id b hb hb0 => ?_,
    fun n hn => ?_, hext.certified⟩
  · rcases hcases id b hb with ⟨rfl, rfl⟩ | hb
    · exact hloadNew
    · rw [hload _ (h.stored.le_best id b hb), h.indexed id b hb]
  · rcases hcases id b hb with ⟨rfl, rfl⟩ | hb
    · rw [hpred, hload _ (UInt32.le_refl _), h.indexed _ _ h.stored.best_stored, hext.parent]
    · have hle : b.number - 1 ≤ c.bestBlock.number := by
        have hbest := UInt32.le_iff_toNat_le.mp (h.stored.le_best id b hb)
        rw [UInt32.le_iff_toNat_le, toNat_sub_one hb0]
        exact (Nat.sub_le _ _).trans hbest
      rw [hload _ hle, h.linked id b hb hb0]
  · rcases hcases id b hb with ⟨rfl, rfl⟩ | hb
    · exact hext.carries
    · exact h.carries id b hb hb0
  · have hn : n ≤ blk.number := hn
    by_cases htop : n = blk.number
    · rw [htop]
      exact ⟨blk, hstored.getTrunkBlock_eq hloadNew, rfl⟩
    · have hle : n ≤ c.bestBlock.number := by
        have hlt := UInt32.lt_iff_toNat_lt.mp (UInt32.lt_of_le_of_ne hn htop)
        rw [← hpred, UInt32.le_iff_toNat_le, toNat_sub_one hne]
        exact Nat.le_sub_one_of_lt hlt
      obtain ⟨b, hb, hnumber⟩ := h.covered n hle
      refine ⟨b, ?_, hnumber⟩
      rw [getTrunkBlock, hload n hle]
      exact getBlock_of_update rfl hunstored _ b hb

end Chain

/-! ## The handlers -/

/-- `Block.Size`: the length of the encoding. -/
def Block.size (b : Block) : ℕ := b.item.encode.length

/-- The variables of the loop that lists the blocks from a number on. -/
structure Listing where
  num : UInt32
  result : List EscortedBlock
  size : ℕ

/-- Whether the loop goes on: `maxSize` and `maxBlocks`. -/
def Listing.more (l : Listing) : Bool := l.size < 512 * 1024 && l.result.length < 1024

/-- The end of one turn of the loop. -/
def Listing.append (l : Listing) (e : EscortedBlock) : Listing where
  num := l.num + 1
  result := l.result ++ [e]
  size := l.size + (e.block.size + 10000)

/-- How far a call of `handleRPC` is: what it reads next of the chain. The call
for one block and the turns of the loop compare and escort a block in the same
way; a call that lists blocks has its loop to go back to. -/
inductive Handler where
  /-- In no call. -/
  | idle
  /-- `NEW_BLOCK`: next is `BestQC`. -/
  | announced (newBlock : Block)
  /-- `GET_BLOCK_BY_ID`: next is `GetBlock`. -/
  | looking (blockID : Bytes32)
  /-- The head of the loop: next is the number of the best block. -/
  | heading (l : Listing)
  /-- In the loop: next is `GetTrunkBlock` of the number. -/
  | fetching (l : Listing)
  /-- A block was found: next is the number of the best block. -/
  | comparing (loop : Option Listing) (blk : Block) (num : UInt32)
  /-- The block was the best one: next is `BestQC`. -/
  | atBest (loop : Option Listing) (blk : Block) (num : UInt32)
  /-- The block was another one: next is `GetTrunkBlock` of the number above. -/
  | below (loop : Option Listing) (blk : Block) (num : UInt32)

namespace Handler

/-- An escorted block was built: it is the reply, or it is added to the list. -/
def escorted (loop : Option Listing) (e : EscortedBlock) : Handler × Option EscortedBlock :=
  (match loop with
    | none => idle
    | some l => heading (l.append e),
    some e)

/-- One read of the chain, with what is done up to the next one. -/
def read (c : Chain) : Handler → Handler × Option EscortedBlock
  | idle => (idle, none)
  | announced newBlock => (idle, some ⟨newBlock, c.bestQC⟩)
  | looking blockID =>
    match c.getBlock blockID with
    | none => (idle, none)
    | some blk => (comparing none blk blk.number, none)
  | heading l =>
    if l.more then
      if l.num > c.bestBlock.number then (idle, none) else (fetching l, none)
    else (idle, none)
  | fetching l =>
    match c.getTrunkBlock l.num with
    | none => (idle, none)
    | some blk => (comparing (some l) blk l.num, none)
  | comparing loop blk num =>
    if c.bestBlock.number = num then (atBest loop blk num, none) else (below loop blk num, none)
  | atBest loop blk _ => escorted loop ⟨blk, c.bestQC⟩
  | below loop blk num =>
    match c.getTrunkBlock (num + 1) with
    | none => (idle, none)
    | some child => escorted loop ⟨blk, child.qc⟩

/-- **What a handler has found stays true while the chain grows**: the block it
has is stored and has the number it compares, and a block that was below the
best one is below it. -/
def Sound (H : Hashes) (c : Chain) : Handler → Prop
  | fetching l => l.num ≤ c.bestBlock.number
  | comparing _ blk num => c.kv.blocks (blk.id H) = some blk ∧ num = blk.number
  | atBest _ blk num => c.kv.blocks (blk.id H) = some blk ∧ num = blk.number
  | below _ blk num =>
    c.kv.blocks (blk.id H) = some blk ∧ num = blk.number ∧ num < c.bestBlock.number
  | _ => True

theorem sound_escorted (c : Chain) (loop : Option Listing) (e : EscortedBlock) :
    (escorted loop e).1.Sound H c := by
  cases loop <;> trivial

/-- **A read leaves a handler sound.** -/
theorem Sound.read (hc : c.Linear H) {h : Handler} (hsound : h.Sound H c) :
    (h.read c).1.Sound H c := by
  cases h with
  | idle => trivial
  | announced newBlock => trivial
  | looking blockID =>
    rw [Handler.read]
    cases hblk : c.getBlock blockID with
    | none => trivial
    | some blk =>
      refine ⟨?_, rfl⟩
      rw [hc.stored.keyed _ blk hblk]
      exact hblk
  | heading l =>
    rw [Handler.read]
    split
    · split
      · trivial
      · rename_i hle
        exact UInt32.not_lt.mp hle
    · trivial
  | fetching l =>
    obtain ⟨b, hb, hnumber⟩ := hc.covered l.num hsound
    rw [Handler.read, hb]
    refine ⟨?_, hnumber.symm⟩
    rw [hc.stored.keyed _ b hb]
    exact hb
  | comparing loop blk num =>
    obtain ⟨hstored, rfl⟩ := hsound
    rw [Handler.read]
    split
    · exact ⟨hstored, rfl⟩
    · rename_i hne
      exact ⟨hstored, rfl, UInt32.lt_of_le_of_ne (hc.stored.le_best _ blk hstored) (Ne.symm hne)⟩
  | atBest loop blk num => exact sound_escorted c loop _
  | below loop blk num =>
    rw [Handler.read]
    cases c.getTrunkBlock (num + 1) with
    | none => trivial
    | some child => exact sound_escorted c loop _

/-- A handler stays sound while the chain grows. -/
theorem Sound.extend (hc : c.Linear H) {h : Handler} (hsound : h.Sound H c) {blk : Block}
    (hext : c.Extends H blk escortQC) :
    h.Sound H (c.withBest H blk escortQC) := by
  obtain ⟨hreach, -, -⟩ :=
    hc.stored.addBlock_child escortQC hext.parent hext.above hext.written
  have hstays : ∀ b, c.kv.blocks (b.id H) = some b →
      (c.withBest H blk escortQC).kv.blocks (b.id H) = some b := by
    intro b hb
    rw [← Chain.getBlock]
    exact Chain.getBlock_of_update rfl (hc.stored.unstored hreach) _ b hb
  cases h with
  | idle => trivial
  | announced newBlock => trivial
  | looking blockID => trivial
  | heading l => trivial
  | fetching l => exact UInt32.le_of_lt (UInt32.lt_of_le_of_lt hsound hext.above)
  | comparing loop b num => exact ⟨hstays b hsound.1, hsound.2⟩
  | atBest loop b num => exact ⟨hstays b hsound.1, hsound.2⟩
  | below loop b num =>
    exact ⟨hstays b hsound.1, hsound.2.1, UInt32.lt_trans hsound.2.2 hext.above⟩

/-- **Nothing has come in between.** When `BestQC` is read, the best block has
the number the block was compared with; and a block that was announced is the
best one. -/
def Undisturbed (H : Hashes) (c : Chain) : Handler → Prop
  | announced newBlock => newBlock.id H = c.bestBlock.id H
  | atBest _ _ num => c.bestBlock.number = num
  | _ => True

instance (H : Hashes) (c : Chain) : (h : Handler) → Decidable (h.Undisturbed H c)
  | announced newBlock => inferInstanceAs (Decidable (newBlock.id H = c.bestBlock.id H))
  | atBest _ _ num => inferInstanceAs (Decidable (c.bestBlock.number = num))
  | idle | looking _ | heading _ | fetching _ | comparing .. | below .. => isTrue trivial

/-- **What a read builds is right exactly if nothing has come in between.** -/
theorem Sound.read_right_iff (hc : c.Linear H) {h : Handler} (hsound : h.Sound H c) :
    (∀ e ∈ (h.read c).2, e.escortQC.blockID = e.block.id H) ↔ h.Undisturbed H c := by
  -- most reads build nothing
  have hnone : (h.read c).2 = none →
      ((∀ e ∈ (h.read c).2, e.escortQC.blockID = e.block.id H) ↔ True) := by
    intro hread
    rw [hread]
    exact ⟨fun _ => trivial, fun _ _ he => nomatch he⟩
  cases h with
  | idle => exact hnone rfl
  | announced newBlock =>
    have hbuilt : ((announced newBlock).read c).2 = some ⟨newBlock, c.bestQC⟩ := rfl
    rw [hbuilt, Undisturbed, ← hc.certified]
    exact ⟨fun hright => (hright _ rfl).symm, fun heq e he => Option.some.inj he ▸ heq.symm⟩
  | looking blockID =>
    refine hnone ?_
    rw [Handler.read]
    cases c.getBlock blockID <;> rfl
  | heading l =>
    refine hnone ?_
    rw [Handler.read]
    split
    · split <;> rfl
    · rfl
  | fetching l =>
    refine hnone ?_
    rw [Handler.read]
    cases c.getTrunkBlock l.num <;> rfl
  | comparing loop blk num =>
    refine hnone ?_
    rw [Handler.read]
    split <;> rfl
  | atBest loop blk num =>
    obtain ⟨hstored, rfl⟩ := hsound
    have hbuilt : ((atBest loop blk blk.number).read c).2 = some ⟨blk, c.bestQC⟩ := rfl
    rw [hbuilt, Undisturbed, ← hc.bestQC_iff hstored]
    exact ⟨fun hright => hright _ rfl, fun heq e he => Option.some.inj he ▸ heq⟩
  | below loop blk num =>
    obtain ⟨hstored, rfl, hbelow⟩ := hsound
    refine ⟨fun _ => trivial, fun _ e he => ?_⟩
    rw [Handler.read] at he
    cases hchild : c.getTrunkBlock (blk.number + 1) with
    | none =>
      rw [hchild] at he
      exact nomatch he
    | some child =>
      rw [hchild] at he
      obtain rfl : EscortedBlock.mk blk child.qc = e := Option.some.inj he
      exact hc.certified_by_child hstored hbelow hchild

end Handler

/-! ## The server -/

/-- The server's chain, its handlers by stream, and the escorted blocks built so
far. -/
structure Escorting where
  chain : Chain
  handlers : ℕ → Handler
  built : List EscortedBlock

/-- The requests that lead to escorted blocks. -/
inductive Request where
  | newBlock (blk : Block)
  | getBlockByID (blockID : Bytes32)
  | getBlocksFromNum (num : UInt32)

/-- The handler of a request, before its first read. -/
def Request.handler : Request → Handler
  | .newBlock blk => .announced blk
  | .getBlockByID blockID => .looking blockID
  | .getBlocksFromNum num => .heading ⟨num, [], 0⟩

/-- What can happen next. -/
inductive Turn where
  /-- A block is added to the chain. -/
  | addBlock (blk : Block) (escortQC : QuorumCert)
  /-- A request arrives. -/
  | request (stream : ℕ) (r : Request)
  /-- A handler reads the chain. -/
  | read (stream : ℕ)

namespace Escorting

/-- A server that has started, with its handlers idle. -/
def start (c : Chain) : Escorting := ⟨c, fun _ => .idle, []⟩

/-- One step of the server. A stream has one request. -/
def step (H : Hashes) (s : Escorting) : Turn → Escorting
  | .addBlock blk escortQC => { s with chain := s.chain.afterAddBlock H (blk, some escortQC) }
  | .request stream r =>
    match s.handlers stream with
    | .idle => { s with handlers := Function.update s.handlers stream r.handler }
    | _ => s
  | .read stream =>
    let next := (s.handlers stream).read s.chain
    { s with
      handlers := Function.update s.handlers stream next.1
      built := s.built ++ next.2.toList }

/-- The blocks that are added extend the best one. -/
def Growing (H : Hashes) (s : Escorting) : Turn → Prop
  | .addBlock blk escortQC => s.chain.Extends H blk escortQC
  | _ => True

instance (H : Hashes) (s : Escorting) : (turn : Turn) → Decidable (s.Growing H turn)
  | .addBlock blk escortQC => inferInstanceAs (Decidable (s.chain.Extends H blk escortQC))
  | .request .. | .read _ => isTrue trivial

/-- **Every block is escorted by a certificate of its own.** -/
def Right (H : Hashes) (s : Escorting) : Prop :=
  ∀ e ∈ s.built, e.escortQC.blockID = e.block.id H

/-- Nothing has come in between when a handler reads the chain. -/
def Undisturbed (H : Hashes) (s : Escorting) : Turn → Prop
  | .read stream => (s.handlers stream).Undisturbed H s.chain
  | _ => True

instance (H : Hashes) (s : Escorting) : (turn : Turn) → Decidable (s.Undisturbed H turn)
  | .read stream => inferInstanceAs (Decidable ((s.handlers stream).Undisturbed H s.chain))
  | .addBlock .. | .request .. => isTrue trivial

/-- What holds of a server whose chain grows at its end. -/
structure Sound (H : Hashes) (s : Escorting) : Prop where
  chain : s.chain.Linear H
  handlers : ∀ stream, (s.handlers stream).Sound H s.chain

/-- **The server stays sound.** -/
theorem Sound.step {s : Escorting} (h : s.Sound H) {turn : Turn} (hgrow : s.Growing H turn) :
    (s.step H turn).Sound H := by
  cases turn with
  | addBlock blk escortQC =>
    have hchain : (s.step H (.addBlock blk escortQC)).chain
        = s.chain.withBest H blk escortQC := h.chain.afterAddBlock_eq hgrow
    refine ⟨?_, fun stream => ?_⟩
    · rw [hchain]
      exact h.chain.extend hgrow
    · rw [hchain]
      exact (h.handlers stream).extend h.chain hgrow
  | request stream r =>
    unfold Escorting.step
    dsimp only
    split
    · refine ⟨h.chain, fun stream' => ?_⟩
      show (Function.update s.handlers stream r.handler stream').Sound H s.chain
      rw [Function.update_apply]
      split
      · cases r with
        | newBlock blk => exact trivial
        | getBlockByID blockID => exact trivial
        | getBlocksFromNum num => exact trivial
      · exact h.handlers stream'
    · exact h
  | read stream =>
    refine ⟨h.chain, fun stream' => ?_⟩
    show (Function.update s.handlers stream _ stream').Sound H s.chain
    rw [Function.update_apply]
    split
    · exact (h.handlers stream).read h.chain
    · exact h.handlers stream'

/-- **A step keeps every block rightly escorted exactly if nothing has come in
between.** -/
theorem Sound.right_step_iff {s : Escorting} (h : s.Sound H) (hright : s.Right H) (turn : Turn) :
    (s.step H turn).Right H ↔ s.Undisturbed H turn := by
  cases turn with
  | addBlock blk escortQC => exact ⟨fun _ => trivial, fun _ => hright⟩
  | request stream r =>
    refine ⟨fun _ => trivial, fun _ => ?_⟩
    unfold Escorting.step
    dsimp only
    split <;> exact hright
  | read stream =>
    rw [Undisturbed, ← (h.handlers stream).read_right_iff h.chain]
    show (∀ e ∈ s.built ++ ((s.handlers stream).read s.chain).2.toList, _) ↔ _
    constructor
    · intro hall e he
      exact hall e (List.mem_append_right _ (Option.mem_toList.mpr he))
    · intro hnew e he
      rcases List.mem_append.mp he with he | he
      · exact hright e he
      · exact hnew e (Option.mem_toList.mp he)

end Escorting

/-- **All blocks a server builds are rightly escorted exactly if nothing comes in
between**: whatever the order of requests, reads and added blocks, as long as
the blocks extend the best one. -/
theorem right_iff_undisturbed {E : Env} {genesis : Block} (vset nextVSet : ValidatorSet)
    (writeOK : ℕ → Bool) (hgenesis : genesis.number = 0) (turns : List Turn)
    (hgrow : Machine.Plays (Escorting.step E.H) (Escorting.Growing E.H)
      (.start (Chain.initializeStore E genesis vset nextVSet writeOK)) turns) :
    (∀ n, (Machine.play (Escorting.step E.H)
        (.start (Chain.initializeStore E genesis vset nextVSet writeOK))
        (turns.take n)).Right E.H)
      ↔ Machine.Plays (Escorting.step E.H) (Escorting.Undisturbed E.H)
        (.start (Chain.initializeStore E genesis vset nextVSet writeOK)) turns :=
  Machine.forall_take_iff_plays (I := Escorting.Sound E.H) turns hgrow
    ⟨Chain.linear_initializeStore E vset nextVSet writeOK hgenesis, fun _ => trivial⟩
    (fun _ he => nomatch he)
    (fun _ _ hsound _ hturn _ => hsound.step hturn)
    (fun _ turn hsound hright _ => hsound.right_step_iff hright turn)

namespace Testnet

/-- The first block is added, and then the blocks are listed from the genesis on
and the first block is announced. -/
def undisturbedTurns : List Turn :=
  let b := block genesis 1 genesisQC []
  [.addBlock b (certificate b 1), .request 0 (.getBlocksFromNum 0)] ++ List.replicate 9 (.read 0)
    ++ [.request 1 (.newBlock b), .read 1]

/-- Three blocks are escorted, all of them rightly. -/
theorem right_of_undisturbedTurns :
    (Machine.play (Escorting.step hashes) (.start chain) undisturbedTurns).built.length = 3
      ∧ ∀ n, (Machine.play (Escorting.step hashes) (.start chain)
        (undisturbedTurns.take n)).Right hashes := by
  refine ⟨by decide +kernel, (right_iff_undisturbed (E := env) committee committee (fun _ => true)
    rfl undisturbedTurns ?_).mpr ?_⟩
  · exact Machine.Plays.of_test (fun s turn => decide (s.Growing hashes turn))
      (fun _ _ => of_decide_eq_true) _ (by decide +kernel)
  · exact Machine.Plays.of_test (fun s turn => decide (s.Undisturbed hashes turn))
      (fun _ _ => of_decide_eq_true) _ (by decide +kernel)

/-- The genesis is asked for, and the first block is added once its number has
been compared with that of the best block. -/
def disturbedTurns : List Turn :=
  let b := block genesis 1 genesisQC []
  [.request 0 (.getBlockByID (genesis.id hashes)), .read 0, .read 0,
    .addBlock b (certificate b 1), .read 0]

/-- **The genesis goes out with the certificate of the first block.** -/
theorem genesis_wrongly_escorted :
    Machine.Plays (Escorting.step hashes) (Escorting.Growing hashes) (.start chain) disturbedTurns
      ∧ (Machine.play (Escorting.step hashes) (.start chain) disturbedTurns).built
        = [⟨genesis, certificate (block genesis 1 genesisQC []) 1⟩]
      ∧ ¬ (Machine.play (Escorting.step hashes) (.start chain) disturbedTurns).Right hashes := by
  have hbuilt : (Machine.play (Escorting.step hashes) (.start chain) disturbedTurns).built
      = [⟨genesis, certificate (block genesis 1 genesisQC []) 1⟩] := by decide +kernel
  refine ⟨?_, hbuilt, fun hright => ?_⟩
  · exact Machine.Plays.of_test (fun s turn => decide (s.Growing hashes turn))
      (fun _ _ => of_decide_eq_true) _ (by decide +kernel)
  · have hwrong := hright _ (hbuilt ▸ List.mem_singleton.mpr rfl)
    revert hwrong
    decide +kernel

end Testnet

end LoragonBFT
