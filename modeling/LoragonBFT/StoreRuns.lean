import LoragonBFT.Forks
import LoragonBFT.Pacemaker.Proposers

/-!
# The store along a run

What `buildFork` finds in a tree of blocks is known; that the store of a node
*is* such a tree was a premise there. Here it is a result. A node that starts
from a fresh store, whatever it is sent and in whatever order, has a tree
rooted at the genesis in its store: a block is only written on top of a stored
one, and only above the best block, so that the genesis is never written over.

Two things that could go wrong with numbers in `uint32` do not. A block whose
number is not zero has exactly one more than its parent, so the way down is as
long as the number says and the numbers of stored blocks are heights; and a
walk down the store ends, so that `AddBlock` returns for every block above the
genesis – also while the best block in memory is one the store has refused.
-/

namespace LoragonBFT

open Ancestry

variable {E : Env} {H : Hashes}

/-! ## Rooted stores -/

/-- **A store rooted at a block**: blocks stand under their identifiers, on
top of stored blocks, and nothing else has the number zero. -/
structure KV.Rooted (H : Hashes) (kv : KV) (genesis : Block) : Prop where
  keyed : ∀ id b, kv.blocks id = some b → b.id H = id
  genesis_stored : kv.blocks (genesis.id H) = some genesis
  root : ∀ id b, kv.blocks id = some b → b.number = 0 → b = genesis
  parent : ∀ id b, kv.blocks id = some b → b.number ≠ 0 → (kv.blocks b.parentID).isSome = true

namespace KV.Rooted

variable {kv kv' : KV} {genesis : Block}

/-- **A block above the root keeps the store rooted**, also where it replaces
another one. -/
theorem update (h : kv.Rooted H genesis) (hgenesis : genesis.number = 0) {b : Block}
    (hnumber : b.number ≠ 0) (hparent : (kv.blocks b.parentID).isSome = true)
    (hblocks : kv'.blocks = Function.update kv.blocks (b.id H) (some b)) :
    kv'.Rooted H genesis := by
  have hcases : ∀ id b', kv'.blocks id = some b' →
      kv.blocks id = some b' ∨ id = b.id H ∧ b' = b := by
    intro id b' hb'
    rw [hblocks, Function.update_apply] at hb'
    split at hb'
    · exact .inr ⟨‹_›, (Option.some.inj hb').symm⟩
    · exact .inl hb'
  have hstays : ∀ id, (kv.blocks id).isSome = true → (kv'.blocks id).isSome = true := by
    intro id hid
    rw [hblocks, Function.update_apply]
    split
    · rfl
    · exact hid
  refine ⟨fun id b' hb' => ?_, ?_, fun id b' hb' hzero => ?_, fun id b' hb' hne => ?_⟩
  · rcases hcases id b' hb' with hold | ⟨rfl, rfl⟩
    · exact h.keyed id b' hold
    · rfl
  · -- the genesis has another number
    rw [hblocks, Function.update_of_ne, h.genesis_stored]
    intro heq
    apply hnumber
    rw [← Block.number_id H b, ← heq, Block.number_id, hgenesis]
  · rcases hcases id b' hb' with hold | ⟨-, rfl⟩
    · exact h.root id b' hold hzero
    · exact absurd hzero hnumber
  · rcases hcases id b' hb' with hold | ⟨-, rfl⟩
    · exact hstays _ (h.parent id b' hold hne)
    · exact hstays _ hparent

/-- The parent of a stored block is stored, with one number less. -/
theorem exists_parent (h : kv.Rooted H genesis) {id : Bytes32} {b : Block}
    (hb : kv.blocks id = some b) (hne : b.number ≠ 0) :
    ∃ p, kv.blocks b.parentID = some p ∧ b.number.toNat = p.number.toNat + 1 := by
  obtain ⟨p, hp⟩ := Option.isSome_iff_exists.mp (h.parent id b hb hne)
  refine ⟨p, hp, ?_⟩
  rw [Block.toNat_number_of_ne hne, ← h.keyed _ p hp, Block.number_id]

end KV.Rooted

namespace Chain

variable {c : Chain} {genesis : Block}

/-- **The way down from a stored block is as long as its number says.** -/
theorem exists_path_of_rooted (h : c.kv.Rooted H genesis) (n : ℕ) {id : Bytes32} {b : Block}
    (hb : c.kv.blocks id = some b) (hn : b.number.toNat = n) :
    ∃ l, Path c.parentHeader genesis.header b.header l ∧ l.length = n := by
  -- by induction on the number: a block with number zero is the genesis
  induction n generalizing id b with
  | zero =>
    obtain rfl := h.root id b hb (UInt32.toNat.inj hn)
    exact ⟨[], .refl, rfl⟩
  | succ n ih =>
    have hne : b.number ≠ 0 := fun h0 => by rw [h0] at hn; cases hn
    obtain ⟨p, hp, hnum⟩ := h.exists_parent hb hne
    obtain ⟨l, hl, hlength⟩ := ih hp (by omega)
    have hlink : c.parentHeader b.header = some p.header := by
      show (c.kv.blocks b.parentID).map Block.header = _
      rw [hp]
      rfl
    exact ⟨l ++ [b.header], .step hlink hl, by simp [hlength]⟩

/-- No block of a rooted store has the zero identifier. -/
theorem getBlockHeader_zero (h : c.kv.Rooted H genesis) (hid : genesis.id H ≠ 0) :
    c.getBlockHeader 0 = none := by
  cases hb : c.kv.blocks 0 with
  | none =>
    unfold getBlockHeader
    rw [hb]
    rfl
  | some b =>
    have hzero := h.keyed 0 b hb
    have hnumber : b.number = 0 := by
      rw [← Block.number_id H b, hzero]
      rfl
    rw [h.root 0 b hb hnumber] at hzero
    exact absurd hzero hid

/-- **A rooted store is a tree**, if the parent the genesis names is not in
it. -/
theorem storedTree_of_rooted (h : c.kv.Rooted H genesis) (hgenesis : genesis.number = 0)
    (hroot : c.getBlockHeader genesis.parentID = none) : c.StoredTree H genesis.header where
  keyed id hd hhd := by
    obtain ⟨b, hb, rfl⟩ := Option.map_eq_some_iff.mp hhd
    exact h.keyed id b hb
  genesis_stored := by
    show (c.kv.blocks (genesis.id H)).map Block.header = _
    rw [h.genesis_stored]
    rfl
  genesis_number := hgenesis
  genesis_root := hroot
  reaches id hd hhd := by
    obtain ⟨b, hb, rfl⟩ := Option.map_eq_some_iff.mp hhd
    obtain ⟨l, hl, -⟩ := exists_path_of_rooted h _ hb rfl
    exact ⟨l, hl⟩

/-! ## That `AddBlock` returns -/

/-- **The loop of `buildFork` ends**: every round takes at least one from the
numbers of the two heads, and two heads with the number zero are the root. -/
theorem exists_buildForkLoop (h : c.kv.Rooted H genesis) (fuel : ℕ) {b₁ b₂ : Header}
    (trunk branch : List Header) (h₁ : b₁.number = 0 → b₁ = genesis.header)
    (h₂ : b₂.number = 0 → b₂ = genesis.header)
    (hfuel : b₁.number.toNat + b₂.number.toNat < fuel) :
    ∃ r, c.buildForkLoop H fuel b₁ b₂ trunk branch = .ok r := by
  have hdown : ∀ {hd p : Header}, hd.number ≠ 0 → c.getBlockHeader hd.parentID = some p →
      p.number.toNat + 1 = hd.number.toNat ∧ (p.number = 0 → p = genesis.header) := by
    intro hd p hne hp
    obtain ⟨b, hb, rfl⟩ := Option.map_eq_some_iff.mp hp
    refine ⟨?_, fun hzero => congrArg Block.header (h.root _ b hb hzero)⟩
    rw [Header.toNat_number_of_ne hne, ← h.keyed _ b hb]
    exact congrArg (·.toNat + 1) (Block.number_id H b).symm
  have hpos : ∀ {m n : UInt32}, m < n → n ≠ 0 := by
    rintro m n hlt rfl
    exact UInt32.not_lt_zero hlt
  induction fuel generalizing b₁ b₂ trunk branch with
  | zero => exact absurd hfuel (Nat.not_lt_zero _)
  | succ fuel ih =>
    unfold buildForkLoop
    split
    · rename_i hgt
      cases hp : c.getBlockHeader b₁.parentID with
      | none => exact ⟨_, rfl⟩
      | some p =>
        obtain ⟨hlow, hroot⟩ := hdown (hpos hgt) hp
        exact ih _ _ hroot h₂ (by omega)
    split
    · rename_i hlt
      cases hp : c.getBlockHeader b₂.parentID with
      | none => exact ⟨_, rfl⟩
      | some p =>
        obtain ⟨hlow, hroot⟩ := hdown (hpos hlt) hp
        exact ih _ _ h₁ hroot (by omega)
    rename_i hge hle
    have hsame : b₁.number = b₂.number :=
      UInt32.le_antisymm (UInt32.not_lt.mp hge) (UInt32.not_lt.mp hle)
    split
    · exact ⟨_, rfl⟩
    rename_i hdiffer
    have hne : b₁.number ≠ 0 := fun hzero =>
      hdiffer (by rw [h₁ hzero, h₂ (hsame ▸ hzero)])
    cases hp₁ : c.getBlockHeader b₁.parentID with
    | none => exact ⟨_, rfl⟩
    | some p₁ =>
      cases hp₂ : c.getBlockHeader b₂.parentID with
      | none => exact ⟨_, rfl⟩
      | some p₂ =>
        obtain ⟨hlow₁, hroot₁⟩ := hdown hne hp₁
        obtain ⟨hlow₂, hroot₂⟩ := hdown (hsame ▸ hne) hp₂
        exact ih _ _ hroot₁ hroot₂ (by omega)

theorem exists_addBlock (h : c.kv.Rooted H genesis)
    (hbest : c.bestBlock.number = 0 → c.bestBlock = genesis) {blk : Block}
    (hnumber : blk.number ≠ 0) (escortQC : Option QuorumCert) :
    ∃ r, c.addBlock H blk escortQC = .ok r := by
  obtain ⟨r, hr⟩ : ∃ r, c.buildFork H blk.header c.bestBlock.header = .ok r :=
    exists_buildForkLoop h _ [] [] (fun hzero => absurd hzero hnumber)
      (fun hzero => congrArg Block.header (hbest hzero)) (by omega)
  unfold addBlock
  split
  · exact ⟨_, rfl⟩
  split
  · exact ⟨_, rfl⟩
  split
  · rw [hr]
    cases r with
    | error e => exact ⟨_, rfl⟩
    | ok fork => cases escortQC <;> exact ⟨_, rfl⟩
  · exact ⟨_, rfl⟩

end Chain

/-! ## The store along a run -/

/-- The store is rooted, and a best block with the number zero is the root. -/
structure Core.Rooted (H : Hashes) (genesis : Block) (c : Core) : Prop where
  store : c.kv.Rooted H genesis
  best : c.bestBlock.number = 0 → c.bestBlock = genesis

theorem Core.Rooted.step {genesis : Block} (hgenesis : genesis.number = 0) {s : Pacemaker}
    {i : Input} {c c' : Core} (hstep : CoreStep E s i c c') (h : c.Rooted E.H genesis) :
    c'.Rooted E.H genesis := by
  cases hstep with
  | addBlock blk appHash kv bestBlock source higher kv_cases best_cases =>
    have hnumber : blk.number ≠ 0 := fun hzero => UInt32.not_lt_zero (hzero ▸ higher)
    refine ⟨?_, fun hzero => ?_⟩
    · rcases kv_cases with rfl | ⟨hparent, -, hblocks⟩
      · exact h.store
      · exact h.store.update hgenesis (b := blk.withAppHash appHash) hnumber hparent hblocks
    · rcases best_cases with rfl | rfl
      · exact h.best hzero
      · exact absurd hzero hnumber
  | _ => exact ⟨h.store, h.best⟩

theorem rooted_initializeStore (E : Env) {genesis : Block} (vset nextVSet : ValidatorSet)
    (writeOK : ℕ → Bool) (hgenesis : genesis.number = 0) :
    (Chain.initializeStore E genesis vset nextVSet writeOK).kv.Rooted E.H genesis := by
  refine ⟨fun id b hb => ?_, if_pos rfl, fun id b hb _ => ?_, fun id b hb hne => ?_⟩
  · obtain ⟨rfl, rfl⟩ := Chain.eq_of_blocks_initializeStore hb
    rfl
  · exact (Chain.eq_of_blocks_initializeStore hb).2
  · obtain ⟨-, rfl⟩ := Chain.eq_of_blocks_initializeStore hb
    exact absurd hgenesis hne

/-- **The store of a node is a tree in every state it can reach**, rooted at
the genesis and without the zero identifier, its numbers are heights, and
`AddBlock` returns for every block above the genesis. The identifier that the
genesis names as its parent is made up, and has to stay unused. -/
theorem store_is_tree_along_runs {genesis : Block} {vset nextVSet : ValidatorSet}
    {writeOK : ℕ → Bool} {app : App} {myPubKey : Bytes} {now : Time} {p₀ p : Pacemaker}
    (hgenesis : genesis.number = 0) (hid : genesis.id E.H ≠ 0)
    (hstart : startPacemaker E (.initializeStore E genesis vset nextVSet writeOK) app myPubKey now
      = .ok p₀) (hrun : Runs E p₀ p) (hroot : p.chain.getBlockHeader genesis.parentID = none) :
    p.chain.StoredTree E.H genesis.header ∧ p.chain.getBlockHeader 0 = none
      ∧ (∀ b, p.chain.kv.blocks (b.id E.H) = some b →
        ∃ l, Path p.chain.parentHeader genesis.header b.header l ∧ l.length = b.number.toNat)
      ∧ ∀ blk escortQC, blk.number ≠ 0 → ∃ r, p.chain.addBlock E.H blk escortQC = .ok r := by
  obtain ⟨bestNode, es, -, -, round, hcore⟩ := startPacemaker_core hstart
  have h₀ : p₀.core.Rooted E.H genesis := by
    rw [hcore]
    exact ⟨rooted_initializeStore E vset nextVSet writeOK hgenesis, fun _ => rfl⟩
  have h : p.core.Rooted E.H genesis := hrun.core_invariant h₀ fun _ _ _ _ _ _ hstep _ hc =>
    hc.step hgenesis hstep
  exact ⟨Chain.storedTree_of_rooted h.store hgenesis hroot, Chain.getBlockHeader_zero h.store hid,
    fun b hb => Chain.exists_path_of_rooted h.store _ hb rfl,
    fun blk escortQC hnumber => Chain.exists_addBlock h.store h.best hnumber escortQC⟩

/-- A node that was sent a block. -/
def Testnet.synced (p₀ : Pacemaker) : Pacemaker :=
  let b := block genesis 1 genesisQC []
  p₀.play env [.sync b (certificate b 1)]

theorem Testnet.run_synced (p₀ : Pacemaker) : Runs env p₀ (synced p₀) :=
  Machine.run_play _ _

/-- Two blocks are a tree. -/
theorem Testnet.synced_store_is_tree :
    ∃ p₀, start 1 = .ok p₀ ∧ (synced p₀).chain.bestBlock.number = 1
      ∧ (synced p₀).chain.StoredTree hashes genesis.header := by
  obtain ⟨p₀, hstart, htest⟩ := exists_of_start (k := 1)
    (fun p₀ => decide ((synced p₀).chain.bestBlock.number = 1
      ∧ (synced p₀).chain.getBlockHeader genesis.parentID = none)) (by decide +kernel)
  obtain ⟨hnumber, hroot⟩ := of_decide_eq_true htest
  exact ⟨p₀, hstart, hnumber,
    (store_is_tree_along_runs rfl (by decide +kernel) hstart (run_synced p₀) hroot).1⟩

end LoragonBFT
