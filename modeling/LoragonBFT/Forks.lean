import LoragonBFT.Persistence
import LoragonBFT.Util.Ancestry

/-!
# Forks

`buildFork` is given the heads of two branches and finds where they part. It
steps back from the head with the higher number until the numbers are the
same, and then from both until the blocks are the same.

The number of a block is one more than the number written in its parent's
identifier, in `uint32`, and zero if that identifier is zero. So the numbers
are the heights above the genesis as long as no block has the zero identifier,
up to the height `2 ^ 32 - 1`, and then the loop compares heights: it finds the
lowest common ancestor of any two blocks of a stored tree (`buildFork_isFork`).
The block at height `2 ^ 32` has the number of the genesis.
-/

namespace LoragonBFT

open Ancestry

variable {H : Hashes}

variable {b : Block}

namespace Chain

/-- The header the parent link of a header leads to. -/
def parentHeader (c : Chain) (h : Header) : Option Header := c.getBlockHeader h.parentID

/-- **A block tree is stored in the chain**: headers stand under their
identifiers, and the parent links lead down to the genesis, which has number
zero and no parent. -/
structure StoredTree (H : Hashes) (c : Chain) (genesis : Header) : Prop where
  keyed : ∀ id h, c.getBlockHeader id = some h → h.id H = id
  genesis_stored : c.getBlockHeader (genesis.id H) = some genesis
  genesis_number : genesis.number = 0
  genesis_root : c.parentHeader genesis = none
  reaches : ∀ id h, c.getBlockHeader id = some h → IsAncestor c.parentHeader genesis h

/-- The header is in the store. -/
def Stores (H : Hashes) (c : Chain) (h : Header) : Prop := c.getBlockHeader (h.id H) = some h

instance (c : Chain) (h : Header) : Decidable (c.Stores H h) := inferInstanceAs (Decidable (_ = _))

/-- **The fork of two heads**: the lowest common ancestor, and the headers
strictly above it up to either head, with ascending numbers. -/
structure IsFork (c : Chain) (trunkHead branchHead : Header) (fork : Fork) : Prop where
  meet : IsMeet c.parentHeader fork.ancestor trunkHead branchHead
  trunk : Path c.parentHeader fork.ancestor trunkHead fork.trunk
  branch : Path c.parentHeader fork.ancestor branchHead fork.branch
  trunk_ascends : fork.trunk.Pairwise (fun h h' => h.number < h'.number)
  branch_ascends : fork.branch.Pairwise (fun h h' => h.number < h'.number)

/-- Fewer than `2 ^ 32` links above the genesis. -/
def Numbered (c : Chain) (genesis h : Header) : Prop :=
  ∀ l, Path c.parentHeader genesis h l → l.length < 2 ^ 32

variable {h p : Header} {l : List Header}

section Tree

variable {c : Chain} {genesis : Header}

/-- A parent is in the store. -/
theorem StoredTree.stores_parent (htree : c.StoredTree H genesis) (hp : c.parentHeader h = some p) :
    c.Stores H p := by
  unfold Stores
  rw [htree.keyed _ p hp]
  exact hp

/-- **The number of a block is its height**, as long as that fits and no block
has the zero identifier. -/
theorem StoredTree.number_eq (htree : c.StoredTree H genesis) (hzero : c.getBlockHeader 0 = none)
    (hl : Path c.parentHeader genesis h l) (hfits : l.length < 2 ^ 32) :
    h.number.toNat = l.length := by
  induction hl with
  | refl =>
    rw [htree.genesis_number]
    rfl
  | @step p h l link _ ih =>
    rw [List.length_append, List.length_singleton] at hfits ⊢
    have hparent : h.parentID = p.id H := (htree.keyed _ p link).symm
    have hne : h.parentID ≠ 0 := by
      intro heq
      have hnone : c.parentHeader h = none := by
        unfold parentHeader
        rw [heq, hzero]
      exact nomatch hnone.symm.trans link
    unfold Header.number
    rw [if_neg hne, hparent, Header.number_id, UInt32.toNat_add, ih (by omega)]
    exact Nat.mod_eq_of_lt hfits

/-- One link up the number goes up by one. -/
theorem StoredTree.number_lt (htree : c.StoredTree H genesis) (hzero : c.getBlockHeader 0 = none)
    (link : c.parentHeader h = some p) (hl : Path c.parentHeader genesis p l)
    (hfits : l.length + 1 < 2 ^ 32) :
    p.number < h.number := by
  have hlength : (l ++ [h]).length = l.length + 1 := List.length_append
  have hp := htree.number_eq hzero hl (by omega)
  have hh := htree.number_eq hzero (.step link hl) (by omega)
  rw [UInt32.lt_iff_toNat_lt]
  omega

/-- The numbers of a path ascend. -/
theorem StoredTree.ascends (htree : c.StoredTree H genesis) (hzero : c.getBlockHeader 0 = none)
    {a : Header} {m : List Header} (ha : Path c.parentHeader genesis a l)
    (hm : Path c.parentHeader a h m) (hfits : l.length + m.length < 2 ^ 32) :
    m.Pairwise (fun h h' => h.number < h'.number) ∧ ∀ x ∈ m, x.number ≤ h.number := by
  induction hm with
  | refl => exact ⟨.nil, fun _ hx => absurd hx List.not_mem_nil⟩
  | @step p h m link rest ih =>
    rw [List.length_append, List.length_singleton] at hfits
    obtain ⟨hpairs, hle⟩ := ih (by omega)
    have hlt : p.number < h.number :=
      htree.number_lt hzero link (ha.trans rest) (by rw [List.length_append]; omega)
    refine ⟨List.pairwise_append.mpr ⟨hpairs, List.pairwise_singleton _ _, ?_⟩, ?_⟩
    · intro x hx y hy
      rw [List.mem_singleton.mp hy]
      exact UInt32.lt_of_le_of_lt (hle x hx) hlt
    · intro x hx
      rcases List.mem_append.mp hx with hx | hx
      · exact UInt32.le_of_lt (UInt32.lt_of_le_of_lt (hle x hx) hlt)
      · rw [List.mem_singleton.mp hx]
        exact UInt32.le_refl _

/-! ## The loop -/

/-- **What the loop of `buildFork` finds**, wherever it stands: the paths from
the two heads down to their lowest common ancestor, in front of what it has
passed already. -/
theorem StoredTree.buildForkLoop_eq (htree : c.StoredTree H genesis)
    (hzero : c.getBlockHeader 0 = none) (fuel : ℕ) {b₁ b₂ : Header} {l₁ l₂ : List Header}
    (trunk branch : List Header) (h₁ : c.Stores H b₁) (h₂ : c.Stores H b₂)
    (hl₁ : Path c.parentHeader genesis b₁ l₁) (hl₂ : Path c.parentHeader genesis b₂ l₂)
    (hfits₁ : l₁.length < 2 ^ 32) (hfits₂ : l₂.length < 2 ^ 32)
    (hfuel : l₁.length + l₂.length < fuel) :
    ∃ a r₁ r₂, c.buildForkLoop H fuel b₁ b₂ trunk branch
        = .ok (.ok ⟨a, r₁ ++ trunk, r₂ ++ branch⟩)
      ∧ Path c.parentHeader a b₁ r₁ ∧ Path c.parentHeader a b₂ r₂
      ∧ IsMeet c.parentHeader a b₁ b₂ := by
  -- each round takes a link off one path to the genesis, or off both
  induction fuel generalizing b₁ b₂ l₁ l₂ trunk branch with
  | zero => exact absurd hfuel (Nat.not_lt_zero _)
  | succ fuel ih =>
    have hn₁ := htree.number_eq hzero hl₁ hfits₁
    have hn₂ := htree.number_eq hzero hl₂ hfits₂
    have hlength : ∀ (l : List Header) (h : Header), (l ++ [h]).length = l.length + 1 :=
      fun _ _ => List.length_append
    have hnot : ∀ {t b : Header} {l m : List Header}, Path c.parentHeader genesis t l →
        Path c.parentHeader genesis b m → m.length ≤ l.length → t ≠ b →
        ¬ IsAncestor c.parentHeader t b :=
      fun ht hb hle hne => not_isAncestor_of_length_le htree.genesis_root ht hb hle hne
    unfold buildForkLoop
    split
    next hgt =>
      -- the trunk is higher
      have hlt : l₂.length < l₁.length := hn₁ ▸ hn₂ ▸ UInt32.lt_iff_toNat_lt.mp hgt
      have hne : b₁ ≠ b₂ := fun heq => UInt32.lt_irrefl _ (heq ▸ hgt)
      cases hl₁ with
      | refl => exact absurd hlt (Nat.not_lt_zero _)
      | @step p _ l link rest =>
        have hlength₁ := hlength l b₁
        obtain ⟨a, r₁, r₂, hloop, hr₁, hr₂, hmeet⟩ := ih (b₁ :: trunk) branch
          (htree.stores_parent link) h₂ rest hl₂ (by omega) hfits₂ (by omega)
        refine ⟨a, r₁ ++ [b₁], r₂, ?_, .step link hr₁, hr₂,
          .of_parent link (hnot (.step link rest) hl₂ hlt.le hne) hmeet⟩
        rw [show c.getBlockHeader b₁.parentID = some p from link, List.append_assoc]
        exact hloop
    next hgt =>
    split
    next hlt' =>
      -- the branch is higher
      have hlt : l₁.length < l₂.length := hn₁ ▸ hn₂ ▸ UInt32.lt_iff_toNat_lt.mp hlt'
      have hne : b₂ ≠ b₁ := fun heq => UInt32.lt_irrefl _ (heq ▸ hlt')
      cases hl₂ with
      | refl => exact absurd hlt (Nat.not_lt_zero _)
      | @step p _ l link rest =>
        have hlength₂ := hlength l b₂
        obtain ⟨a, r₁, r₂, hloop, hr₁, hr₂, hmeet⟩ := ih trunk (b₂ :: branch) h₁
          (htree.stores_parent link) hl₁ rest hfits₁ (by omega) (by omega)
        refine ⟨a, r₁, r₂ ++ [b₂], ?_, hr₁, .step link hr₂,
          (IsMeet.of_parent link (hnot (.step link rest) hl₁ hlt.le hne) hmeet.symm).symm⟩
        rw [show c.getBlockHeader b₂.parentID = some p from link, List.append_assoc]
        exact hloop
    next hlt' =>
    have heq : l₁.length = l₂.length := by
      rw [← hn₁, ← hn₂]
      exact Nat.le_antisymm (UInt32.le_iff_toNat_le.mp (UInt32.not_lt.mp hgt))
        (UInt32.le_iff_toNat_le.mp (UInt32.not_lt.mp hlt'))
    split
    next hid =>
      -- they have met
      have hsame : b₁ = b₂ := by
        unfold Stores at h₁ h₂
        rw [hid] at h₁
        exact Option.some.inj (h₁.symm.trans h₂)
      rw [← hsame]
      exact ⟨b₁, [], [], rfl, .refl, .refl, .self b₁⟩
    next hid =>
      have hne : b₁ ≠ b₂ := fun heq => hid (congrArg (Header.id H) heq)
      cases hl₁ with
      | refl =>
        cases hl₂ with
        | refl => exact absurd rfl hne
        | step => cases heq.trans (hlength _ _)
      | @step p _ l link rest =>
        cases hl₂ with
        | refl => cases heq.symm.trans (hlength _ _)
        | @step q _ m link' rest' =>
          have hlength₁ := hlength l b₁
          have hlength₂ := hlength m b₂
          obtain ⟨a, r₁, r₂, hloop, hr₁, hr₂, hmeet⟩ := ih (b₁ :: trunk) (b₂ :: branch)
            (htree.stores_parent link) (htree.stores_parent link') rest rest' (by omega) (by omega)
            (by omega)
          refine ⟨a, r₁ ++ [b₁], r₂ ++ [b₂], ?_, .step link hr₁, .step link' hr₂,
            .of_parents link link' (hnot (.step link rest) (.step link' rest') heq.ge hne)
              (hnot (.step link' rest') (.step link rest) heq.le hne.symm) hmeet⟩
          rw [show c.getBlockHeader b₁.parentID = some p from link,
            show c.getBlockHeader b₂.parentID = some q from link', List.append_assoc,
            List.append_assoc]
          exact hloop

/-- One path tells how high a header is. -/
theorem StoredTree.numbered (htree : c.StoredTree H genesis) (hl : Path c.parentHeader genesis h l)
    (hfits : l.length < 2 ^ 32) : c.Numbered genesis h :=
  fun _ hm => Path.unique htree.genesis_root hl hm ▸ hfits

/-- **`buildFork` finds the fork** of any two headers of a stored tree, no block
of which has the zero identifier, fewer than `2 ^ 32` links above the
genesis. -/
theorem buildFork_isFork (htree : c.StoredTree H genesis) (hzero : c.getBlockHeader 0 = none)
    {t b : Header} (ht : c.Stores H t) (hb : c.Stores H b) (hnt : c.Numbered genesis t)
    (hnb : c.Numbered genesis b) :
    ∃ fork, c.buildFork H t b = .ok (.ok fork) ∧ c.IsFork t b fork := by
  obtain ⟨l₁, hl₁⟩ := htree.reaches _ t ht
  obtain ⟨l₂, hl₂⟩ := htree.reaches _ b hb
  have hfits₁ := hnt l₁ hl₁
  have hfits₂ := hnb l₂ hl₂
  have hn₁ := htree.number_eq hzero hl₁ hfits₁
  have hn₂ := htree.number_eq hzero hl₂ hfits₂
  obtain ⟨a, r₁, r₂, hloop, hr₁, hr₂, hmeet⟩ := htree.buildForkLoop_eq hzero
    (t.number.toNat + b.number.toNat + 2) [] [] ht hb hl₁ hl₂ hfits₁ hfits₂ (by omega)
  rw [List.append_nil, List.append_nil] at hloop
  -- the ancestor is above the genesis, and below both heads
  obtain ⟨l, hl⟩ := hmeet.lowest genesis ⟨l₁, hl₁⟩ ⟨l₂, hl₂⟩
  have hlength : ∀ {h : Header} {m r : List Header}, Path c.parentHeader genesis h m →
      Path c.parentHeader a h r → l.length + r.length = m.length := by
    intro h m r hm hr
    rw [← List.length_append, Path.unique htree.genesis_root (hl.trans hr) hm]
  refine ⟨⟨a, r₁, r₂⟩, hloop, hmeet, hr₁, hr₂, ?_, ?_⟩
  · exact (htree.ascends hzero hl hr₁ (hlength hl₁ hr₁ ▸ hfits₁)).1
  · exact (htree.ascends hzero hl hr₂ (hlength hl₂ hr₂ ▸ hfits₂)).1

/-- **Another block with the number of the genesis** is not compared with its
ancestors: the loop looks for the parent of the genesis. -/
theorem StoredTree.buildFork_genesis (htree : c.StoredTree H genesis) {t : Header}
    (hnumber : t.number = 0) (hne : t.id H ≠ genesis.id H) :
    c.buildFork H t genesis = .ok (.error .notFound) := by
  have hroot : c.getBlockHeader genesis.parentID = none := htree.genesis_root
  unfold buildFork buildForkLoop
  rw [hnumber, htree.genesis_number, if_neg (UInt32.lt_irrefl 0), if_neg (UInt32.lt_irrefl 0),
    if_neg hne, hroot]
  cases c.getBlockHeader t.parentID <;> rfl

end Tree

/-! ## Growing a tree -/

/-- The chain with one more block in the store. -/
def store (H : Hashes) (c : Chain) (b : Block) : Chain :=
  { c with kv := { c.kv with blocks := Function.update c.kv.blocks (b.id H) (some b) } }

theorem getBlockHeader_store (c : Chain) (b : Block) (id : Bytes32) :
    (c.store H b).getBlockHeader id
      = if id = b.id H then some b.header else c.getBlockHeader id := by
  show Option.map Block.header (Function.update c.kv.blocks (b.id H) (some b) id) = _
  rw [Function.update_apply]
  split <;> rfl

/-- The links that are there stay. -/
theorem parentHeader_store {c : Chain} (hnew : c.getBlockHeader (b.id H) = none)
    (hp : c.parentHeader h = some p) : (c.store H b).parentHeader h = some p := by
  unfold parentHeader at hp ⊢
  rw [getBlockHeader_store, if_neg, hp]
  intro heq
  rw [heq, hnew] at hp
  exact nomatch hp

theorem path_store {c : Chain} (hnew : c.getBlockHeader (b.id H) = none) {a : Header}
    (hl : Path c.parentHeader a h l) :
    Path (c.store H b).parentHeader a h l := by
  induction hl with
  | refl => exact .refl
  | step link _ ih => exact .step (parentHeader_store hnew link) ih

/-- **A block on top of a stored one keeps the tree**, if it is new and not the
parent the genesis names. -/
theorem StoredTree.store {c : Chain} {genesis : Header} (htree : c.StoredTree H genesis)
    (hnew : c.getBlockHeader (b.id H) = none) (hp : c.getBlockHeader b.parentID = some p)
    (hroot : genesis.parentID ≠ b.id H) :
    (c.store H b).StoredTree H genesis where
  keyed id h hh := by
    rw [getBlockHeader_store] at hh
    split at hh
    next heq =>
      rw [heq, ← Option.some.inj hh]
      rfl
    next => exact htree.keyed id h hh
  genesis_stored := by
    rw [getBlockHeader_store, if_neg, htree.genesis_stored]
    intro heq
    rw [← heq, htree.genesis_stored] at hnew
    exact nomatch hnew
  genesis_number := htree.genesis_number
  genesis_root := by
    unfold parentHeader
    rw [getBlockHeader_store, if_neg hroot]
    exact htree.genesis_root
  reaches id h hh := by
    rw [getBlockHeader_store] at hh
    split at hh
    next =>
      rw [← Option.some.inj hh]
      obtain ⟨l, hl⟩ := htree.reaches _ p hp
      have hlink : c.parentHeader b.header = some p := hp
      exact ⟨_, path_store hnew (.step hlink hl)⟩
    next =>
      obtain ⟨l, hl⟩ := htree.reaches id h hh
      exact ⟨l, path_store hnew hl⟩

/-- **A fresh chain is a tree of one block.** -/
theorem storedTree_initializeStore (E : Env) (vset nextVSet : ValidatorSet) (writeOK : ℕ → Bool)
    {genesis : Block} (hnumber : genesis.number = 0) (hroot : genesis.parentID ≠ genesis.id E.H) :
    (initializeStore E genesis vset nextVSet writeOK).StoredTree E.H genesis.header := by
  have hheader : ∀ id, (initializeStore E genesis vset nextVSet writeOK).getBlockHeader id
      = if id = genesis.id E.H then some genesis.header else none := by
    intro id
    show Option.map Block.header (if id = genesis.id E.H then some genesis else none) = _
    split <;> rfl
  have honly : ∀ id h,
      (initializeStore E genesis vset nextVSet writeOK).getBlockHeader id = some h →
      id = genesis.id E.H ∧ h = genesis.header := by
    intro id h hh
    rw [hheader] at hh
    obtain ⟨hid, hh⟩ := Option.ite_none_right_eq_some.mp hh
    exact ⟨hid, (Option.some.inj hh).symm⟩
  refine ⟨fun id h hh => ?_, ?_, hnumber, ?_, fun id h hh => ?_⟩
  · obtain ⟨rfl, rfl⟩ := honly id h hh
    rfl
  · rw [hheader]
    exact if_pos rfl
  · unfold parentHeader
    rw [hheader]
    exact if_neg hroot
  · obtain ⟨-, rfl⟩ := honly id h hh
    exact ⟨[], .refl⟩

end Chain

/-! ## Two branches, and a tree that has used all its numbers -/

namespace Testnet

open Chain

/-- The chain of the plain digests, with its genesis. -/
def plainChain : Chain :=
  .initializeStore plainEnv plainGenesis.block committee committee (fun _ => true)

theorem storedTree_plainChain : plainChain.StoredTree plainHashes plainGenesis.block.header :=
  storedTree_initializeStore plainEnv committee committee (fun _ => true) (by decide +kernel)
    (by decide +kernel)

/-- A block, with two blocks on top of it. -/
def stem : Block := onTop plainGenesis.block 0 []

def twigs : Chain :=
  ((plainChain.store plainHashes stem).store plainHashes (onTop stem 0 [])).store plainHashes
    (onTop stem 1 [])

theorem storedTree_twigs : twigs.StoredTree plainHashes plainGenesis.block.header :=
  ((storedTree_plainChain.store (p := plainGenesis.block.header) (by decide +kernel)
    (by decide +kernel) (by decide +kernel)).store (p := stem.header) (by decide +kernel)
    (by decide +kernel) (by decide +kernel)).store (p := stem.header) (by decide +kernel)
    (by decide +kernel) (by decide +kernel)

/-- **The two blocks part above the first.** -/
theorem fork_of_twigs :
    ∃ fork, twigs.buildFork plainHashes (onTop stem 0 []).header (onTop stem 1 []).header
        = .ok (.ok fork) ∧ fork.ancestor = stem.header
      ∧ twigs.IsFork (onTop stem 0 []).header (onTop stem 1 []).header fork := by
  have hpath : ∀ k, twigs.parentHeader (onTop stem k []).header = some stem.header →
      twigs.Numbered plainGenesis.block.header (onTop stem k []).header := by
    intro k hk
    have hstem : twigs.parentHeader stem.header = some plainGenesis.block.header := by
      decide +kernel
    exact storedTree_twigs.numbered (.step hk (.step hstem .refl)) (by simp)
  obtain ⟨fork, hfork, hisFork⟩ := buildFork_isFork storedTree_twigs (by decide +kernel)
    (t := (onTop stem 0 []).header) (b := (onTop stem 1 []).header) (by decide +kernel)
    (by decide +kernel) (hpath 0 (by decide +kernel)) (hpath 1 (by decide +kernel))
  have hancestor : ((twigs.buildFork plainHashes (onTop stem 0 []).header
      (onTop stem 1 []).header).toOption.bind Except.toOption).map Fork.ancestor
        = some stem.header := by decide +kernel
  rw [hfork] at hancestor
  exact ⟨fork, hfork, Option.some.inj hancestor, hisFork⟩

/-- A tree of blocks of one proposer, none of a higher number than the one at
its top. -/
structure Row (n : ℕ) (c : Chain) (top : Block) : Prop where
  tree : c.StoredTree plainHashes plainGenesis.block.header
  zero : c.getBlockHeader 0 = none
  top_stored : c.getBlockHeader (top.id plainHashes) = some top.header
  top_number : top.number.toNat = n
  below : ∀ id b, c.kv.blocks id = some b → b.number.toNat ≤ n ∧ b.header.proposerIndex = 0

/-- What stands under a number tells identifiers apart. -/
theorem putNumber_ne_id {num : UInt32} {digest : Bytes32}
    (h : tail28 digest ≠ tail28 (BitVec.ofNat 256 (b.header.proposerIndex.toNat + 1))) :
    putNumber num digest ≠ b.id plainHashes :=
  fun heq => h (tail28_of_putNumber_eq (heq.trans (plain_digest b)))

variable {top : Block}

/-- **A new block on top keeps the tree.** -/
theorem Row.tree_store {n : ℕ} {c : Chain} (h : Row n c top)
    (hparent : b.parentID = top.id plainHashes) (hnew : c.getBlockHeader (b.id plainHashes) = none)
    (hproposer : b.header.proposerIndex = 0 ∨ b.header.proposerIndex = 1) :
    (c.store plainHashes b).StoredTree plainHashes plainGenesis.block.header
      ∧ (c.store plainHashes b).getBlockHeader 0 = none := by
  have hne : ∀ num, putNumber num 0 ≠ b.id plainHashes := by
    intro num
    apply putNumber_ne_id
    rcases hproposer with hproposer | hproposer <;> rw [hproposer] <;> decide
  refine ⟨h.tree.store hnew (p := top.header) (hparent ▸ h.top_stored) (hne 0xffffffff), ?_⟩
  rw [getBlockHeader_store, if_neg, h.zero]
  exact hne 0

theorem Row.id_ne_zero {n : ℕ} {c : Chain} (h : Row n c top) :
    top.id plainHashes ≠ 0 := by
  intro heq
  have hstored := h.top_stored
  rw [heq, h.zero] at hstored
  exact nomatch hstored

/-- An identifier that no stored block has is not in the store. -/
theorem Row.unstored {n : ℕ} {c : Chain} (h : Row n c top) {id : Bytes32}
    (hid : ∀ b, c.kv.blocks id = some b → b.id plainHashes ≠ id) : c.getBlockHeader id = none := by
  cases hb : c.kv.blocks id with
  | none => exact congrArg (Option.map Block.header) hb
  | some b => exact absurd (h.tree.keyed id _ (congrArg (Option.map Block.header) hb)) (hid b hb)

theorem Row.succ {n : ℕ} {c : Chain} (h : Row n c top) (hn : n + 1 < 2 ^ 32) :
    ∃ c' top', Row (n + 1) c' top' := by
  have hnumber := number_onTop h.id_ne_zero 0 []
  have hparent : (onTop top 0 []).parentID = top.id plainHashes := rfl
  have hproposer : (onTop top 0 []).header.proposerIndex = 0 := rfl
  generalize onTop top 0 [] = b at hnumber hparent hproposer
  have hsucc : b.number.toNat = n + 1 := by
    rw [hnumber, UInt32.toNat_add, h.top_number]
    exact Nat.mod_eq_of_lt hn
  -- the number is new, and so is the block
  have hnew : c.getBlockHeader (b.id plainHashes) = none := by
    refine h.unstored fun b' hb' hid => ?_
    have hsame : b'.number = b.number := by
      rw [← Block.number_id plainHashes b', hid, Block.number_id]
    have hle := (h.below _ b' hb').1
    rw [hsame, hsucc] at hle
    exact Nat.not_succ_le_self n hle
  obtain ⟨htree, hzero⟩ := h.tree_store hparent hnew (.inl hproposer)
  refine ⟨c.store plainHashes b, b, htree, hzero, ?_, hsucc, fun id b' hb' => ?_⟩
  · rw [getBlockHeader_store, if_pos rfl]
  · have hupdate : Function.update c.kv.blocks (b.id plainHashes) (some b) id = some b' := hb'
    rw [Function.update_apply] at hupdate
    split at hupdate
    next =>
      rw [← Option.some.inj hupdate]
      exact ⟨hsucc.le, hproposer⟩
    next =>
      obtain ⟨hle, hproposer'⟩ := h.below id b' hupdate
      exact ⟨Nat.le_succ_of_le hle, hproposer'⟩

theorem exists_row (n : ℕ) (hn : n < 2 ^ 32) : ∃ c top, Row n c top := by
  induction n with
  | zero =>
    refine ⟨plainChain, plainGenesis.block, storedTree_plainChain, by decide +kernel,
      by decide +kernel, by decide +kernel, fun id b hb => ?_⟩
    have hgenesis : (if id = plainGenesis.block.id plainHashes then some plainGenesis.block
      else none) = some b := hb
    split at hgenesis
    next =>
      rw [← Option.some.inj hgenesis]
      decide +kernel
    next => exact nomatch hgenesis
  | succ n ih =>
    obtain ⟨c, top, hrow⟩ := ih (by omega)
    exact hrow.succ hn

/-- Digests of which the first proposer's is zero. -/
def zeroHashes : Hashes :=
  { hashes with blake2b := fun bytes => BitVec.ofNat 256 (Rlp.beValue (bytes.drop 32)) }

/-- A genesis with the zero identifier, and a block on top of it. -/
def zeroGenesis : Block :=
  (Genesis.build { env with H := zeroHashes } 0 0 committee committee).block

def zeroChild : Block :=
  Builder.build zeroHashes
    { parentID := 0, timestamp := 1, nonce := 0, validatorsHash := [], nextValidatorsHash := [],
      proposerIndex := 1, lastKBlock := 0, qc := ⟨0, 0, 0, [], .new 0⟩, txs := [] }

def zeroChain : Chain :=
  (Chain.initializeStore { env with H := zeroHashes } zeroGenesis committee committee
    (fun _ => true)).store zeroHashes zeroChild

/-- **Where numbers are not heights there is no fork.** The block `2 ^ 32` links
above the genesis has number zero, like the genesis, and so has a block on top
of a genesis with the zero identifier. The loop then steps back from the
genesis. -/
theorem fork_not_found :
    (∃ (c : Chain) (t b : Header), c.StoredTree plainHashes plainGenesis.block.header
      ∧ c.Stores plainHashes t ∧ c.Stores plainHashes b ∧ c.getBlockHeader 0 = none
      ∧ ¬ ∃ fork, c.buildFork plainHashes t b = .ok (.ok fork) ∧ c.IsFork t b fork)
    ∧ ∃ t b : Header, zeroChain.StoredTree zeroHashes zeroGenesis.header
      ∧ zeroChain.Stores zeroHashes t ∧ zeroChain.Stores zeroHashes b
      ∧ ¬ ∃ fork, zeroChain.buildFork zeroHashes t b = .ok (.ok fork)
        ∧ zeroChain.IsFork t b fork := by
  constructor
  · obtain ⟨c, top, hrow⟩ := exists_row (2 ^ 32 - 1) (by decide)
    have hnumber : (onTop top 1 []).number = 0 := by
      rw [number_onTop hrow.id_ne_zero]
      refine UInt32.toNat.inj ?_
      rw [UInt32.toNat_add, hrow.top_number]
      rfl
    have hparent : (onTop top 1 []).parentID = top.id plainHashes := rfl
    have hproposer : (onTop top 1 []).header.proposerIndex = 1 := rfl
    generalize onTop top 1 [] = w at hnumber hparent hproposer
    -- every stored block has another proposer
    have hnew : ∀ b : Block, b.header.proposerIndex = 0 → b.id plainHashes ≠ w.id plainHashes := by
      intro b hb
      rw [plain_digest b, hb]
      apply putNumber_ne_id
      rw [hproposer]
      decide
    have hunstored : c.getBlockHeader (w.id plainHashes) = none := by
      refine hrow.unstored fun b hb => ?_
      exact hnew b (hrow.below _ b hb).2
    obtain ⟨htree, hzero⟩ := hrow.tree_store hparent hunstored (.inr hproposer)
    refine ⟨c.store plainHashes w, w.header, plainGenesis.block.header, htree, ?_,
      htree.genesis_stored, hzero, ?_⟩
    · exact (getBlockHeader_store c w _).trans (if_pos rfl)
    · rintro ⟨fork, hfork, -⟩
      rw [htree.buildFork_genesis hnumber (hnew plainGenesis.block rfl).symm] at hfork
      cases hfork
  · refine ⟨zeroChild.header, zeroGenesis.header, ?_, by decide +kernel, by decide +kernel, ?_⟩
    · exact (storedTree_initializeStore { env with H := zeroHashes } committee committee
        (fun _ => true) (by decide +kernel) (by decide +kernel)).store (p := zeroGenesis.header)
        (by decide +kernel) (by decide +kernel) (by decide +kernel)
    · rintro ⟨fork, hfork, -⟩
      have herror : ((zeroChain.buildFork zeroHashes zeroChild.header
          zeroGenesis.header).toOption.bind Except.toOption).isNone = true := by decide +kernel
      rw [hfork] at herror
      exact Bool.false_ne_true herror

end Testnet

end LoragonBFT
