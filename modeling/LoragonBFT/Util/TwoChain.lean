import Mathlib.Data.Finset.Card
import Mathlib.Data.List.Pairwise
import Mathlib.Logic.Relation

/-!
# Agreement by locking

The argument behind two-chain commit rules, for any parties and any blocks.
Blocks form a tree; parties sign blocks, and a block that two thirds of them
signed is certified. A block is final once something above it is certified,
so a final block has a certified descendant. Two certified blocks have a
signer in common that keeps to the rules, and the rule that matters is the
lock: whoever signed a block signs from then on only what extends the parent
of that block. Then of two certified blocks one extends the other's parent,
everything final lies on one branch, and a branch has one block a level
(`agreement`).

Nothing is said about rounds, messages or leaders: a protocol that keeps its
parties to the lock has agreement whatever else it does.
-/

namespace TwoChain

/-! ## Quorums -/

/-- **Two sets of two thirds share a third.** -/
theorem card_le_three_mul_card_inter {P : Type} [DecidableEq P] {M Q Q' : Finset P} (hQ : Q ⊆ M)
    (hQ' : Q' ⊆ M) (hmany : 2 * M.card ≤ 3 * Q.card) (hmany' : 2 * M.card ≤ 3 * Q'.card) :
    M.card ≤ 3 * (Q ∩ Q').card := by
  have hunion : (Q ∪ Q').card ≤ M.card := Finset.card_le_card (Finset.union_subset hQ hQ')
  have hcount : (Q ∪ Q').card + (Q ∩ Q').card = Q.card + Q'.card :=
    Finset.card_union_add_card_inter Q Q'
  omega

/-- A committee, of which less than a third is faulty. -/
structure Committee (P : Type) [DecidableEq P] where
  members : Finset P
  honest : Finset P
  honest_subset : honest ⊆ members
  few_faults : 3 * (members \ honest).card < members.card

namespace Committee

variable {P : Type} [DecidableEq P] {C : Committee P} {Q Q' : Finset P}

/-- Two thirds of the committee. -/
def IsQuorum (C : Committee P) (Q : Finset P) : Prop :=
  Q ⊆ C.members ∧ 2 * C.members.card ≤ 3 * Q.card

/-- **Two quorums have an honest member in common.** -/
theorem IsQuorum.exists_honest (hQ : C.IsQuorum Q) (hQ' : C.IsQuorum Q') :
    ∃ p ∈ C.honest, p ∈ Q ∧ p ∈ Q' := by
  have hthird := card_le_three_mul_card_inter hQ.1 hQ'.1 hQ.2 hQ'.2
  have hmany : (C.members \ C.honest).card < (Q ∩ Q').card := by
    have hfew := C.few_faults
    omega
  obtain ⟨p, hp, hhonest⟩ := Finset.exists_mem_notMem_of_card_lt_card hmany
  obtain ⟨hpQ, hpQ'⟩ := Finset.mem_inter.mp hp
  refine ⟨p, ?_, hpQ, hpQ'⟩
  by_contra hfaulty
  exact hhonest (Finset.mem_sdiff.mpr ⟨hQ.1 hpQ, hfaulty⟩)

end Committee

/-! ## Trees -/

/-- A tree given by its parent pointers, with a level for every node that
grows by one along them. -/
structure Tree {V : Type} (level : V → ℕ) where
  parentOf : V → Option V
  level_eq : ∀ u w, parentOf u = some w → level u = level w + 1

namespace Tree

variable {V : Type} {level : V → ℕ} {t : Tree level} {u v w : V}

/-- The second node is the parent of the first. -/
def Link (t : Tree level) (u w : V) : Prop := t.parentOf u = some w

/-- The first node is the second one or a descendant of it. -/
def Extends (t : Tree level) : V → V → Prop := Relation.ReflTransGen t.Link

/-- The first node is a descendant of the second, and another one. -/
def Descends (t : Tree level) : V → V → Prop := Relation.TransGen t.Link

theorem link_unique : Relator.RightUnique t.Link := by
  intro u v w hv hw
  exact Option.some.inj (hv.symm.trans hw)

theorem Extends.level_le (h : t.Extends u w) : level w ≤ level u := by
  induction h with
  | refl => exact le_refl _
  | tail _ hlast ih =>
    have hlevel := t.level_eq _ _ hlast
    omega

theorem Descends.level_lt (h : t.Descends u w) : level w < level u := by
  obtain ⟨v, hlink, hrest⟩ := Relation.TransGen.head'_iff.mp h
  have hle : level w ≤ level v := Extends.level_le hrest
  have hlevel := t.level_eq _ _ hlink
  omega

/-- Of two nodes that extend each other with one level between them, there
is only one. -/
theorem Extends.eq_of_level (h : t.Extends u w) (hlevel : level u = level w) : u = w := by
  rcases Relation.reflTransGen_iff_eq_or_transGen.mp h with heq | hdescends
  · exact heq.symm
  · have hlt : level w < level u := Descends.level_lt hdescends
    omega

/-- **A branch has one node a level.** -/
theorem eq_of_level_eq (hv : t.Extends u v) (hw : t.Extends u w) (hlevel : level v = level w) :
    v = w := by
  rcases Relation.ReflTransGen.total_of_right_unique link_unique hv hw with h | h
  · exact Extends.eq_of_level h hlevel
  · exact (Extends.eq_of_level h hlevel.symm).symm

/-- What a node descends from, its parent extends. -/
theorem Descends.parent (h : t.Descends u w) : ∃ v, t.Link u v ∧ t.Extends v w :=
  Relation.TransGen.head'_iff.mp h

end Tree

/-! ## Certificates and locks -/

section Agreement

variable {P V : Type} [DecidableEq P] {level : V → ℕ} {C : Committee P} {t : Tree level}
  {signed signed' : P → V → Prop} {u v w : V}

/-- A quorum signed the block, its honest members at least. -/
def Certified (C : Committee P) (signed : P → V → Prop) (v : V) : Prop :=
  ∃ Q, C.IsQuorum Q ∧ ∀ p ∈ Q, p ∈ C.honest → signed p v

/-- The block has a certified descendant. -/
def Final (C : Committee P) (t : Tree level) (signed : P → V → Prop) (w : V) : Prop :=
  ∃ v, Certified C signed v ∧ t.Descends v w

theorem Certified.mono (h : Certified C signed v)
    (hsigned : ∀ p ∈ C.honest, ∀ v, signed p v → signed' p v) : Certified C signed' v := by
  obtain ⟨Q, hQ, hall⟩ := h
  exact ⟨Q, hQ, fun p hp hhonest => hsigned p hhonest v (hall p hp hhonest)⟩

theorem Final.mono (h : Final C t signed w)
    (hsigned : ∀ p ∈ C.honest, ∀ v, signed p v → signed' p v) : Final C t signed' w := by
  obtain ⟨v, hcertified, hdescends⟩ := h
  exact ⟨v, hcertified.mono hsigned, hdescends⟩

/-- The second vote keeps the lock of the first. -/
def KeepsLock (t : Tree level) (u v : V) : Prop := ∀ w, t.Link u w → t.Extends v w

/-- A party that votes in this order keeps its locks. -/
def Locked (t : Tree level) (votes : List V) : Prop := votes.Pairwise (KeepsLock t)

/-- A vote keeps its own lock. -/
theorem KeepsLock.refl (v : V) : KeepsLock t v v := fun _ hlink => .single hlink

/-- **Of two votes of one party, one keeps the lock of the other.** -/
theorem Locked.total {l : List V} (h : Locked t l) (hu : u ∈ l) (hv : v ∈ l) :
    KeepsLock t u v ∨ KeepsLock t v u := by
  have : Std.Symm (fun u v => KeepsLock t u v ∨ KeepsLock t v u) := ⟨fun _ _ => Or.symm⟩
  have hsome : l.Pairwise (fun u v => KeepsLock t u v ∨ KeepsLock t v u) :=
    h.imp fun hlock => .inl hlock
  exact hsome.forall_of_forall (fun w _ => .inl (.refl w)) hu hv

/-- What two blocks descend from lies on one branch, if one keeps the lock
of the other. -/
theorem KeepsLock.eq_of_level (h : KeepsLock t u v) {x y : V} (hx : t.Descends u x)
    (hy : t.Descends v y) (hlevel : level x = level y) : x = y := by
  obtain ⟨w, hlink, hw⟩ := hx.parent
  exact Tree.eq_of_level_eq ((h w hlink).trans hw) hy.to_reflTransGen hlevel

/-- **Agreement.** If the honest parties keep their locks, and what they
signed of the tree they voted for, there is one final block a level. -/
theorem agreement (votes : P → List V) (hlocked : ∀ p ∈ C.honest, Locked t (votes p))
    (hvotes : ∀ p ∈ C.honest, ∀ v w, signed p v → t.Link v w → v ∈ votes p) {x y : V}
    (hx : Final C t signed x) (hy : Final C t signed y) (hlevel : level x = level y) : x = y := by
  obtain ⟨u, ⟨Q, hQ, hsignedQ⟩, hux⟩ := hx
  obtain ⟨v, ⟨Q', hQ', hsignedQ'⟩, hvy⟩ := hy
  obtain ⟨p, hp, hpQ, hpQ'⟩ := hQ.exists_honest hQ'
  obtain ⟨u', hu', -⟩ := hux.parent
  obtain ⟨v', hv', -⟩ := hvy.parent
  have hu : u ∈ votes p := hvotes p hp u u' (hsignedQ p hpQ hp) hu'
  have hv : v ∈ votes p := hvotes p hp v v' (hsignedQ' p hpQ' hp) hv'
  rcases (hlocked p hp).total hu hv with h | h
  · exact h.eq_of_level hux hvy hlevel
  · exact (h.eq_of_level hvy hux hlevel.symm).symm

end Agreement

end TwoChain
