import Mathlib.Data.List.Nodup
import Mathlib.Data.Set.Insert

/-!
# Branches beside a growing trunk

A ledger stores the blocks of a trunk and holds, beside them, branches of
blocks that may be put on the trunk later: lists with the newest block first,
each on top of its parent, down to a block that is stored. A block goes on the
trunk from one of the branches, and only if it is higher than the best block
and its parent is stored. So the trunk grows at its end, and a branch that
does not pass through the best block is dead, without anything being done
about it.

A block carries items. This module says what has to be checked of a block when
it is put on a branch so that no item is on the trunk twice: that it has none
twice itself, that it shares none with the branch below it, and that it shares
none with the trunk *as it is then* (`Sound.extend`). What is stored between
that moment and the moment the block is stored itself is on the branch below
it, if the block is not dead by then. This is the invariant `Sound`.

Blocks are told apart by keys, and nothing but keys is kept: what a key stands
for is given once and for all by a `Content`.
-/

namespace Ledger

/-- What a key stands for: the key of the parent, and the items. -/
structure Content (κ τ : Type) where
  parent : κ → κ
  items : κ → List τ

/-- The branches, newest block first, the stored blocks and the best one. -/
structure State (κ : Type) where
  branches : Set (List κ)
  stored : Set κ
  best : κ

variable {κ τ : Type} {C : Content κ τ} {height : κ → ℕ} {L : State κ} {x y : κ} {rest : List κ}

/-- **No item is on the trunk twice, and none will be.** The branches are
closed under going down. `fresh` is about a block on top of the rest of its
branch: if that passes through the best block, the block shares no item with
the trunk. -/
structure Sound (C : Content κ τ) (height : κ → ℕ) (L : State κ) : Prop where
  le_best : ∀ k ∈ L.stored, height k ≤ height L.best
  eq_best : ∀ k ∈ L.stored, height k = height L.best → k = L.best
  nodup : ∀ k ∈ L.stored, (C.items k).Nodup
  disjoint : ∀ k ∈ L.stored, ∀ k' ∈ L.stored, k ≠ k' → (C.items k).Disjoint (C.items k')
  down : ∀ x y rest, x :: y :: rest ∈ L.branches → y :: rest ∈ L.branches
  linked : ∀ x y rest, x :: y :: rest ∈ L.branches → C.parent x = y
  rooted : ∀ x, [x] ∈ L.branches → x ∈ L.stored
  distinct : ∀ x rest, x :: rest ∈ L.branches →
    (C.items x).Nodup ∧ ∀ y ∈ rest, y ≠ x → (C.items x).Disjoint (C.items y)
  fresh : ∀ x rest, x :: rest ∈ L.branches → L.best ∈ rest →
    ∀ k ∈ L.stored, k ≠ x → (C.items x).Disjoint (C.items k)

namespace Sound

/-- **No item is on the trunk twice**, whichever blocks are taken from it and
in whichever order. -/
theorem nodup_flatMap (h : Sound C height L) {l : List κ} (hstored : ∀ k ∈ l, k ∈ L.stored)
    (hkeys : l.Nodup) : (l.flatMap C.items).Nodup := by
  rw [List.nodup_flatMap]
  refine ⟨fun k hk => h.nodup k (hstored k hk), hkeys.imp_of_mem fun {k k'} hk hk' hne => ?_⟩
  exact h.disjoint k (hstored k hk) k' (hstored k' hk') hne

/-! ## Branches -/

/-- Some of the branches may be forgotten. -/
theorem forget (h : Sound C height L) {branches : Set (List κ)} (hsub : branches ⊆ L.branches)
    (hdown : ∀ x y rest, x :: y :: rest ∈ branches → y :: rest ∈ branches) :
    Sound C height { L with branches } where
  le_best := h.le_best
  eq_best := h.eq_best
  nodup := h.nodup
  disjoint := h.disjoint
  down := hdown
  linked x y rest hx := h.linked x y rest (hsub hx)
  rooted x hx := h.rooted x (hsub hx)
  distinct x rest hx := h.distinct x rest (hsub hx)
  fresh x rest hx := h.fresh x rest (hsub hx)

/-- A branch may start at a stored block. -/
theorem root (h : Sound C height L) (hx : x ∈ L.stored) :
    Sound C height { L with branches := insert [x] L.branches } where
  le_best := h.le_best
  eq_best := h.eq_best
  nodup := h.nodup
  disjoint := h.disjoint
  down z y rest hz := hz.elim (fun hz => nomatch hz) fun hz => .inr (h.down z y rest hz)
  linked z y rest hz := hz.elim (fun hz => nomatch hz) fun hz => h.linked z y rest hz
  rooted z hz := hz.elim (fun hz => List.singleton_inj.mp hz ▸ hx) (h.rooted z)
  distinct z rest hz := by
    rcases hz with hz | hz
    · obtain ⟨rfl, rfl⟩ := List.cons.inj hz
      exact ⟨h.nodup z hx, fun y hy => absurd hy List.not_mem_nil⟩
    · exact h.distinct z rest hz
  fresh z rest hz hbest := by
    rcases hz with hz | hz
    · obtain ⟨-, rfl⟩ := List.cons.inj hz
      exact absurd hbest List.not_mem_nil
    · exact h.fresh z rest hz hbest

/-- **A block is put on a branch**: it must not repeat an item, of its own, of
the branch or of the trunk. -/
theorem extend (h : Sound C height L) (hrest : y :: rest ∈ L.branches) (hparent : C.parent x = y)
    (hnodup : (C.items x).Nodup)
    (hbranch : ∀ z ∈ y :: rest, z ≠ x → (C.items x).Disjoint (C.items z))
    (htrunk : ∀ k ∈ L.stored, k ≠ x → (C.items x).Disjoint (C.items k)) :
    Sound C height { L with branches := insert (x :: y :: rest) L.branches } where
  le_best := h.le_best
  eq_best := h.eq_best
  nodup := h.nodup
  disjoint := h.disjoint
  down z w rest' hz := by
    rcases hz with hz | hz
    · exact .inr ((List.cons.inj hz).2 ▸ hrest)
    · exact .inr (h.down z w rest' hz)
  linked z w rest' hz := by
    rcases hz with hz | hz
    · obtain ⟨rfl, htail⟩ := List.cons.inj hz
      rw [(List.cons.inj htail).1, hparent]
    · exact h.linked z w rest' hz
  rooted z hz := by
    rcases hz with hz | hz
    · exact nomatch (List.cons.inj hz).2
    · exact h.rooted z hz
  distinct z rest' hz := by
    rcases hz with hz | hz
    · obtain ⟨rfl, rfl⟩ := List.cons.inj hz
      exact ⟨hnodup, hbranch⟩
    · exact h.distinct z rest' hz
  fresh z rest' hz hbest := by
    rcases hz with hz | hz
    · obtain ⟨rfl, -⟩ := List.cons.inj hz
      exact htrunk
    · exact h.fresh z rest' hz hbest

/-- The rest of a branch, from any block of it down, is a branch. -/
theorem suffix_mem (h : Sound C height L) {l : List κ} (hl : l ∈ L.branches)
    (hsuffix : x :: rest <:+ l) : x :: rest ∈ L.branches := by
  obtain ⟨above, rfl⟩ := hsuffix
  induction above with
  | nil => exact hl
  | cons z above ih =>
    refine ih ?_
    cases above with
    | nil => exact h.down z x rest hl
    | cons w above => exact h.down z w (above ++ x :: rest) hl

/-! ## The trunk grows at its end -/

/-- A block above the best one is not stored. -/
theorem not_stored (h : Sound C height L) (hhigher : height L.best < height x) : x ∉ L.stored :=
  fun hx => absurd (h.le_best x hx) (Nat.not_le.mpr hhigher)

/-- **What can be stored extends the best block.** -/
theorem parent_eq_best (h : Sound C height L) (hhigher : height L.best < height x)
    (hheight : height x = height (C.parent x) + 1) (hparent : C.parent x ∈ L.stored) :
    C.parent x = L.best := by
  refine h.eq_best _ hparent (Nat.le_antisymm (h.le_best _ hparent) ?_)
  rw [hheight] at hhigher
  exact Nat.le_of_lt_succ hhigher

/-- A block of a branch that is not stored has its parent below it. -/
theorem parent_mem (h : Sound C height L) (hx : x :: rest ∈ L.branches) (hnew : x ∉ L.stored) :
    C.parent x ∈ rest := by
  cases rest with
  | nil => exact absurd (h.rooted x hx) hnew
  | cons y rest =>
    rw [h.linked x y rest hx]
    exact List.mem_cons_self

/-- **A branch through the new best block passes through the old one.** -/
theorem best_mem (h : Sound C height L) (hnew : x ∉ L.stored) (hparent : C.parent x = L.best)
    (hy : y :: rest ∈ L.branches) (hx : x ∈ rest) : L.best ∈ rest := by
  obtain ⟨above, below, rfl⟩ := List.append_of_mem hx
  have hbelow : x :: below ∈ L.branches := h.suffix_mem hy ⟨y :: above, rfl⟩
  rw [← hparent]
  exact List.mem_append_right _ (List.mem_cons_of_mem _ (h.parent_mem hbelow hnew))

/-- **A block of a branch becomes the best one**, and is stored or not. -/
theorem advance (h : Sound C height L) (hx : x :: rest ∈ L.branches)
    (hhigher : height L.best < height x) (hheight : height x = height (C.parent x) + 1)
    (hparent : C.parent x ∈ L.stored) {stored : Set κ}
    (hstored : stored = L.stored ∨ stored = insert x L.stored) :
    Sound C height { L with stored, best := x } := by
  have hnew := h.not_stored hhigher
  have hbest := h.parent_eq_best hhigher hheight hparent
  have hgrown : L.stored ⊆ stored := by
    rcases hstored with rfl | rfl
    · exact fun k hk => hk
    · exact Set.subset_insert x L.stored
  -- what is stored now was stored before, or is the block
  have hcases : ∀ k ∈ stored, k = x ∨ k ∈ L.stored := by
    rcases hstored with rfl | rfl
    · exact fun k hk => .inr hk
    · exact fun k hk => hk
  have hlower : ∀ k ∈ L.stored, height k < height x :=
    fun k hk => Nat.lt_of_le_of_lt (h.le_best k hk) hhigher
  have hfresh : ∀ k ∈ L.stored, (C.items x).Disjoint (C.items k) := by
    intro k hk
    refine h.fresh x rest hx (hbest ▸ h.parent_mem hx hnew) k hk ?_
    rintro rfl
    exact hnew hk
  refine ⟨fun k hk => ?_, fun k hk heq => ?_, fun k hk => ?_, fun k hk k' hk' hne => ?_, h.down,
    h.linked, fun z hz => hgrown (h.rooted z hz), h.distinct, fun z rest' hz hmem k hk hne => ?_⟩
  · rcases hcases k hk with rfl | hk
    · exact Nat.le_refl _
    · exact Nat.le_of_lt (hlower k hk)
  · rcases hcases k hk with rfl | hk
    · rfl
    · exact absurd heq (Nat.ne_of_lt (hlower k hk))
  · rcases hcases k hk with rfl | hk
    · exact (h.distinct k rest hx).1
    · exact h.nodup k hk
  · rcases hcases k hk with rfl | hold <;> rcases hcases k' hk' with rfl | hold'
    · exact absurd rfl hne
    · exact hfresh k' hold'
    · exact fun a ha ha' => hfresh k hold ha' ha
    · exact h.disjoint k hold k' hold' hne
  · rcases hcases k hk with rfl | hk
    · exact (h.distinct z rest' hz).2 k hmem hne
    · exact h.fresh z rest' hz (h.best_mem hnew hbest hz hmem) k hk hne

end Sound

end Ledger
