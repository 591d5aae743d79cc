import Mathlib.Data.Option.Basic
import Mathlib.Data.Nat.Notation

/-!
# Nodes with one parent

A store of nodes in which every node but a root has one parent is given by a
partial function. A path leads from a node down to one of its ancestors, and
the lowest common ancestor of two nodes is the one that every other common
ancestor is an ancestor of (`IsMeet`).

To find it one steps down from the node that is further from the root, or from
both if they are as far. That this finds nothing but the lowest common
ancestor is what the rules `IsMeet.of_parent` and `IsMeet.of_parents` say. How
far a node is from the root is the length of the path between them, of which
there is only one (`Path.unique`).
-/

namespace Ancestry

variable {α : Type} {parent : α → Option α} {root a p q t b : α} {l m : List α}

/-- **The nodes strictly above `a` up to and including `t`**, the lowest
first, each the parent of the next. -/
inductive Path (parent : α → Option α) (a : α) : α → List α → Prop
  | refl : Path parent a a []
  | step {p t : α} {l : List α} (link : parent t = some p) (rest : Path parent a p l) :
      Path parent a t (l ++ [t])

/-- `a` is `t` or an ancestor of it. -/
def IsAncestor (parent : α → Option α) (a t : α) : Prop := ∃ l, Path parent a t l

theorem Path.trans (h : Path parent a p l) (h' : Path parent p t m) :
    Path parent a t (l ++ m) := by
  induction h' with
  | refl =>
    rw [List.append_nil]
    exact h
  | step link _ ih =>
    rw [← List.append_assoc]
    exact .step link ih

/-- A path that is not empty passes through the parent. -/
theorem Path.cases_parent (h : Path parent a t l) (hne : t ≠ a) :
    ∃ p m, parent t = some p ∧ Path parent a p m ∧ l = m ++ [t] := by
  cases h with
  | refl => exact absurd rfl hne
  | step link rest => exact ⟨_, _, link, rest, rfl⟩

/-- **There is one path to the root.** -/
theorem Path.unique (hroot : parent root = none) (h : Path parent root t l)
    (h' : Path parent root t m) : l = m := by
  induction h generalizing m with
  | refl =>
    cases h' with
    | refl => rfl
    | step link => exact nomatch hroot.symm.trans link
  | step link _ ih =>
    cases h' with
    | refl => exact nomatch hroot.symm.trans link
    | step link' rest' =>
      obtain rfl := Option.some.inj (link.symm.trans link')
      rw [ih rest']

/-- A node is no ancestor of one that is not further from the root, unless
they are the same. -/
theorem not_isAncestor_of_length_le (hroot : parent root = none) (ht : Path parent root t l)
    (hb : Path parent root b m) (hle : m.length ≤ l.length) (hne : t ≠ b) :
    ¬ IsAncestor parent t b := by
  rintro ⟨r, hr⟩
  obtain ⟨_, r', -, -, rfl⟩ := hr.cases_parent (Ne.symm hne)
  rw [Path.unique hroot hb (ht.trans hr), List.length_append, List.length_append,
    List.length_singleton] at hle
  omega

/-! ## The lowest common ancestor -/

/-- **`a` is the lowest common ancestor of `t` and `b`.** -/
structure IsMeet (parent : α → Option α) (a t b : α) : Prop where
  left : IsAncestor parent a t
  right : IsAncestor parent a b
  lowest : ∀ x, IsAncestor parent x t → IsAncestor parent x b → IsAncestor parent x a

theorem IsMeet.self (a : α) : IsMeet parent a a a := ⟨⟨[], .refl⟩, ⟨[], .refl⟩, fun _ h _ => h⟩

theorem IsMeet.symm (h : IsMeet parent a t b) : IsMeet parent a b t :=
  ⟨h.right, h.left, fun x hb ht => h.lowest x ht hb⟩

theorem IsAncestor.of_parent (hp : parent t = some p) (h : IsAncestor parent a p) :
    IsAncestor parent a t := by
  obtain ⟨l, hl⟩ := h
  exact ⟨l ++ [t], .step hp hl⟩

/-- An ancestor of a node other than the node itself is one of its parent. -/
theorem IsAncestor.to_parent (hp : parent t = some p) (h : IsAncestor parent a t) (hne : t ≠ a) :
    IsAncestor parent a p := by
  obtain ⟨l, hl⟩ := h
  obtain ⟨p', m, hp', hm, -⟩ := hl.cases_parent hne
  obtain rfl := Option.some.inj (hp'.symm.trans hp)
  exact ⟨m, hm⟩

/-- **Stepping down from one node**, which is no ancestor of the other. -/
theorem IsMeet.of_parent (hp : parent t = some p) (hnot : ¬ IsAncestor parent t b)
    (h : IsMeet parent a p b) : IsMeet parent a t b where
  left := h.left.of_parent hp
  right := h.right
  lowest x hxt hxb := by
    refine h.lowest x (hxt.to_parent hp ?_) hxb
    rintro rfl
    exact hnot hxb

/-- **Stepping down from both**, neither of which is an ancestor of the
other. -/
theorem IsMeet.of_parents (hp : parent t = some p) (hq : parent b = some q)
    (hnot : ¬ IsAncestor parent t b) (hnot' : ¬ IsAncestor parent b t)
    (h : IsMeet parent a p q) : IsMeet parent a t b := by
  refine IsMeet.of_parent hp hnot (IsMeet.symm (.of_parent hq ?_ h.symm))
  exact fun hb => hnot' (hb.of_parent hp)

end Ancestry
