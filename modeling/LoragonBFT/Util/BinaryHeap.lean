import Mathlib.Logic.Equiv.Basic
import Mathlib.Order.Lattice
import Mathlib.Order.Nat
import Mathlib.Tactic.Common

/-!
# Binary heaps behind an interface

The heap of Go's `container/heap` does not own its elements. It compares the
elements at two positions and swaps them through an interface, and the caller
may do more in a swap – keep track of the positions, say. Both can fault, so
they are partial here.

The priorities at the positions `0 … n - 1` are a heap if none is smaller than
that at its parent's position. `up` and `down` repair one place at which this
is not so. What they need is stated on the priorities alone (`UpReady`,
`DownReady`, and `Loose` for a place at which anything may stand), together
with what an implementation of the interface has to keep (`Implements`).
-/

namespace BinaryHeap

/-- `heap.Interface`: what the heap is told of the elements `ε` in a state. -/
structure Interface (σ ε : Type) where
  len : σ → ℕ
  less : σ → ℕ → ℕ → Option Bool
  swap : σ → ℕ → ℕ → Option σ
  /-- Adds an element at the end. -/
  push : σ → ε → Option σ
  /-- Takes the last element off. -/
  pop : σ → Option (σ × ε)

variable {σ ε P : Type}

/-! ## The algorithms -/

/-- `heap.up`. -/
def up (I : Interface σ ε) (s : σ) (j : ℕ) : Option σ :=
  if (j - 1) / 2 = j then some s
  else do
    if ← I.less s j ((j - 1) / 2) then up I (← I.swap s ((j - 1) / 2) j) ((j - 1) / 2)
    else return s
termination_by j
decreasing_by omega

/-- Whether `heap.down` compares with the right child: if it is smaller. -/
def right (I : Interface σ ε) (n : ℕ) (s : σ) (i : ℕ) : Option Bool :=
  if 2 * i + 2 < n then I.less s (2 * i + 2) (2 * i + 1) else some false

/-- A child of a position. -/
def child (i : ℕ) (right : Bool) : ℕ := if right then 2 * i + 2 else 2 * i + 1

theorem lt_child (i : ℕ) (right : Bool) : i < child i right := by
  unfold child
  split <;> omega

/-- `heap.down`, with the position the element comes to. -/
def down (I : Interface σ ε) (n : ℕ) (s : σ) (i : ℕ) : Option (σ × ℕ) :=
  if n ≤ 2 * i + 1 then some (s, i)
  else do
    let r ← right I n s i
    if ← I.less s (child i r) i then down I n (← I.swap s i (child i r)) (child i r)
    else return (s, i)
termination_by n - i
decreasing_by
  have := lt_child i r
  omega

/-- What `heap.Fix` and `heap.Remove` do at a position where any element may
stand. -/
def settle (I : Interface σ ε) (n : ℕ) (s : σ) (i : ℕ) : Option σ := do
  let (s, i') ← down I n s i
  if i < i' then return s else up I s i

/-- `heap.Fix`. -/
def fix (I : Interface σ ε) (s : σ) (i : ℕ) : Option σ := settle I (I.len s) s i

/-- `heap.Push`. -/
def push (I : Interface σ ε) (s : σ) (x : ε) : Option σ := do
  let s ← I.push s x
  up I s (I.len s - 1)

/-- `heap.Pop`. -/
def pop (I : Interface σ ε) (s : σ) : Option (σ × ε) := do
  let n := I.len s - 1
  let (s, _) ← down I n (← I.swap s 0 n) 0
  I.pop s

/-- `heap.Remove`. -/
def remove (I : Interface σ ε) (s : σ) (i : ℕ) : Option (σ × ε) := do
  let n := I.len s - 1
  let s ← if n ≠ i then (do settle I n (← I.swap s i n) i) else some s
  I.pop s

/-! ## Priorities -/

section Order

variable [LinearOrder P] {p : ℕ → P} {n i j : ℕ}

/-- The priorities are a heap. -/
def IsHeap (p : ℕ → P) (n : ℕ) : Prop := ∀ k < n, 0 < k → p ((k - 1) / 2) ≤ p k

/-- The children of a position are not smaller than its parent. -/
def Grand (p : ℕ → P) (n i : ℕ) : Prop :=
  ∀ k < n, 0 < k → (k - 1) / 2 = i → 0 < i → p ((i - 1) / 2) ≤ p k

/-- Only the element at `j` may be smaller than its parent. -/
structure UpReady (p : ℕ → P) (n j : ℕ) : Prop where
  off : ∀ k < n, 0 < k → k ≠ j → p ((k - 1) / 2) ≤ p k
  grand : Grand p n j

/-- Only the element at `i` may be larger than its children. -/
structure DownReady (p : ℕ → P) (n i : ℕ) : Prop where
  off : ∀ k < n, 0 < k → (k - 1) / 2 ≠ i → p ((k - 1) / 2) ≤ p k
  grand : Grand p n i

/-- Any element may stand at `i`. -/
structure Loose (p : ℕ → P) (n i : ℕ) : Prop where
  off : ∀ k < n, 0 < k → k ≠ i → (k - 1) / 2 ≠ i → p ((k - 1) / 2) ≤ p k
  grand : Grand p n i

/-- **The first element of a heap is the smallest.** -/
theorem IsHeap.root_le (h : IsHeap p n) {k : ℕ} (hk : k < n) : p 0 ≤ p k := by
  induction k using Nat.strongRecOn with
  | ind k ih =>
    rcases Nat.eq_zero_or_pos k with rfl | hpos
    · exact le_rfl
    · exact (ih ((k - 1) / 2) (by omega) (by omega)).trans (h k hk hpos)

/-- Only the priorities at the first positions count. -/
theorem IsHeap.congr {p' : ℕ → P} (h : IsHeap p n) (hp : ∀ k < n, p' k = p k) : IsHeap p' n := by
  intro k hk hpos
  rw [hp k hk, hp _ (by omega)]
  exact h k hk hpos

/-- A heap with one element changed. -/
theorem IsHeap.loose {p' : ℕ → P} (h : IsHeap p n) (hp : ∀ k < n, k ≠ i → p' k = p k) :
    Loose p' n i where
  off k hk hpos hki hpar := by
    rw [hp k hk hki, hp _ (by omega) hpar]
    exact h k hk hpos
  grand k hk hpos hpar hi := by
    rw [hp k hk (by omega), hp _ (by omega) (by omega)]
    exact (h i (by omega) hi).trans (hpar ▸ h k hk hpos)

/-- A heap whose last element has been put at another position. -/
theorem IsHeap.loose_swap (h : IsHeap p (n + 1)) :
    Loose (fun k => p (Equiv.swap i n k)) n i := by
  have hshort : IsHeap p n := fun k hk hpos => h k (by omega) hpos
  exact hshort.loose fun k hk hki => by
    rw [Equiv.swap_apply_of_ne_of_ne hki (by omega)]

/-- A heap with an element added at the end. -/
theorem IsHeap.upReady (h : IsHeap p n) : UpReady p (n + 1) n where
  off k hk hpos hkn := h k (by omega) hpos
  grand k hk hpos hpar hn := absurd hk (by omega)

/-- A swap with the parent moves the wrong place up. -/
theorem UpReady.swap (h : UpReady p n j) (hj : j < n) (hpos : 0 < j)
    (hlt : p j < p ((j - 1) / 2)) :
    UpReady (fun k => p (Equiv.swap ((j - 1) / 2) j k)) n ((j - 1) / 2) := by
  obtain ⟨i, hi⟩ : ∃ i, i = (j - 1) / 2 := ⟨_, rfl⟩
  rw [← hi] at hlt ⊢
  have hother : ∀ k, k ≠ i → k ≠ j → Equiv.swap i j k = k := fun k hki hkj =>
    Equiv.swap_apply_of_ne_of_ne hki hkj
  constructor
  · intro k hk hkpos hki
    show p (Equiv.swap i j ((k - 1) / 2)) ≤ p (Equiv.swap i j k)
    by_cases hkj : k = j
    · rw [hkj, ← hi, Equiv.swap_apply_left, Equiv.swap_apply_right]
      exact hlt.le
    · rw [hother k hki hkj]
      by_cases hpj : (k - 1) / 2 = j
      · rw [hpj, Equiv.swap_apply_right]
        exact hi ▸ h.grand k hk hkpos hpj hpos
      · by_cases hpi : (k - 1) / 2 = i
        · rw [hpi, Equiv.swap_apply_left]
          exact hlt.le.trans (hpi ▸ h.off k hk hkpos hkj)
        · rw [hother _ hpi hpj]
          exact h.off k hk hkpos hkj
  · intro k hk hkpos hpar hipos
    show p (Equiv.swap i j ((i - 1) / 2)) ≤ p (Equiv.swap i j k)
    have hin : i < n := (by omega : i ≤ j).trans_lt hj
    have hparent : p ((i - 1) / 2) ≤ p i := h.off i hin hipos (by omega)
    rw [hother ((i - 1) / 2) (by omega) (by omega)]
    by_cases hkj : k = j
    · rw [hkj, Equiv.swap_apply_right]
      exact hparent
    · rw [hother k (by omega) hkj]
      exact hparent.trans (hpar ▸ h.off k hk hkpos hkj)

theorem UpReady.isHeap (h : UpReady p n j) (hj : 0 < j → p ((j - 1) / 2) ≤ p j) :
    IsHeap p n := by
  intro k hk hpos
  by_cases hkj : k = j
  · exact hkj ▸ hj (hkj ▸ hpos)
  · exact h.off k hk hpos hkj

/-- A swap with the smaller child moves the wrong place down. What stood above
need not be in order, as the child is not smaller than that. -/
theorem Loose.swap (h : Loose p n i) (hj : j < n) (hpos : 0 < j) (hpar : (j - 1) / 2 = i)
    (hmin : ∀ k < n, 0 < k → (k - 1) / 2 = i → p j ≤ p k) (hlt : p j < p i) :
    DownReady (fun k => p (Equiv.swap i j k)) n j := by
  have hother : ∀ k, k ≠ i → k ≠ j → Equiv.swap i j k = k := fun k hki hkj =>
    Equiv.swap_apply_of_ne_of_ne hki hkj
  constructor
  · intro k hk hkpos hkpar
    show p (Equiv.swap i j ((k - 1) / 2)) ≤ p (Equiv.swap i j k)
    by_cases hki : k = i
    · rw [hki, Equiv.swap_apply_left, hother ((i - 1) / 2) (by omega) (by omega)]
      exact h.grand j hj hpos hpar (hki ▸ hkpos)
    · by_cases hpi : (k - 1) / 2 = i
      · rw [hpi, Equiv.swap_apply_left]
        by_cases hkj : k = j
        · rw [hkj, Equiv.swap_apply_right]
          exact hlt.le
        · rw [hother k hki hkj]
          exact hmin k hk hkpos hpi
      · rw [hother _ hpi hkpar, hother k hki (by rintro rfl; exact hpi hpar)]
        exact h.off k hk hkpos hki hpi
  · intro k hk hkpos hkpar _
    show p (Equiv.swap i j ((j - 1) / 2)) ≤ p (Equiv.swap i j k)
    rw [hpar, Equiv.swap_apply_left, hother k (by omega) (by omega)]
    exact hkpar ▸ h.off k hk hkpos (by omega) (by omega)

theorem DownReady.loose (h : DownReady p n i) : Loose p n i :=
  ⟨fun k hk hpos _ hpar => h.off k hk hpos hpar, h.grand⟩

/-- The first element has no parent. -/
theorem Loose.downReady (h : Loose p n 0) : DownReady p n 0 :=
  ⟨fun k hk hpos hpar => h.off k hk hpos hpos.ne' hpar, h.grand⟩

theorem DownReady.isHeap (h : DownReady p n i)
    (hi : ∀ k < n, 0 < k → (k - 1) / 2 = i → p i ≤ p k) : IsHeap p n := by
  intro k hk hpos
  by_cases hpar : (k - 1) / 2 = i
  · exact hpar ▸ hi k hk hpos hpar
  · exact h.off k hk hpos hpar

theorem Loose.upReady (h : Loose p n i)
    (hi : ∀ k < n, 0 < k → (k - 1) / 2 = i → p i ≤ p k) : UpReady p n i := by
  refine ⟨fun k hk hpos hki => ?_, h.grand⟩
  by_cases hpar : (k - 1) / 2 = i
  · exact hpar ▸ hi k hk hpos hpar
  · exact h.off k hk hpos hki hpar

end Order

/-! ## What the algorithms do -/

/-- **What an implementation has to do** on its first `n` positions: compare
the priorities, and swap two of them, keeping what it keeps. -/
structure Implements [LinearOrder P] (I : Interface σ ε) (n : ℕ) (p : σ → ℕ → P)
    (Inv : σ → Prop) : Prop where
  less : ∀ {s i j}, Inv s → i < n → j < n → I.less s i j = some (decide (p s i < p s j))
  swap : ∀ {s i j}, Inv s → i < n → j < n →
    ∃ s', I.swap s i j = some s' ∧ Inv s' ∧ p s' = fun k => p s (Equiv.swap i j k)

section Correct

variable [LinearOrder P] {I : Interface σ ε} {n : ℕ} {p : σ → ℕ → P} {Inv : σ → Prop}

variable {s : σ}

/-- **`up` makes a heap** of one with an element that may be too small. -/
theorem up_isHeap (hI : Implements I n p Inv) (j : ℕ) (hs : Inv s) (hj : j < n)
    (hready : UpReady (p s) n j) : ∃ s', up I s j = some s' ∧ Inv s' ∧ IsHeap (p s') n := by
  induction j using Nat.strongRecOn generalizing s with
  | ind j ih =>
    unfold up
    by_cases hroot : (j - 1) / 2 = j
    · exact ⟨s, if_pos hroot, hs, hready.isHeap fun hpos => absurd hroot (by omega)⟩
    · rw [if_neg hroot, hI.less hs hj (by omega)]
      by_cases hlt : p s j < p s ((j - 1) / 2)
      · obtain ⟨s₁, hswap, hs₁, hp₁⟩ := hI.swap hs (by omega : (j - 1) / 2 < n) hj
        have hready₁ : UpReady (p s₁) n ((j - 1) / 2) := hp₁ ▸ hready.swap hj (by omega) hlt
        obtain ⟨s', hup, hrest⟩ := ih ((j - 1) / 2) (by omega) hs₁ (by omega) hready₁
        refine ⟨s', ?_, hrest⟩
        rw [decide_eq_true hlt, hswap]
        exact hup
      · refine ⟨s, ?_, hs, hready.isHeap fun _ => not_lt.mp hlt⟩
        rw [decide_eq_false hlt]
        rfl

/-- The child that is chosen is a smallest one. -/
theorem right_spec (hI : Implements I n p Inv) (hs : Inv s) {i : ℕ} (hi : 2 * i + 1 < n) :
    ∃ r, right I n s i = some r ∧ child i r < n
      ∧ ∀ k < n, 0 < k → (k - 1) / 2 = i → p s (child i r) ≤ p s k := by
  unfold right
  by_cases hright : 2 * i + 2 < n
  · rw [if_pos hright, hI.less hs hright hi]
    by_cases hlt : p s (2 * i + 2) < p s (2 * i + 1)
    · refine ⟨true, by rw [decide_eq_true hlt], hright, fun k _ hpos hpar => ?_⟩
      obtain rfl | rfl : k = 2 * i + 1 ∨ k = 2 * i + 2 := by omega
      · exact hlt.le
      · exact le_rfl
    · refine ⟨false, by rw [decide_eq_false hlt], hi, fun k _ hpos hpar => ?_⟩
      obtain rfl | rfl : k = 2 * i + 1 ∨ k = 2 * i + 2 := by omega
      · exact le_rfl
      · exact not_lt.mp hlt
  · refine ⟨false, if_neg hright, hi, fun k hk hpos hpar => ?_⟩
    obtain rfl : k = 2 * i + 1 := by omega
    exact le_rfl

/-- **A step of `down`**: there is no smaller child, or the element moves to
its place. -/
theorem down_step (hI : Implements I n p Inv) (hs : Inv s) {i : ℕ} (hloose : Loose (p s) n i) :
    (down I n s i = some (s, i) ∧ ∀ k < n, 0 < k → (k - 1) / 2 = i → p s i ≤ p s k)
      ∨ ∃ j s', i < j ∧ j < n ∧ down I n s i = down I n s' j ∧ Inv s'
        ∧ DownReady (p s') n j := by
  by_cases hleaf : n ≤ 2 * i + 1
  · refine .inl ⟨?_, fun k hk hpos hpar => absurd hk (by omega)⟩
    rw [down, if_pos hleaf]
  · obtain ⟨r, hright, hj, hmin⟩ := right_spec hI hs (by omega : 2 * i + 1 < n)
    have hij := lt_child i r
    have hpar : (child i r - 1) / 2 = i := by
      unfold child
      split <;> omega
    rw [down, if_neg hleaf, hright]
    show (I.less s (child i r) i >>= _) = _ ∧ _
      ∨ ∃ j s', _ ∧ _ ∧ (I.less s (child i r) i >>= _) = _ ∧ _
    rw [hI.less hs hj (by omega)]
    by_cases hlt : p s (child i r) < p s i
    · obtain ⟨s', hswap, hs', hp'⟩ := hI.swap hs (by omega : i < n) hj
      refine .inr ⟨child i r, s', hij, hj, ?_, hs',
        hp' ▸ hloose.swap hj (by omega) hpar hmin hlt⟩
      rw [decide_eq_true hlt, hswap]
      rfl
    · refine .inl ⟨?_, fun k hk hkpos hkpar => (not_lt.mp hlt).trans (hmin k hk hkpos hkpar)⟩
      rw [decide_eq_false hlt]
      rfl

/-- **`down` makes a heap** of one with an element that may be too large. -/
theorem down_isHeap (hI : Implements I n p Inv) {i : ℕ} (hs : Inv s)
    (hready : DownReady (p s) n i) :
    ∃ s' i', down I n s i = some (s', i') ∧ i ≤ i' ∧ Inv s' ∧ IsHeap (p s') n := by
  -- The element moves down, so the positions below it get fewer.
  induction hd : n - i using Nat.strongRecOn generalizing s i with
  | ind d ih =>
    rcases down_step hI hs hready.loose with
      ⟨hstop, hchildren⟩ | ⟨j, s₁, hij, hj, hdown, hs₁, hready₁⟩
    · exact ⟨s, i, hstop, le_rfl, hs, hready.isHeap hchildren⟩
    · obtain ⟨s', i', hrest, hle, hs', hheap⟩ := ih (n - j) (by omega) hs₁ hready₁ rfl
      exact ⟨s', i', hdown.trans hrest, by omega, hs', hheap⟩

/-- **`settle` makes a heap** whatever stands at the position. -/
theorem settle_isHeap (hI : Implements I n p Inv) {i : ℕ} (hs : Inv s) (hi : i < n)
    (hloose : Loose (p s) n i) :
    ∃ s', settle I n s i = some s' ∧ Inv s' ∧ IsHeap (p s') n := by
  unfold settle
  rcases down_step hI hs hloose with
    ⟨hstop, hchildren⟩ | ⟨j, s₁, hij, hj, hdown, hs₁, hready₁⟩
  · obtain ⟨s', hup, hrest⟩ := up_isHeap hI i hs hi (hloose.upReady hchildren)
    refine ⟨s', ?_, hrest⟩
    rw [hstop]
    show (if i < i then _ else _) = _
    rw [if_neg (lt_irrefl i)]
    exact hup
  · obtain ⟨s', i', hrest, hle, hs', hheap⟩ := down_isHeap hI hs₁ hready₁
    refine ⟨s', ?_, hs', hheap⟩
    rw [hdown, hrest]
    show (if i < i' then _ else _) = _
    rw [if_pos (by omega)]
    rfl

theorem push_isHeap (hI : Implements I (n + 1) p Inv) {s₁ : σ} {x : ε}
    (hpush : I.push s x = some s₁) (hlen : I.len s₁ = n + 1) (hs₁ : Inv s₁)
    (hheap : IsHeap (p s₁) n) :
    ∃ s', push I s x = some s' ∧ Inv s' ∧ IsHeap (p s') (n + 1) := by
  obtain ⟨s', hup, hrest⟩ := up_isHeap hI n hs₁ (by omega) hheap.upReady
  refine ⟨s', ?_, hrest⟩
  unfold push
  rw [hpush]
  show up I s₁ (I.len s₁ - 1) = some s'
  rw [hlen]
  exact hup

/-- `pop` takes off the last element of a state in which the others are a heap
– the one that was first. -/
theorem pop_isHeap (hI : Implements I n p Inv) {s₁ : σ} (hlen : I.len s = n + 1)
    (hheap : IsHeap (p s) (n + 1)) (hswap : I.swap s 0 n = some s₁) (hs₁ : Inv s₁)
    (hp₁ : p s₁ = fun k => p s (Equiv.swap 0 n k)) :
    ∃ s', pop I s = I.pop s' ∧ Inv s' ∧ IsHeap (p s') n := by
  have hready : DownReady (p s₁) n 0 := hp₁ ▸ hheap.loose_swap.downReady
  obtain ⟨s', i', hdown, -, hrest⟩ := down_isHeap hI hs₁ hready
  refine ⟨s', ?_, hrest⟩
  unfold pop
  rw [hlen, Nat.add_sub_cancel]
  show (I.swap s 0 n >>= _) = _
  rw [hswap]
  show (down I n s₁ 0 >>= _) = _
  rw [hdown]
  rfl

/-- `remove` likewise, for the element at any position but the last. -/
theorem remove_isHeap (hI : Implements I n p Inv) {s₁ : σ} {i : ℕ} (hlen : I.len s = n + 1)
    (hi : i < n) (hheap : IsHeap (p s) (n + 1)) (hswap : I.swap s i n = some s₁) (hs₁ : Inv s₁)
    (hp₁ : p s₁ = fun k => p s (Equiv.swap i n k)) :
    ∃ s', remove I s i = I.pop s' ∧ Inv s' ∧ IsHeap (p s') n := by
  obtain ⟨s', hsettle, hrest⟩ := settle_isHeap hI hs₁ hi (hp₁ ▸ hheap.loose_swap)
  refine ⟨s', ?_, hrest⟩
  unfold remove
  rw [hlen, Nat.add_sub_cancel]
  show (if n ≠ i then (I.swap s i n >>= fun s => settle I n s i) >>= _ else _) = _
  rw [if_pos hi.ne', hswap]
  show (settle I n s₁ i >>= _) = _
  rw [hsettle]
  rfl

/-- The last element is taken off as it is. -/
theorem remove_last (hlen : I.len s = n + 1) : remove I s n = I.pop s := by
  unfold remove
  rw [hlen, Nat.add_sub_cancel]
  show (if n ≠ n then _ else _) = _
  rw [if_neg (not_not.mpr rfl)]
  rfl

end Correct

end BinaryHeap
