import LoragonBFT.Types
import LoragonBFT.Util.Loop
import Mathlib.Data.UInt

/-!
# Looking for the last common block

Before a node asks a peer for blocks it looks for the last block of its trunk
that the peer has too. `findCommonAncestor` goes back from its head in steps
of doubling width until it meets a number under which the two have the same
block, and from there a binary search goes up again.

All numbers are `uint32`. The width of a step is doubled until it covers the
head, and past `2^31` the next width is zero, so that the steps begin anew
(`seek_eq_none`). The middle of the search is `(start + end) / 2`, and a
sum past the range comes out in its lower half, where the two still agree: the
search goes on below where it was, and so for ever (`find_eq_none`). Up to a
head of `2^31` neither happens, and the search is right; above, it is not for
every peer (`findsAncestor_iff`).
-/

namespace LoragonBFT

/-- What the search asks for: the peer's block under a number, which is
`proto.GetBlockIDByNumber`, and the node's own, `GetTrunkBlockID`. -/
structure Answers (ε : Type) where
  peer : UInt32 → Except ε Bytes32
  trunk : UInt32 → Except ε Bytes32

/-- The arguments of `find`. -/
structure FindArgs where
  start : UInt32
  stop : UInt32
  ancestor : UInt32

namespace Answers

variable {ε : Type}

/-- `isOverlapped`. -/
def isOverlapped (c : Answers ε) (num : UInt32) : Except ε Bool := do
  let result ← c.peer num
  let id ← c.trunk num
  return decide (id = result)

/-- The body of `find`: the arguments it calls itself with, or what it
returns. -/
def findStep (c : Answers ε) (s : FindArgs) : FindArgs ⊕ Except ε UInt32 :=
  if s.start = s.stop then
    match c.isOverlapped s.start with
    | .error e => .inr (.error e)
    | .ok true => .inr (.ok s.start)
    | .ok false => .inr (.ok s.ancestor)
  else
    let mid := (s.start + s.stop) / 2
    match c.isOverlapped mid with
    | .error e => .inr (.error e)
    | .ok true => .inl ⟨mid + 1, s.stop, mid⟩
    | .ok false =>
      if mid > s.start then .inl ⟨s.start, mid - 1, s.ancestor⟩ else .inr (.ok s.ancestor)

/-- The body of the loop in `fastSeek`: the next distance, or what is
returned. -/
def seekStep (c : Answers ε) (headNum backward : UInt32) : UInt32 ⊕ Except ε UInt32 :=
  if backward ≥ headNum then .inr (.ok 0)
  else match c.isOverlapped (headNum - backward) with
    | .error e => .inr (.error e)
    | .ok true => .inr (.ok (headNum - backward))
    | .ok false => .inl (if backward = 0 then 1 else backward <<< 1)

/-- `Communicator.findCommonAncestor`, with a bound on the rounds of its loop
and the depth of its recursion. -/
def findCommonAncestor (c : Answers ε) (fuel : ℕ) (headNum : UInt32) :
    Option (Except ε UInt32) :=
  if headNum = 0 then some (.ok headNum)
  else match Loop.iterate (c.seekStep headNum) fuel 0 with
    | none => none
    | some (.error e) => some (.error e)
    | some (.ok seekNum) =>
      if seekNum = headNum then some (.ok headNum)
      else Loop.iterate c.findStep fuel ⟨seekNum, headNum, 0⟩

/-- **The search terminates and returns a number.** -/
def Returns (c : Answers ε) (headNum num : UInt32) : Prop :=
  ∃ fuel, c.findCommonAncestor fuel headNum = some (.ok num)

/-- The peer agrees with the trunk up to a number, and disagrees above. -/
def AgreesUpTo (c : Answers ε) (headNum A : UInt32) : Prop :=
  ∀ num ≤ headNum, ∃ id id', c.trunk num = .ok id ∧ c.peer num = .ok id' ∧ (id = id' ↔ num ≤ A)

variable {c : Answers ε} {headNum A : UInt32}

theorem AgreesUpTo.isOverlapped (h : c.AgreesUpTo headNum A) {num : UInt32}
    (hnum : num ≤ headNum) : c.isOverlapped num = .ok (decide (num ≤ A)) := by
  obtain ⟨id, id', htrunk, hpeer, hiff⟩ := h num hnum
  unfold Answers.isOverlapped
  rw [htrunk, hpeer]
  show Except.ok (decide (id = id')) = _
  rw [decide_eq_decide.mpr hiff]

section Steps

variable {s : FindArgs}

/-- One round of the loop, with a peer of this kind. -/
theorem AgreesUpTo.seekStep (h : c.AgreesUpTo headNum A) (backward : UInt32) :
    c.seekStep headNum backward
      = if backward ≥ headNum then .inr (.ok 0)
        else if headNum - backward ≤ A then .inr (.ok (headNum - backward))
        else .inl (if backward = 0 then 1 else backward <<< 1) := by
  unfold Answers.seekStep
  split
  · rfl
  next hlt =>
    have hback : backward ≤ headNum := UInt32.le_of_lt (UInt32.not_le.mp hlt)
    have hle : headNum - backward ≤ headNum := by
      rw [UInt32.le_iff_toNat_le, UInt32.toNat_sub_of_le _ _ hback]
      exact Nat.sub_le ..
    rw [h.isOverlapped hle]
    by_cases hA : headNum - backward ≤ A
    · rw [decide_eq_true hA, if_pos hA]
    · rw [decide_eq_false hA, if_neg hA]

/-- One call of `find` at the end of the search. -/
theorem AgreesUpTo.findStep_of_eq (h : c.AgreesUpTo headNum A) (heq : s.start = s.stop)
    (hstop : s.stop ≤ headNum) :
    c.findStep s = .inr (.ok (if s.stop ≤ A then s.stop else s.ancestor)) := by
  unfold Answers.findStep
  rw [if_pos heq, heq, h.isOverlapped hstop]
  by_cases hA : s.stop ≤ A
  · rw [decide_eq_true hA, if_pos hA]
  · rw [decide_eq_false hA, if_neg hA]

/-- One call of `find` before the end. -/
theorem AgreesUpTo.findStep_of_ne (h : c.AgreesUpTo headNum A) (hne : s.start ≠ s.stop)
    {mid : UInt32} (hmid : (s.start + s.stop) / 2 = mid) (hle : mid ≤ headNum) :
    c.findStep s
      = if mid ≤ A then .inl ⟨mid + 1, s.stop, mid⟩
        else if mid > s.start then .inl ⟨s.start, mid - 1, s.ancestor⟩
        else .inr (.ok s.ancestor) := by
  unfold Answers.findStep
  rw [if_neg hne, hmid]
  dsimp only
  rw [h.isOverlapped hle]
  by_cases hA : mid ≤ A
  · rw [decide_eq_true hA, if_pos hA]
  · rw [decide_eq_false hA, if_neg hA]

end Steps

/-! ## Up to a head of `2^31` -/

variable {backward : UInt32}

/-- A distance below the head can be doubled. -/
theorem toNat_shiftLeft_one (h : backward.toNat < 2 ^ 31) :
    (backward <<< 1).toNat = 2 * backward.toNat := by
  rw [UInt32.toNat_shiftLeft]
  show (backward.toNat <<< 1) % 2 ^ 32 = _
  rw [Nat.shiftLeft_eq]
  omega

/-- The loop ends at a number the two agree on. -/
theorem AgreesUpTo.seekStep_ends (h : c.AgreesUpTo headNum A) {r : Except ε UInt32}
    (hr : c.seekStep headNum backward = .inr r) :
    ∃ num, r = .ok num ∧ num ≤ A := by
  rw [h.seekStep] at hr
  split at hr
  · obtain rfl := Sum.inr.inj hr
    exact ⟨0, rfl, UInt32.le_iff_toNat_le.mpr (Nat.zero_le _)⟩
  · split at hr
    next hA =>
      obtain rfl := Sum.inr.inj hr
      exact ⟨_, rfl, hA⟩
    · exact nomatch hr

/-- The loop ends. -/
theorem exists_seek (h : c.AgreesUpTo headNum A) (hhead : headNum.toNat ≤ 2 ^ 31) :
    ∃ n r, Loop.iterate (c.seekStep headNum) n 0 = some r ∧ ∃ num, r = .ok num ∧ num ≤ A := by
  refine Loop.exists_iterate_of_measure (I := fun _ => True)
    (fun backward => headNum.toNat - backward.toNat) (fun backward next _ hnext => ?_)
    (fun _ _ _ hr => h.seekStep_ends hr) trivial
  rw [h.seekStep] at hnext
  split at hnext
  · exact nomatch hnext
  next hlt =>
    split at hnext
    · exact nomatch hnext
    obtain rfl := Sum.inl.inj hnext
    refine ⟨trivial, ?_⟩
    have hlt := UInt32.lt_iff_toNat_lt.mp (UInt32.not_le.mp hlt)
    split
    next hzero =>
      rw [hzero] at hlt ⊢
      show _ - 1 < _ - 0
      omega
    next hne =>
      have hpos : backward.toNat ≠ 0 := fun h0 => hne (UInt32.toNat.inj h0)
      rw [toNat_shiftLeft_one (by omega)]
      omega

/-- **Where the search has to look**: the number is in the bounds, or it is
the last one found and just below them. -/
structure Searching (headNum A : UInt32) (s : FindArgs) : Prop where
  le : s.start ≤ s.stop
  stop_le : s.stop ≤ headNum
  le_stop : A ≤ s.stop
  found : s.start ≤ A ∨ s.ancestor = A ∧ s.start.toNat = A.toNat + 1

/-- The middle of bounds whose sum does not overflow. -/
theorem Searching.toNat_mid {s : FindArgs} (h : Searching headNum A s)
    (hhead : headNum.toNat ≤ 2 ^ 31) (hne : s.start ≠ s.stop) :
    ((s.start + s.stop) / 2).toNat = (s.start.toNat + s.stop.toNat) / 2
      ∧ s.start.toNat < s.stop.toNat := by
  have hlt : s.start.toNat < s.stop.toNat := by
    refine lt_of_le_of_ne (UInt32.le_iff_toNat_le.mp h.le) fun heq => hne (UInt32.toNat.inj heq)
  have hstop := UInt32.le_iff_toNat_le.mp h.stop_le
  have htwo : (2 : UInt32).toNat = 2 := rfl
  refine ⟨?_, hlt⟩
  rw [UInt32.toNat_div, UInt32.toNat_add, htwo]
  omega

/-- **The binary search finds the number.** -/
theorem exists_find (h : c.AgreesUpTo headNum A) (hhead : headNum.toNat ≤ 2 ^ 31) {s : FindArgs}
    (hs : Searching headNum A s) :
    ∃ n r, Loop.iterate c.findStep n s = some r ∧ r = .ok A := by
  refine Loop.exists_iterate_of_measure (I := Searching headNum A)
    (fun s => s.stop.toNat - s.start.toNat) (fun s next hs hnext => ?_) (fun s r hs hr => ?_) hs
  · by_cases heq : s.start = s.stop
    · rw [h.findStep_of_eq heq hs.stop_le] at hnext
      exact nomatch hnext
    obtain ⟨hmid, hlt⟩ := hs.toNat_mid hhead heq
    have hstop := UInt32.le_iff_toNat_le.mp hs.stop_le
    have hle : (s.start + s.stop) / 2 ≤ headNum := UInt32.le_iff_toNat_le.mpr (by omega)
    rw [h.findStep_of_ne heq rfl hle] at hnext
    generalize (s.start + s.stop) / 2 = mid at hmid hle hnext
    have hone : (1 : UInt32).toNat = 1 := rfl
    split at hnext
    next hA =>
      -- the upper half: the number is above the middle, or is the middle
      obtain rfl := Sum.inl.inj hnext
      have hA := UInt32.le_iff_toNat_le.mp hA
      have hsucc : (mid + 1).toNat = mid.toNat + 1 := by
        rw [UInt32.toNat_add, hone]
        omega
      refine ⟨⟨?_, hs.stop_le, hs.le_stop, ?_⟩, ?_⟩
      · rw [UInt32.le_iff_toNat_le]
        show (mid + 1).toNat ≤ s.stop.toNat
        omega
      · rcases Nat.lt_or_eq_of_le hA with hbelow | hsame
        · refine .inl (UInt32.le_iff_toNat_le.mpr ?_)
          show (mid + 1).toNat ≤ A.toNat
          omega
        · exact .inr ⟨UInt32.toNat.inj hsame, hsame ▸ hsucc⟩
      · show s.stop.toNat - (mid + 1).toNat < _
        omega
    next hA =>
      split at hnext
      next hgt =>
        -- the lower half
        obtain rfl := Sum.inl.inj hnext
        have hgt : s.start.toNat < mid.toNat := UInt32.lt_iff_toNat_lt.mp hgt
        have hA := UInt32.lt_iff_toNat_lt.mp (UInt32.not_le.mp hA)
        have hpred : (mid - 1).toNat = mid.toNat - 1 := by
          rw [UInt32.toNat_sub_of_le _ _ (UInt32.le_iff_toNat_le.mpr (by rw [hone]; omega)), hone]
        refine ⟨⟨?_, ?_, ?_, hs.found⟩, ?_⟩
        · rw [UInt32.le_iff_toNat_le]
          show s.start.toNat ≤ (mid - 1).toNat
          omega
        · rw [UInt32.le_iff_toNat_le]
          show (mid - 1).toNat ≤ headNum.toNat
          omega
        · rw [UInt32.le_iff_toNat_le]
          show A.toNat ≤ (mid - 1).toNat
          omega
        · show (mid - 1).toNat - s.start.toNat < _
          omega
      · exact nomatch hnext
  · by_cases heq : s.start = s.stop
    · rw [h.findStep_of_eq heq hs.stop_le] at hr
      obtain rfl := Sum.inr.inj hr
      split
      next hA => rw [UInt32.le_antisymm hA hs.le_stop]
      next hA =>
        rcases hs.found with hfound | ⟨hfound, -⟩
        · exact absurd (heq ▸ hfound) hA
        · rw [hfound]
    obtain ⟨hmid, hlt⟩ := hs.toNat_mid hhead heq
    have hstop := UInt32.le_iff_toNat_le.mp hs.stop_le
    have hle : (s.start + s.stop) / 2 ≤ headNum := UInt32.le_iff_toNat_le.mpr (by omega)
    rw [h.findStep_of_ne heq rfl hle] at hr
    generalize (s.start + s.stop) / 2 = mid at hmid hle hr
    split at hr
    · exact nomatch hr
    next hA =>
      split at hr
      · exact nomatch hr
      next hgt =>
        -- the middle is the lower bound and is above the number
        obtain rfl := Sum.inr.inj hr
        have hgt : mid.toNat ≤ s.start.toNat := UInt32.le_iff_toNat_le.mp (UInt32.not_lt.mp hgt)
        have hA := UInt32.lt_iff_toNat_lt.mp (UInt32.not_le.mp hA)
        rcases hs.found with hfound | ⟨hfound, -⟩
        · have hfound := UInt32.le_iff_toNat_le.mp hfound
          omega
        · rw [hfound]

/-- **Up to a head of `2^31` the search is right.** -/
theorem returns_of_le (h : c.AgreesUpTo headNum A) (hA : A ≤ headNum)
    (hhead : headNum.toNat ≤ 2 ^ 31) : c.Returns headNum A := by
  by_cases hzero : headNum = 0
  · subst hzero
    obtain rfl : A = 0 := UInt32.toNat.inj (Nat.le_zero.mp (UInt32.le_iff_toNat_le.mp hA))
    exact ⟨0, rfl⟩
  obtain ⟨m, r, hseek, num, rfl, hnum⟩ := exists_seek h hhead
  by_cases hnumEq : num = headNum
  · refine ⟨m, ?_⟩
    unfold findCommonAncestor
    rw [if_neg hzero, hseek]
    dsimp only
    rw [if_pos hnumEq, UInt32.le_antisymm hA (hnumEq ▸ hnum)]
  · have hs : Searching headNum A ⟨num, headNum, 0⟩ :=
      ⟨UInt32.le_trans hnum hA, UInt32.le_refl _, hA, .inl hnum⟩
    obtain ⟨n, r, hfind, rfl⟩ := exists_find h hhead hs
    refine ⟨max m n, ?_⟩
    unfold findCommonAncestor
    rw [if_neg hzero, Loop.iterate_mono (Nat.le_max_left m n) hseek]
    dsimp only
    rw [if_neg hnumEq]
    exact Loop.iterate_mono (Nat.le_max_right m n) hfind

/-! ## Above it -/

/-- **The middle of the bounds is always below `2^31`**, whether their sum
overflows or not. -/
theorem toNat_mid_lt (a b : UInt32) : ((a + b) / 2).toNat < 2 ^ 31 := by
  have htwo : (2 : UInt32).toNat = 2 := rfl
  have hlt := (a + b).toNat_lt
  rw [UInt32.toNat_div, htwo]
  omega

/-- **A search for a number from `2^31` on never ends.** Every middle is one
the two agree on, so the upper bound stays, and the lower one stays below. -/
theorem find_eq_none (h : c.AgreesUpTo headNum A) (hA : 2 ^ 31 ≤ A.toNat) (hlt : A < headNum)
    (n : ℕ) {s : FindArgs} (hstop : s.stop = headNum) (hne : s.start ≠ s.stop) :
    Loop.iterate c.findStep n s = none := by
  have hlt := UInt32.lt_iff_toNat_lt.mp hlt
  refine Loop.iterate_eq_none (J := fun s => s.stop = headNum ∧ s.start ≠ s.stop)
    (fun s ⟨hstop, hne⟩ => ?_) n ⟨hstop, hne⟩
  have hmid := toNat_mid_lt s.start s.stop
  have hle : (s.start + s.stop) / 2 ≤ A := UInt32.le_iff_toNat_le.mpr (by omega)
  refine ⟨⟨(s.start + s.stop) / 2 + 1, s.stop, (s.start + s.stop) / 2⟩, ?_, hstop, fun heq => ?_⟩
  · rw [h.findStep_of_ne hne rfl (UInt32.le_iff_toNat_le.mpr (by omega)), if_pos hle]
  · have heq : ((s.start + s.stop) / 2 + 1).toNat = headNum.toNat := by
      rw [show (s.start + s.stop) / 2 + 1 = s.stop from heq, hstop]
    have hone : (1 : UInt32).toNat = 1 := rfl
    rw [UInt32.toNat_add, hone] at heq
    omega

/-- The distances of the loop: zero, or a power of two. -/
def IsDistance (backward : UInt32) : Prop :=
  backward = 0 ∨ ∃ k < 32, backward = 1 <<< UInt32.ofNat k

/-- **The distances go round in a circle.** -/
theorem IsDistance.next (h : IsDistance backward) :
    IsDistance (if backward = 0 then 1 else backward <<< 1)
      ∧ backward.toNat ≤ 2 ^ 31 := by
  have hpowers : ∀ k < 32, (1 <<< UInt32.ofNat k : UInt32) <<< 1
        = (if k = 31 then 0 else 1 <<< UInt32.ofNat (k + 1) : UInt32)
      ∧ (1 <<< UInt32.ofNat k : UInt32).toNat ≤ 2 ^ 31
      ∧ (1 <<< UInt32.ofNat k : UInt32) ≠ 0 := by
    decide
  rcases h with rfl | ⟨k, hk, rfl⟩
  · exact ⟨.inr ⟨0, by decide, rfl⟩, by decide⟩
  · obtain ⟨hdouble, hle, hne⟩ := hpowers k hk
    refine ⟨?_, hle⟩
    rw [if_neg hne, hdouble]
    split
    · exact .inl rfl
    · exact .inr ⟨k + 1, by omega, rfl⟩

/-- **With a number too far below the head the loop never ends.** No distance
covers the head, and none leads to a number the two agree on. -/
theorem seek_eq_none (h : c.AgreesUpTo headNum A) (hfar : A.toNat + 2 ^ 31 < headNum.toNat)
    (n : ℕ) : Loop.iterate (c.seekStep headNum) n 0 = none := by
  refine Loop.iterate_eq_none (J := IsDistance) (fun backward hdistance => ?_) n (.inl rfl)
  obtain ⟨hnext, hle⟩ := hdistance.next
  refine ⟨_, ?_, hnext⟩
  have hlt : backward < headNum := UInt32.lt_iff_toNat_lt.mpr (by omega)
  rw [h.seekStep, if_neg (UInt32.not_le.mpr hlt), if_neg]
  rw [UInt32.not_le, UInt32.lt_iff_toNat_lt, UInt32.toNat_sub_of_le _ _ (UInt32.le_of_lt hlt)]
  omega

/-- **For such a number the search returns nothing.** -/
theorem not_returns (h : c.AgreesUpTo headNum A) (hA : A < headNum)
    (hfails : 2 ^ 31 ≤ A.toNat ∨ A.toNat + 2 ^ 31 < headNum.toNat) (num : UInt32) :
    ¬ c.Returns headNum num := by
  rintro ⟨fuel, hreturns⟩
  have hne : headNum ≠ 0 := by
    rintro rfl
    exact UInt32.not_lt_zero hA
  unfold findCommonAncestor at hreturns
  rw [if_neg hne] at hreturns
  rcases hfails with hhigh | hfar
  · cases hseek : Loop.iterate (c.seekStep headNum) fuel 0 with
    | none =>
      rw [hseek] at hreturns
      exact nomatch hreturns
    | some r =>
      obtain ⟨seekNum, rfl, hseekNum⟩ := Loop.iterate_ends (I := fun _ => True)
        (fun _ _ _ _ => trivial) (fun _ _ _ hr => h.seekStep_ends hr) trivial hseek
      have hbelow : seekNum ≠ headNum := UInt32.ne_of_lt (UInt32.lt_of_le_of_lt hseekNum hA)
      rw [hseek] at hreturns
      dsimp only at hreturns
      rw [if_neg hbelow, find_eq_none h hhigh hA fuel rfl hbelow] at hreturns
      exact nomatch hreturns
  · rw [seek_eq_none h hfar] at hreturns
    exact nomatch hreturns

/-- A peer that has other blocks than the node above a number. -/
def splitAt (ε : Type) (A : UInt32) : Answers ε where
  trunk _ := .ok 0
  peer num := .ok (if num ≤ A then 0 else 1)

theorem agreesUpTo_splitAt (headNum A : UInt32) : (splitAt ε A).AgreesUpTo headNum A := by
  intro num _
  refine ⟨0, _, rfl, rfl, ?_⟩
  by_cases hnum : num ≤ A
  · rw [if_pos hnum]
    exact ⟨fun _ => hnum, fun _ => rfl⟩
  · rw [if_neg hnum]
    exact ⟨fun h => absurd h (by decide), fun h => absurd h hnum⟩

end Answers

/-- **The search finds the last common block of every peer exactly if the head
is at most at `2^31`.** -/
theorem findsAncestor_iff (ε : Type) (headNum : UInt32) :
    (∀ (c : Answers ε) (A : UInt32), A ≤ headNum → c.AgreesUpTo headNum A → c.Returns headNum A)
      ↔ headNum ≤ 2 ^ 31 := by
  have hbound : headNum ≤ 2 ^ 31 ↔ headNum.toNat ≤ 2 ^ 31 := UInt32.le_iff_toNat_le
  rw [hbound]
  constructor
  · intro hfinds
    by_contra hhead
    -- a peer that has all blocks but the last
    have hone : (1 : UInt32).toNat = 1 := rfl
    have hpred : (headNum - 1).toNat = headNum.toNat - 1 := by
      rw [UInt32.toNat_sub_of_le _ _ (UInt32.le_iff_toNat_le.mpr (by rw [hone]; omega)), hone]
    have hlt : headNum - 1 < headNum := UInt32.lt_iff_toNat_lt.mpr (by omega)
    have hagrees := Answers.agreesUpTo_splitAt (ε := ε) headNum (headNum - 1)
    exact Answers.not_returns hagrees hlt (.inl (by omega)) _
      (hfinds _ _ (UInt32.le_of_lt hlt) hagrees)
  · intro hhead c A hA hagrees
    exact Answers.returns_of_le hagrees hA hhead

/-- **Two searches that never end**, with a head just above `2^31`: the peer
has all blocks but the last one, and the peer has the genesis block only. -/
theorem search_never_ends :
    (Answers.splitAt Unit (2 ^ 31)).AgreesUpTo (2 ^ 31 + 1) (2 ^ 31)
      ∧ (∀ num, ¬ (Answers.splitAt Unit (2 ^ 31)).Returns (2 ^ 31 + 1) num)
      ∧ (Answers.splitAt Unit 0).AgreesUpTo (2 ^ 31 + 1) 0
      ∧ ∀ num, ¬ (Answers.splitAt Unit 0).Returns (2 ^ 31 + 1) num :=
  ⟨Answers.agreesUpTo_splitAt _ _,
    Answers.not_returns (Answers.agreesUpTo_splitAt _ _) (by decide) (.inl (by decide)),
    Answers.agreesUpTo_splitAt _ _,
    Answers.not_returns (Answers.agreesUpTo_splitAt _ _) (by decide) (.inr (by decide))⟩

end LoragonBFT
