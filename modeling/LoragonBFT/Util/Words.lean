import Mathlib.Data.Nat.Bitwise

/-!
# Bits kept in words

A list of 64-bit words, read as a sequence of bits: the first word has the
first 64 of them, the lowest first. Past the last word all bits are unset, so
two lists can be compared bit by bit whatever their lengths.
-/

namespace Words

/-! ## The bits of one word -/

variable {w : UInt64} {ws : List UInt64} {i : ℕ}

theorem testBit_not {k : ℕ} (hk : k < 64) :
    (~~~w).toNat.testBit k = !w.toNat.testBit k := by
  rw [← UInt64.toNat_toBitVec, ← UInt64.toNat_toBitVec, BitVec.testBit_toNat,
    BitVec.testBit_toNat, UInt64.toBitVec_not, BitVec.getLsbD_not, decide_eq_true hk,
    Bool.true_and]

/-- A word without a bit is zero. -/
theorem eq_zero_iff : w = 0 ↔ ∀ k < 64, w.toNat.testBit k = false := by
  constructor
  · rintro rfl k -
    exact Nat.zero_testBit k
  · intro h
    refine UInt64.toNat_inj.mp (Nat.eq_of_testBit_eq fun k => ?_)
    rw [UInt64.toNat_zero, Nat.zero_testBit]
    by_cases hk : k < 64
    · exact h k hk
    · exact Nat.testBit_lt_two_pow (w.toNat_lt.trans_le (Nat.pow_le_pow_right (by decide)
        (not_lt.mp hk)))

theorem and_not_self (w : UInt64) : w &&& ~~~w = 0 := by
  refine eq_zero_iff.mpr fun k hk => ?_
  rw [UInt64.toNat_and, Nat.testBit_and, testBit_not hk, Bool.and_not_self]

/-! ## The bits of a list -/

/-- The bit at an index. -/
def bit (ws : List UInt64) (i : ℕ) : Bool := (ws[i / 64]?).any fun w => w.toNat.testBit (i % 64)

theorem bit_of_getElem? (h : ws[i / 64]? = some w) :
    bit ws i = w.toNat.testBit (i % 64) := by
  unfold bit
  rw [h]
  rfl

/-- The bit is in its word. -/
theorem bit_eq_getElem (h : i / 64 < ws.length) :
    bit ws i = ws[i / 64].toNat.testBit (i % 64) :=
  bit_of_getElem? (List.getElem?_eq_getElem h)

theorem bit_replicate_zero (n i : ℕ) : bit (List.replicate n 0) i = false := by
  unfold bit
  rw [List.getElem?_replicate]
  split <;> simp

theorem bit_take {n : ℕ} :
    bit (ws.take n) i = (decide (i < 64 * n) && bit ws i) := by
  unfold bit
  rw [List.getElem?_take]
  by_cases h : i / 64 < n
  · rw [if_pos h, decide_eq_true (by omega), Bool.true_and]
  · rw [if_neg h, decide_eq_false (by omega)]
    rfl

theorem bit_append_drop (vs ws : List UInt64) (i : ℕ) :
    bit (vs ++ ws.drop vs.length) i = if i < 64 * vs.length then bit vs i else bit ws i := by
  unfold bit
  split
  · rw [List.getElem?_append_left (by omega)]
  · rw [List.getElem?_append_right (by omega), List.getElem?_drop,
      Nat.add_sub_cancel' (by omega)]

/-- Words of zeros at the end do not show. -/
theorem bit_append_replicate {n : ℕ} :
    bit (ws ++ List.replicate n 0) i = bit ws i := by
  by_cases h : i / 64 < ws.length
  · unfold bit
    rw [List.getElem?_append_left h]
  · have hzero := bit_replicate_zero n (i - 64 * ws.length)
    unfold bit at hzero ⊢
    rw [List.getElem?_append_right (by omega),
      List.getElem?_eq_none (by omega : ws.length ≤ i / 64),
      show i / 64 - ws.length = (i - 64 * ws.length) / 64 by omega,
      show i % 64 = (i - 64 * ws.length) % 64 by omega, hzero]
    rfl

/-- **An operation on the words is one on the bits.** -/
theorem bit_map {f : UInt64 → UInt64} {g : Bool → Bool}
    (hf : ∀ w k, k < 64 → (f w).toNat.testBit k = g (w.toNat.testBit k)) (hi : i / 64 < ws.length) :
    bit (ws.map f) i = g (bit ws i) := by
  rw [bit_eq_getElem hi, bit_eq_getElem (by rw [List.length_map]; exact hi), List.getElem_map]
  exact hf _ _ (Nat.mod_lt _ (by decide))

theorem bit_zipWith {f : UInt64 → UInt64 → UInt64} {g : Bool → Bool → Bool}
    (hf : ∀ w v k, (f w v).toNat.testBit k = g (w.toNat.testBit k) (v.toNat.testBit k))
    {vs : List UInt64} (hws : i / 64 < ws.length) (hvs : i / 64 < vs.length) :
    bit (List.zipWith f ws vs) i = g (bit ws i) (bit vs i) := by
  rw [bit_eq_getElem hws, bit_eq_getElem hvs,
    bit_eq_getElem (by rw [List.length_zipWith]; exact lt_min hws hvs), List.getElem_zipWith]
  exact hf _ _ _

/-- **A word is replaced by one that differs in one bit.** -/
theorem bit_set {w' : UInt64} {v : Bool} (hw : ws[i / 64]? = some w)
    (hw' : ∀ k < 64, w'.toNat.testBit k = if k = i % 64 then v else w.toNat.testBit k) (j : ℕ) :
    bit (ws.set (i / 64) w') j = if j = i then v else bit ws j := by
  have hlt : i / 64 < ws.length := (List.getElem?_eq_some_iff.mp hw).1
  by_cases hword : j / 64 = i / 64
  · rw [bit_of_getElem? (w := w') (by rw [hword, List.getElem?_set_self hlt]),
      bit_of_getElem? (w := w) (by rw [hword, hw]), hw' _ (Nat.mod_lt _ (by decide))]
    exact if_congr (by omega) rfl rfl
  · unfold bit
    rw [List.getElem?_set_ne (Ne.symm hword), if_neg (by rintro rfl; exact hword rfl)]

/-- No bit is set exactly if all words are zero. -/
theorem all_zero_iff : (∀ w ∈ ws, w = 0) ↔ ∀ i, bit ws i = false := by
  constructor
  · intro h i
    unfold bit
    cases hw : ws[i / 64]? with
    | none => rfl
    | some w => rw [h w (List.mem_of_getElem? hw)]; exact Nat.zero_testBit _
  · intro h w hw
    obtain ⟨n, hn⟩ := List.mem_iff_getElem?.mp hw
    refine eq_zero_iff.mpr fun k hk => ?_
    rw [← h (64 * n + k), bit_of_getElem? (w := w), show (64 * n + k) % 64 = k by omega]
    rw [show (64 * n + k) / 64 = n by omega, hn]

end Words
