import Mathlib.Data.Nat.Basic
import Mathlib.Tactic.Ring

/-!
# Little-endian numbers of a fixed width

SSZ writes a record in two parts. The fixed part has the fields of a fixed size
in their order and, for a field whose size varies, the offset at which it
starts; the variable part has those fields one after the other. Integers and
offsets are a fixed number of little-endian bytes.
-/

namespace Ssz

/-- The `n` low little-endian digits of a number, in base 256. -/
def leBytes : ℕ → ℕ → List UInt8
  | 0, _ => []
  | n + 1, x => UInt8.ofNat x :: leBytes n (x / 256)

/-- The number a list of little-endian digits stands for. -/
def leValue : List UInt8 → ℕ
  | [] => 0
  | b :: l => b.toNat + 256 * leValue l

@[simp] theorem length_leBytes (n x : ℕ) : (leBytes n x).length = n := by
  induction n generalizing x with
  | zero => rfl
  | succ n ih => rw [leBytes, List.length_cons, ih]

/-- **Reading the digits of a number gives the number back**, as long as there
were digits enough. -/
theorem leValue_leBytes {n x : ℕ} (h : x < 256 ^ n) : leValue (leBytes n x) = x := by
  induction n generalizing x with
  | zero =>
    obtain rfl : x = 0 := by simpa using h
    rfl
  | succ n ih =>
    have hdiv : x / 256 < 256 ^ n := by
      rw [Nat.div_lt_iff_lt_mul (by norm_num), ← pow_succ]
      exact h
    rw [leBytes, leValue, ih hdiv, UInt8.toNat_ofNat']
    exact Nat.mod_add_div x 256

end Ssz
