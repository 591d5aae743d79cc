import LoragonBFT.BitArraySets

/-!
# Questions to a bit array

What one can ask a bit array – whether it is empty or full, how many bits are
set and how many are not, and which bytes it is – is to follow from its bits.
`Count` and `CountYes` are right for every array the package can make. The
others are not.

* `CountNo` counts the bits that are set, as `CountYes` does.
* `IsFull` of an array without words is out of range.
* `IsEmpty` looks at whole words, and `Not` and `Update` set bits past the
  size.
* `Bytes` computes the number of bytes in 32 bits, which overflows for the
  largest sizes, and goes through all words, of which an array of 2³² bits or
  more has more than its size says.

Taken together, all answers agree with the bits exactly for arrays of which
half of the bits are set and whose bytes have room for its words
(`queriesAgree_iff`).
-/

namespace LoragonBFT

namespace BitArray

/-! ## The arrays -/

/-- `BitArray.copy`. -/
def copy (bA : BitArray) : BitArray := ⟨bA.bits, bA.elems⟩

/-- `BitArray.Update`: the words are copied as far as there are some on both
sides. -/
def update (bA o : BitArray) : BitArray :=
  { bA with elems := o.elems.take bA.elems.length ++ bA.elems.drop o.elems.length }

/-- An array the package makes from new ones. -/
inductive Obtained : BitArray → Prop
  | new (bits : ℕ) : Obtained (new bits)
  | setIndex {bA bA' : BitArray} {i : ℕ} {v done : Bool} :
    Obtained bA → bA.setIndex i v = .ok (done, bA') → Obtained bA'
  | copy {bA : BitArray} : Obtained bA → Obtained bA.copy
  | and {bA o c : BitArray} : Obtained bA → Obtained o → bA.and o = .ok c → Obtained c
  | not {bA : BitArray} : Obtained bA → Obtained bA.not
  | update {bA o : BitArray} : Obtained bA → Obtained o → Obtained (bA.update o)

variable {bA o c : BitArray}

/-- The copy a loop went through keeps its size and its number of words. -/
theorem combine_eq_ok {f : UInt64 → UInt64 → UInt64} (h : combine f bA o = .ok c) :
    c.bits = bA.bits ∧ c.elems.length = bA.elems.length := by
  unfold combine at h
  by_cases hlength : bA.elems.length ≤ o.elems.length
  · rw [zipWords_of_le hlength] at h
    rw [← Except.ok.inj h]
    refine ⟨rfl, ?_⟩
    show (List.zipWith f bA.elems o.elems).length = _
    rw [List.length_zipWith, min_eq_left hlength]
  · rw [zipWords_of_lt (not_le.mp hlength)] at h
    exact nomatch h

/-- **The words of every array cover its size.** -/
theorem Obtained.covers (h : bA.Obtained) : bA.size ≤ 64 * bA.elems.length := by
  induction h with
  | new bits => exact size_new_le bits
  | setIndex _ hset ih =>
    obtain ⟨hbits, hlength, -⟩ := words_setIndex hset
    rw [hlength]
    exact (congrArg UInt32.toNat hbits).trans_le ih
  | copy _ ih => exact ih
  | @and bA o c _ _ hand _ _ =>
    obtain ⟨hbits, hlength⟩ := combine_eq_ok hand
    have hmin : min bA.size o.size < 2 ^ 32 := (min_le_left _ _).trans_lt (size_lt bA)
    have hsize : c.size = min bA.size o.size :=
      (congrArg UInt32.toNat hbits).trans (size_copyBits bA hmin)
    rw [hsize, hlength, length_copyBits]
    omega
  | @not bA _ ih =>
    show bA.size ≤ 64 * (bA.elems.map (~~~ ·)).length
    rw [List.length_map]
    exact ih
  | @update bA o _ _ ih _ =>
    show bA.size ≤ 64 * (o.elems.take bA.elems.length ++ bA.elems.drop o.elems.length).length
    rw [List.length_append, List.length_take, List.length_drop]
    omega

/-! ## The questions -/

/-- `BitArray.IsEmpty`. -/
def isEmpty (bA : BitArray) : Bool := bA.elems.all (fun e => !decide (e > 0))

/-- The shift `uint64(1) << k`, which is zero from the width on. -/
def shiftedOne (k : UInt32) : UInt64 := if k < 64 then 1 <<< k.toUInt64 else 0

/-- `BitArray.IsFull`. The slice of all words but the last is out of range if
there is none. -/
def isFull (bA : BitArray) : Except Panic Bool :=
  match bA.elems.getLast? with
  | none => .error .indexOutOfRange
  | some lastElem =>
    if bA.elems.dropLast.any (fun elem => ~~~elem != 0) then .ok false
    else .ok ((lastElem + 1) &&& (shiftedOne ((bA.bits + 63) % 64 + 1) - 1) == 0)

/-- The loop of `CountYes`, which is also that of `CountNo`. -/
def countLoop (bA : BitArray) : Except Panic UInt32 :=
  (List.range bA.size).foldlM (fun n i => do return if ← bA.copy.getIndex i then n + 1 else n) 0

/-- `BitArray.CountYes`. -/
def countYes (bA : BitArray) : Except Panic UInt32 := bA.countLoop

/-- `BitArray.CountNo`. -/
def countNo (bA : BitArray) : Except Panic UInt32 := bA.countLoop

/-- `binary.LittleEndian.PutUint64`. -/
def leBytes (e : UInt64) : Bytes := (List.range 8).map fun k => UInt8.ofNat (e.toNat / 2 ^ (8 * k))

/-- `copy(dst[off:], src)`. -/
def copyAt (dst : Bytes) (off : ℕ) (src : Bytes) : Except Panic Bytes :=
  if dst.length < off then .error .indexOutOfRange
  else .ok (dst.take off ++ src.take (dst.length - off) ++ dst.drop (off + src.length))

/-- `BitArray.Bytes`. -/
def bytes (bA : BitArray) : Except Panic Bytes :=
  let numBytes := (bA.bits + 7) / 8
  bA.elems.zipIdx.foldlM (fun bytes (e, i) => copyAt bytes (i * 8) (leBytes e))
    (List.replicate numBytes.toNat 0)

/-- The number of bits that are set. -/
def yes (bA : BitArray) : ℕ := ((List.range bA.size).filter bA.bit).length

/-- **The answers agree with the bits.** -/
structure QueriesAgree (bA : BitArray) : Prop where
  isEmpty : bA.isEmpty = true ↔ ∀ i < bA.size, bA.bit i = false
  isFull : ∃ full, bA.isFull = .ok full ∧ (full = true ↔ ∀ i < bA.size, bA.bit i = true)
  count : bA.count = .ok bA.yes
  countYes : ∃ n, bA.countYes = .ok n ∧ n.toNat = bA.yes
  countNo : ∃ n, bA.countNo = .ok n ∧ n.toNat = bA.size - bA.yes
  bytes : ∃ bs, bA.bytes = .ok bs
    ∧ ∀ i < bA.size, ∃ b, bs[i / 8]? = some b ∧ b.toNat.testBit (i % 8) = bA.bit i

/-! ## Counting -/

theorem toNat_iterate_add_one {k : ℕ} (hk : k < 2 ^ 32) : ((· + 1)^[k] 0 : UInt32).toNat = k := by
  induction k with
  | zero => rfl
  | succ k ih =>
    rw [Function.iterate_succ_apply', UInt32.toNat_add, ih (by omega)]
    exact Nat.mod_eq_of_lt hk

theorem yes_le (bA : BitArray) : bA.yes ≤ bA.size :=
  List.length_filter_le _ _ |>.trans_eq List.length_range

theorem countLoop_of_covers (hcovers : bA.size ≤ 64 * bA.elems.length) :
    ∃ n, bA.countLoop = .ok n ∧ n.toNat = bA.yes := by
  refine ⟨_, foldlM_getIndex (· + 1) hcovers _ _, toNat_iterate_add_one ?_⟩
  exact (yes_le bA).trans_lt (size_lt bA)

/-- If not all bits are set, one is not. -/
theorem exists_bit_false (h : bA.yes < bA.size) : ∃ i < bA.size, bA.bit i = false := by
  by_contra hall
  push Not at hall
  have hfilter : (List.range bA.size).filter bA.bit = List.range bA.size :=
    List.filter_eq_self.mpr fun i hi => by simpa using hall i (List.mem_range.mp hi)
  unfold yes at h
  rw [hfilter, List.length_range] at h
  exact lt_irrefl _ h

theorem exists_bit_true (h : 0 < bA.yes) : ∃ i < bA.size, bA.bit i = true := by
  obtain ⟨i, hi⟩ := List.exists_mem_of_length_pos h
  obtain ⟨hrange, hbit⟩ := List.mem_filter.mp hi
  exact ⟨i, List.mem_range.mp hrange, hbit⟩

/-! ## Empty and full arrays -/

theorem isEmpty_iff : bA.isEmpty = true ↔ ∀ i, Words.bit bA.elems i = false := by
  rw [← Words.all_zero_iff]
  unfold isEmpty
  rw [List.all_eq_true]
  refine forall₂_congr fun w _ => ?_
  rw [Bool.not_eq_true', decide_eq_false_iff_not, gt_iff_lt, UInt64.not_lt, UInt64.le_zero_iff]

theorem toNat_lowOnes {k : UInt32} (hk : k ≤ 64) :
    (shiftedOne k - 1).toNat = 2 ^ k.toNat - 1 := by
  have hk' : k.toNat ≤ 64 := UInt32.le_iff_toNat_le.mp hk
  have hle : 2 ^ k.toNat ≤ 2 ^ 64 := Nat.pow_le_pow_right (by decide) hk'
  have hpos : 0 < 2 ^ k.toNat := Nat.two_pow_pos _
  unfold shiftedOne
  rw [UInt64.toNat_sub]
  by_cases hlt : k < 64
  · have hlt' : k.toNat < 64 := UInt32.lt_iff_toNat_lt.mp hlt
    have hpow : 2 ^ k.toNat < 2 ^ 64 := Nat.pow_lt_pow_right (by decide) hlt'
    have hone : (1 : UInt64).toNat = 1 := rfl
    rw [if_pos hlt, UInt64.toNat_shiftLeft, UInt32.toNat_toUInt64, Nat.mod_eq_of_lt hlt', hone,
      Nat.shiftLeft_eq, Nat.one_mul, Nat.mod_eq_of_lt hpow]
    omega
  · have hge : 64 ≤ k.toNat := UInt32.le_iff_toNat_le.mp (UInt32.not_lt.mp hlt)
    have heq : k.toNat = 64 := le_antisymm hk' hge
    rw [if_neg hlt, heq]
    rfl

/-- **A word that ends in ones.** -/
theorem testBit_of_lowOnes {w : UInt64} {k : UInt32} (hk : k ≤ 64)
    (h : (w + 1) &&& (shiftedOne k - 1) = 0) {t : ℕ} (ht : t < k.toNat) :
    w.toNat.testBit t = true := by
  have hmod : (w.toNat + 1) % 2 ^ k.toNat = 0 := by
    have hnat := congrArg UInt64.toNat h
    rw [UInt64.toNat_and, toNat_lowOnes hk, Nat.and_two_pow_sub_one_eq_mod,
      UInt64.toNat_add] at hnat
    rw [← Nat.mod_mod_of_dvd _ (pow_dvd_pow 2 (UInt32.le_iff_toNat_le.mp hk))]
    exact hnat
  obtain ⟨q, hq⟩ := Nat.dvd_of_mod_eq_zero hmod
  have hpos : 0 < 2 ^ k.toNat := Nat.two_pow_pos _
  obtain ⟨q, rfl⟩ : ∃ q', q = q' + 1 := Nat.exists_eq_succ_of_ne_zero (by rintro rfl; omega)
  have hw : w.toNat = 2 ^ k.toNat * q + (2 ^ k.toNat - 1) := by
    rw [Nat.mul_succ] at hq
    omega
  rw [hw, Nat.testBit_two_pow_mul_add _ (by omega), if_pos ht, Nat.testBit_two_pow_sub_one,
    decide_eq_true ht]

/-- **An array with a bit that is not set is not full**, whatever is past its
size. -/
theorem isFull_of_bit_false (hcovers : bA.size ≤ 64 * bA.elems.length) {i : ℕ} (hi : i < bA.size)
    (hbit : bA.bit i = false) : bA.isFull = .ok false := by
  rw [bit_eq, decide_eq_true hi, Bool.true_and] at hbit
  obtain ⟨init, last, helems⟩ : ∃ init last, bA.elems = init ++ [last] := by
    rcases List.eq_nil_or_concat bA.elems with hnil | ⟨init, last, h⟩
    · rw [hnil] at hcovers
      exact absurd hi (by simp at hcovers; omega)
    · exact ⟨init, last, by rw [h, List.concat_eq_append]⟩
  unfold isFull
  rw [helems] at hcovers hbit ⊢
  rw [List.length_append, List.length_singleton] at hcovers
  rw [List.getLast?_concat, List.dropLast_concat]
  show (if _ then _ else _) = _
  split
  · rfl
  rename_i hinit
  -- The word of the bit is the last one: the words before it have all their bits.
  have hword : i / 64 = init.length := by
    by_contra hne
    have hlt : i / 64 < init.length := by omega
    refine hinit (List.any_eq_true.mpr ⟨init[i / 64], List.getElem_mem hlt, bne_iff_ne.mpr ?_⟩)
    intro hzero
    have hset := Words.eq_zero_iff.mp hzero (i % 64) (Nat.mod_lt _ (by decide))
    rw [Words.testBit_not (Nat.mod_lt _ (by decide)), Bool.not_eq_false'] at hset
    rw [Words.bit_of_getElem? (w := init[i / 64])
      (by rw [List.getElem?_append_left hlt, List.getElem?_eq_getElem hlt]), hset] at hbit
    exact nomatch hbit
  rw [Words.bit_of_getElem? (w := last) (by rw [hword]; exact List.getElem?_concat_length)] at hbit
  refine congrArg _ (beq_eq_false_iff_ne.mpr fun hones => ?_)
  have hbits : ((bA.bits + 63) % 64 + 1).toNat = (bA.size + 63) % 64 + 1 := by
    have h64 : (64 : UInt32).toNat = 64 := rfl
    have h63 : (63 : UInt32).toNat = 63 := rfl
    have h1 : (1 : UInt32).toNat = 1 := rfl
    rw [UInt32.toNat_add, UInt32.toNat_mod, UInt32.toNat_add, h64, h63, h1]
    show ((bA.size + 63) % 2 ^ 32 % 64 + 1) % 2 ^ 32 = _
    omega
  have hle : (bA.bits + 63) % 64 + 1 ≤ 64 := by
    rw [UInt32.le_iff_toNat_le, hbits]
    exact Nat.mod_lt _ (by decide)
  have hset := testBit_of_lowOnes (t := i % 64) hle hones (by rw [hbits]; omega)
  exact Bool.false_ne_true (hbit.symm.trans hset)

/-! ## The bytes -/

/-- A copy writes the bytes it has room for. -/
theorem getElem?_copyAt {dst src bs : Bytes} {off : ℕ} (h : copyAt dst off src = .ok bs) :
    bs.length = dst.length ∧ ∀ j < dst.length, bs[j]?
      = if off ≤ j ∧ j < off + src.length then src[j - off]? else dst[j]? := by
  unfold copyAt at h
  split at h
  · exact nomatch h
  rename_i hoff
  obtain rfl := Except.ok.inj h
  have htake : (dst.take off).length = off := by
    rw [List.length_take]
    omega
  refine ⟨?_, fun j hj => ?_⟩
  · simp only [List.length_append, List.length_take, List.length_drop]
    omega
  · by_cases hbefore : j < off
    · rw [if_neg (by omega), List.append_assoc, List.getElem?_append_left (by omega),
        List.getElem?_take_of_lt hbefore]
    · by_cases hin : j < off + src.length
      · rw [if_pos ⟨not_lt.mp hbefore, hin⟩, List.getElem?_append_left
            (by rw [List.length_append, htake, List.length_take]; omega),
          List.getElem?_append_right (by omega), htake, List.getElem?_take_of_lt (by omega)]
      · have hlen : (dst.take off ++ src.take (dst.length - off)).length = off + src.length := by
          rw [List.length_append, htake, List.length_take]
          omega
        rw [if_neg (by omega), List.getElem?_append_right (by omega), hlen, List.getElem?_drop,
          Nat.add_sub_cancel' (not_lt.mp hin)]

theorem length_leBytes (e : UInt64) : (leBytes e).length = 8 := by
  unfold leBytes
  rw [List.length_map, List.length_range]

/-- **The loop of `Bytes`** writes the bytes of one word after the other. -/
theorem foldlM_copyAt (ws : List UInt64) (s : ℕ) (acc : Bytes)
    (hroom : ws = [] ∨ 8 * (s + ws.length - 1) ≤ acc.length) :
    ∃ bs, (ws.zipIdx s).foldlM (fun bytes (e, i) => copyAt bytes (i * 8) (leBytes e)) acc = .ok bs
      ∧ bs.length = acc.length
      ∧ ∀ j < acc.length, bs[j]? = if 8 * s ≤ j ∧ j < 8 * (s + ws.length)
          then (ws[j / 8 - s]?).bind (fun e => (leBytes e)[j % 8]?) else acc[j]? := by
  induction ws generalizing s acc with
  | nil => exact ⟨acc, rfl, rfl, fun j _ => (if_neg (by rw [List.length_nil]; omega)).symm⟩
  | cons w ws ih =>
    have hs : 8 * s ≤ acc.length := by
      have hle := hroom.resolve_left (List.cons_ne_nil _ _)
      rw [List.length_cons] at hle
      omega
    obtain ⟨acc', hcopy⟩ : ∃ acc', copyAt acc (s * 8) (leBytes w) = .ok acc' := by
      unfold copyAt
      rw [if_neg (by omega)]
      exact ⟨_, rfl⟩
    obtain ⟨hlength, hget⟩ := getElem?_copyAt hcopy
    have hroom' : ws = [] ∨ 8 * (s + 1 + ws.length - 1) ≤ acc'.length := by
      rcases hroom with hnil | hle
      · exact nomatch hnil
      · rw [List.length_cons] at hle
        exact .inr (by omega)
    obtain ⟨bs, hloop, hlength', hget'⟩ := ih (s + 1) acc' hroom'
    refine ⟨bs, ?_, hlength'.trans hlength, fun j hj => ?_⟩
    · rw [List.zipIdx_cons, List.foldlM_cons]
      show (copyAt acc (s * 8) (leBytes w) >>= _) = _
      rw [hcopy]
      exact hloop
    · rw [hget' j (by omega), hget j hj, length_leBytes, List.length_cons]
      by_cases hlater : 8 * (s + 1) ≤ j ∧ j < 8 * (s + 1 + ws.length)
      · rw [if_pos hlater, if_pos (by omega), show j / 8 - s = (j / 8 - (s + 1)) + 1 by omega,
          List.getElem?_cons_succ]
      · rw [if_neg hlater]
        by_cases hnow : s * 8 ≤ j ∧ j < s * 8 + 8
        · rw [if_pos hnow, if_pos (by omega), show j / 8 - s = 0 by omega,
            List.getElem?_cons_zero, Option.bind_some, show j - s * 8 = j % 8 by omega]
        · rw [if_neg hnow, if_neg (by omega)]

/-- **It faults where there is no room for the last word.** -/
theorem foldlM_copyAt_error (ws : List UInt64) (s : ℕ) (acc : Bytes)
    (hroom : acc.length < 8 * (s + ws.length - 1)) (hws : ws ≠ []) :
    (ws.zipIdx s).foldlM (fun bytes (e, i) => copyAt bytes (i * 8) (leBytes e)) acc
      = .error .indexOutOfRange := by
  induction ws generalizing s acc with
  | nil => exact absurd rfl hws
  | cons w ws ih =>
    rw [List.length_cons] at hroom
    rw [List.zipIdx_cons, List.foldlM_cons]
    show (copyAt acc (s * 8) (leBytes w) >>= _) = _
    cases hcopy : copyAt acc (s * 8) (leBytes w) with
    | error fault =>
      unfold copyAt at hcopy
      split at hcopy
      · exact hcopy.symm ▸ rfl
      · exact nomatch hcopy
    | ok acc' =>
      have hle : s * 8 ≤ acc.length := by
        unfold copyAt at hcopy
        split at hcopy
        · exact nomatch hcopy
        · exact not_lt.mp ‹_›
      have hlength := (getElem?_copyAt hcopy).1
      have hnil : ws ≠ [] := by
        rintro rfl
        rw [List.length_nil] at hroom
        omega
      exact ih (s + 1) acc' (by omega) hnil

theorem toNat_numBytes (bA : BitArray) :
    ((bA.bits + 7) / 8).toNat = (bA.size + 7) % 2 ^ 32 / 8 := by
  rw [UInt32.toNat_div, UInt32.toNat_add]
  rfl

/-- **`Bytes` returns the bits if there is room for all words.** -/
theorem bytes_of_room (hcovers : bA.size ≤ 64 * bA.elems.length)
    (hroom : 8 * (bA.elems.length - 1) ≤ (bA.size + 7) % 2 ^ 32 / 8) :
    ∃ bs, bA.bytes = .ok bs
      ∧ ∀ i < bA.size, ∃ b, bs[i / 8]? = some b ∧ b.toNat.testBit (i % 8) = bA.bit i := by
  have hlength : (List.replicate ((bA.bits + 7) / 8).toNat (0 : UInt8)).length
      = (bA.size + 7) % 2 ^ 32 / 8 := by
    rw [List.length_replicate, toNat_numBytes]
  obtain ⟨bs, hbs, -, hget⟩ := foldlM_copyAt bA.elems 0 (List.replicate ((bA.bits + 7) / 8).toNat 0)
    (.inr (by rw [hlength, Nat.zero_add]; exact hroom))
  refine ⟨bs, hbs, fun i hi => ?_⟩
  have hsize := size_lt bA
  have hword : i / 64 < bA.elems.length := by omega
  have hbyte := hget (i / 8) (by rw [hlength]; omega)
  rw [if_pos (by omega), show i / 8 / 8 - 0 = i / 64 by omega, List.getElem?_eq_getElem hword,
    Option.bind_some] at hbyte
  unfold leBytes at hbyte
  rw [List.getElem?_map, List.getElem?_range (Nat.mod_lt _ (by decide)), Option.map_some] at hbyte
  refine ⟨_, hbyte, ?_⟩
  rw [UInt8.toNat_ofNat', Nat.testBit_mod_two_pow, decide_eq_true (Nat.mod_lt _ (by decide)),
    Bool.true_and, Nat.testBit_div_two_pow, bit_eq, decide_eq_true hi, Bool.true_and,
    Words.bit_eq_getElem hword, show i % 8 + 8 * (i / 8 % 8) = i % 64 by omega]

/-- **It faults if there is not.** -/
theorem bytes_of_lt (hroom : (bA.size + 7) % 2 ^ 32 / 8 < 8 * (bA.elems.length - 1)) :
    bA.bytes = .error .indexOutOfRange := by
  refine foldlM_copyAt_error _ _ _ ?_ (by rintro hnil; rw [hnil] at hroom; exact nomatch hroom)
  rw [List.length_replicate, toNat_numBytes, Nat.zero_add]
  exact hroom

/-! ## All the questions -/

/-- An array of size zero is full, and `IsFull` does not say so. -/
theorem not_queriesAgree_of_size_zero (hsize : bA.size = 0) : ¬ bA.QueriesAgree := by
  intro h
  have hbits : bA.bits = 0 := UInt32.toNat_inj.mp hsize
  have hnone : ∀ (P : ℕ → Prop), ∀ i < bA.size, P i := fun P i hi =>
    absurd hi (by rw [hsize]; exact Nat.not_lt_zero i)
  have hzero := Words.all_zero_iff.mpr (isEmpty_iff.mp (h.isEmpty.mpr (hnone _)))
  obtain ⟨full, hfull, hiff⟩ := h.isFull
  rw [hiff.mpr (hnone _)] at hfull
  unfold isFull at hfull
  split at hfull
  · exact nomatch hfull
  rename_i last hlast
  split at hfull
  · exact nomatch hfull
  rw [hbits, hzero last (List.mem_of_getLast? hlast)] at hfull
  exact absurd hfull (by decide)

/-- **All answers agree with the bits exactly if the array has bits, half of
them are set, and there is room for the words in its bytes.** -/
theorem queriesAgree_iff (h : bA.Obtained) :
    bA.QueriesAgree ↔ 0 < bA.size ∧ 2 * ((List.range bA.size).filter bA.bit).length = bA.size
      ∧ 8 * (bA.elems.length - 1) ≤ (bA.size + 7) % 2 ^ 32 / 8 := by
  have hcovers := h.covers
  have hle := yes_le bA
  obtain ⟨n, hloop, hn⟩ := countLoop_of_covers hcovers
  show _ ↔ _ ∧ 2 * bA.yes = bA.size ∧ _
  constructor
  · intro hagree
    refine ⟨Nat.pos_of_ne_zero fun hsize => not_queriesAgree_of_size_zero hsize hagree, ?_, ?_⟩
    · -- `CountNo` returns what `CountYes` does.
      obtain ⟨no, hno, hcount⟩ := hagree.countNo
      obtain rfl := Except.ok.inj (hloop.symm.trans hno)
      omega
    · by_contra hroom
      obtain ⟨bs, hbs, -⟩ := hagree.bytes
      rw [bytes_of_lt (not_le.mp hroom)] at hbs
      exact nomatch hbs
  · rintro ⟨hpos, hhalf, hroom⟩
    obtain ⟨i, hi, hset⟩ := exists_bit_true (by omega : 0 < bA.yes)
    obtain ⟨j, hj, hunset⟩ := exists_bit_false (by omega : bA.yes < bA.size)
    refine ⟨?_, ⟨false, isFull_of_bit_false hcovers hj hunset, ?_⟩, count_eq_ok hcovers,
      ⟨n, hloop, hn⟩, ⟨n, hloop, by omega⟩, bytes_of_room hcovers hroom⟩
    · refine iff_of_false (fun hempty => ?_) fun hall => ?_
      · rw [bit_eq, isEmpty_iff.mp hempty i, Bool.and_false] at hset
        exact nomatch hset
      · exact Bool.false_ne_true ((hall i hi).symm.trans hset)
    · refine iff_of_false Bool.false_ne_true fun hall => ?_
      exact Bool.false_ne_true (hunset.symm.trans (hall j hj))

/-- Of two bits one is set. -/
theorem one_of_two_queriesAgree : QueriesAgree ⟨2, [1]⟩ :=
  (queriesAgree_iff (.setIndex (i := 0) (v := true) (.new 2) rfl)).mpr (by decide)

/-- **A new array**: none of its three bits is set, and `CountNo` is zero. -/
theorem new_not_queriesAgree : (new 3).countNo = .ok 0 ∧ ¬ (new 3).QueriesAgree := by
  have hno : (new 3).countNo = .ok 0 := by decide
  refine ⟨hno, fun h => ?_⟩
  obtain ⟨n, hn, hcount⟩ := h.countNo
  obtain rfl := Except.ok.inj (hno.symm.trans hn)
  exact absurd hcount (by decide)

end BitArray

end LoragonBFT
