import LoragonBFT.BitArray

/-!
# Bit arrays as sets

A bit array of votes is a set of voters, and `Or`, `And`, `Sub` and `Not` are
to be union, intersection, difference and complement, for arrays of any two
sizes. `And` and `Not` are. `Or` goes through the words of its result and
reads the other array at each of them, also where that has none. `Sub` of an
array by a shorter one clears all words of the other but the last: it computes
`c &^ c` where it should be `c &^ o`.

So all four are right exactly if the second array is not the shorter one, or
has as many words as the first and contains it on all words but its last
(`setOperations_iff`).

An array is made by `NewBitArray` and changed by `SetIndex`. A size of 2³² and
more is cut to 32 bits, but not the number of words, so an array can have more
words than its size asks for.
-/

namespace LoragonBFT

namespace BitArray

/-! ## The operations -/

/-- `BitArray.copyBits`. -/
def copyBits (bA : BitArray) (bits : ℕ) : BitArray :=
  ⟨UInt32.ofNat bits,
    (bA.elems ++ List.replicate ((bits + 63) / 64) 0).take ((bits + 63) / 64)⟩

/-- A loop that combines the words of an array with those of another. -/
def zipWords (f : UInt64 → UInt64 → UInt64) :
    List UInt64 → List UInt64 → Except Panic (List UInt64)
  | [], _ => .ok []
  | _ :: _, [] => .error .indexOutOfRange
  | w :: ws, v :: vs => do return f w v :: (← zipWords f ws vs)

/-- An array after such a loop. -/
def combine (f : UInt64 → UInt64 → UInt64) (c o : BitArray) : Except Panic BitArray :=
  (zipWords f c.elems o.elems).map fun elems => { c with elems }

/-- `BitArray.Or`. -/
def or (bA o : BitArray) : Except Panic BitArray :=
  combine (· ||| ·) (bA.copyBits (max bA.size o.size)) o

/-- `BitArray.and`. -/
def and (bA o : BitArray) : Except Panic BitArray :=
  combine (· &&& ·) (bA.copyBits (min bA.size o.size)) o

/-- `BitArray.not`. -/
def not (bA : BitArray) : BitArray := { bA with elems := bA.elems.map (~~~ ·) }

/-- The first loop of `Sub`: the words of the array itself are masked with
their own complement. -/
def clearWords : ℕ → List UInt64 → Except Panic (List UInt64)
  | 0, ws => .ok ws
  | _ + 1, [] => .error .indexOutOfRange
  | n + 1, w :: ws => do return (w &&& ~~~w) :: (← clearWords n ws)

/-- A round of the second loop of `Sub`. -/
def subOne (o c : BitArray) (idx : ℕ) : Except Panic BitArray := do
  let v ← if ← c.getIndex idx then (o.getIndex idx).map (!·) else .ok false
  return (← c.setIndex idx v).2

/-- `BitArray.Sub`. -/
def sub (bA o : BitArray) : Except Panic BitArray :=
  if o.bits < bA.bits then do
    let c := { bA with elems := ← clearWords (o.elems.length - 1) bA.elems }
    if 0 < o.elems.length then
      let i := o.elems.length - 1
      (List.range' (i * 64) (o.size - i * 64)).foldlM (subOne o) c
    else return c
  else bA.and o.not

/-! ## The arrays -/

/-- An array that was made by `NewBitArray` and changed by `SetIndex`. -/
inductive Made : BitArray → Prop
  | new (bits : ℕ) : Made (new bits)
  | setIndex {bA bA' : BitArray} {i : ℕ} {v done : Bool} :
    Made bA → bA.setIndex i v = .ok (done, bA') → Made bA'

/-- The words cover the size, and have no bit past it. -/
structure Tidy (bA : BitArray) : Prop where
  covers : bA.size ≤ 64 * bA.elems.length
  clean : ∀ i, bA.size ≤ i → Words.bit bA.elems i = false

theorem Tidy.bit_eq {bA : BitArray} (h : bA.Tidy) (i : ℕ) : bA.bit i = Words.bit bA.elems i := by
  rw [BitArray.bit_eq]
  by_cases hi : i < bA.size
  · rw [decide_eq_true hi, Bool.true_and]
  · rw [decide_eq_false hi, h.clean i (not_lt.mp hi)]
    rfl

theorem size_new_le (bits : ℕ) : (new bits).size ≤ 64 * (new bits).elems.length := by
  have hmod : (UInt32.ofNat bits).toNat ≤ bits := by
    rw [UInt32.toNat_ofNat']
    exact Nat.mod_le _ _
  show (UInt32.ofNat bits).toNat ≤ 64 * (List.replicate ((bits + 63) / 64) (0 : UInt64)).length
  rw [List.length_replicate]
  omega

/-- **No other array is made.** -/
theorem Made.tidy {bA : BitArray} (h : bA.Made) : bA.Tidy := by
  induction h with
  | new bits => exact ⟨size_new_le bits, fun i _ => Words.bit_replicate_zero _ _⟩
  | @setIndex bA bA' i v done _ hset ih =>
    obtain ⟨hbits, hlength, hwords⟩ := words_setIndex hset
    have hsize : bA'.size = bA.size := congrArg UInt32.toNat hbits
    refine ⟨by rw [hsize, hlength]; exact ih.covers, fun j hj => ?_⟩
    rw [hsize] at hj
    rw [hwords, if_neg (by omega), ih.clean j hj]

/-! ## Word by word -/

section Words

variable {f : UInt64 → UInt64 → UInt64} {ws vs : List UInt64} {bA o a b c : BitArray}

theorem zipWords_of_le (h : ws.length ≤ vs.length) :
    zipWords f ws vs = .ok (List.zipWith f ws vs) := by
  induction ws generalizing vs with
  | nil => rfl
  | cons w ws ih =>
    cases vs with
    | nil => exact nomatch h
    | cons v vs =>
      unfold zipWords
      rw [ih (Nat.le_of_succ_le_succ h)]
      rfl

theorem zipWords_of_lt (h : vs.length < ws.length) :
    zipWords f ws vs = .error .indexOutOfRange := by
  induction ws generalizing vs with
  | nil => exact nomatch h
  | cons w ws ih =>
    cases vs with
    | nil => rfl
    | cons v vs =>
      unfold zipWords
      rw [ih (Nat.lt_of_succ_lt_succ h)]
      rfl

theorem length_copyBits (bA : BitArray) (bits : ℕ) :
    (bA.copyBits bits).elems.length = (bits + 63) / 64 := by
  unfold copyBits
  rw [List.length_take, List.length_append, List.length_replicate]
  omega

theorem bit_copyBits {bits i : ℕ} (hi : i < bits) :
    Words.bit (bA.copyBits bits).elems i = Words.bit bA.elems i := by
  unfold copyBits
  rw [Words.bit_take, decide_eq_true (by omega), Bool.true_and, Words.bit_append_replicate]

theorem size_copyBits (bA : BitArray) {bits : ℕ} (h : bits < 2 ^ 32) :
    (bA.copyBits bits).size = bits := by
  show (UInt32.ofNat bits).toNat = bits
  rw [UInt32.toNat_ofNat', Nat.mod_eq_of_lt h]

theorem size_lt (bA : BitArray) : bA.size < 2 ^ 32 := bA.bits.toNat_lt

/-- What an array is, as far as it can be read: a size, and the bits below
it. -/
structure Reads (c : BitArray) (n : ℕ) (val : ℕ → Bool) : Prop where
  size : c.size = n
  get : ∀ i < n, c.getIndex i = .ok (val i)

variable {n : ℕ}

theorem reads_of_words {val : ℕ → Bool} (hsize : c.size = n) (hcovers : n ≤ 64 * c.elems.length)
    (hbits : ∀ i < n, Words.bit c.elems i = val i) :
    c.Reads n val where
  size := hsize
  get i hi := by
    rw [getIndex_eq_ok (by rw [hsize]; exact hcovers), BitArray.bit_eq, hsize, hbits i hi,
      decide_eq_true hi, Bool.true_and]

/-- **A loop over the words of a copy** is an operation on the bits, if the
other array has as many words. -/
theorem reads_combine {g : Bool → Bool → Bool} (bA o : BitArray) (hn : n < 2 ^ 32)
    (hf : ∀ w v k, (f w v).toNat.testBit k = g (w.toNat.testBit k) (v.toNat.testBit k))
    (hlength : (n + 63) / 64 ≤ o.elems.length) :
    ∃ c, combine f (bA.copyBits n) o = .ok c
      ∧ c.Reads n fun i => g (Words.bit bA.elems i) (Words.bit o.elems i) := by
  have hcopy := length_copyBits bA n
  refine ⟨{ bA.copyBits n with elems := List.zipWith f (bA.copyBits n).elems o.elems }, ?_,
    reads_of_words (size_copyBits bA hn) ?_ fun i hi => ?_⟩
  · unfold combine
    rw [zipWords_of_le (by rw [hcopy]; exact hlength)]
    rfl
  · show n ≤ 64 * (List.zipWith f (bA.copyBits n).elems o.elems).length
    rw [List.length_zipWith, hcopy]
    omega
  · show Words.bit (List.zipWith f (bA.copyBits n).elems o.elems) i = _
    rw [Words.bit_zipWith hf (by rw [hcopy]; omega) (by omega), bit_copyBits hi]

/-- **`And` is the intersection.** -/
theorem reads_and (ha : a.Tidy) (hb : b.Tidy) :
    ∃ c, a.and b = .ok c ∧ c.Reads (min a.size b.size) fun i => a.bit i && b.bit i := by
  have hmin : min a.size b.size < 2 ^ 32 := (min_le_left _ _).trans_lt (size_lt a)
  have hcovers := hb.covers
  have hand : ∀ (w v : UInt64) (k : ℕ),
      (w &&& v).toNat.testBit k = (w.toNat.testBit k && v.toNat.testBit k) := fun w v k => by
    rw [UInt64.toNat_and, Nat.testBit_and]
  obtain ⟨c, hc, hreads⟩ := reads_combine a b hmin hand (by omega)
  refine ⟨c, hc, hreads.size, fun i hi => ?_⟩
  rw [hreads.get i hi, ha.bit_eq, hb.bit_eq]

/-- **`Or` is the union, if the other array has all the words.** -/
theorem reads_or (ha : a.Tidy) (hb : b.Tidy)
    (hlength : (max a.size b.size + 63) / 64 ≤ b.elems.length) :
    ∃ c, a.or b = .ok c ∧ c.Reads (max a.size b.size) fun i => a.bit i || b.bit i := by
  have hmax : max a.size b.size < 2 ^ 32 := max_lt (size_lt a) (size_lt b)
  have hor : ∀ (w v : UInt64) (k : ℕ),
      (w ||| v).toNat.testBit k = (w.toNat.testBit k || v.toNat.testBit k) := fun w v k => by
    rw [UInt64.toNat_or, Nat.testBit_or]
  obtain ⟨c, hc, hreads⟩ := reads_combine a b hmax hor hlength
  refine ⟨c, hc, hreads.size, fun i hi => ?_⟩
  rw [hreads.get i hi, ha.bit_eq, hb.bit_eq]

/-- **Else it faults.** -/
theorem or_of_lt (hlength : b.elems.length < (max a.size b.size + 63) / 64) :
    a.or b = .error .indexOutOfRange := by
  unfold or combine
  rw [zipWords_of_lt (by rw [length_copyBits]; exact hlength)]
  rfl

/-- **`Not` is the complement.** -/
theorem bit_not_words {i : ℕ} (hi : i / 64 < bA.elems.length) :
    Words.bit bA.not.elems i = !Words.bit bA.elems i :=
  Words.bit_map (fun _ _ hk => Words.testBit_not hk) hi

theorem reads_not (ha : a.Tidy) : a.not.Reads a.size fun i => !a.bit i := by
  have hcovers := ha.covers
  refine reads_of_words rfl ?_ fun i hi => ?_
  · show a.size ≤ 64 * (a.elems.map (~~~ ·)).length
    rw [List.length_map]
    exact hcovers
  · rw [bit_not_words (by omega), ha.bit_eq]

/-! ## Subtraction -/

theorem clearWords_of_le (h : n ≤ ws.length) :
    clearWords n ws = .ok (List.replicate n 0 ++ ws.drop n) := by
  induction n generalizing ws with
  | zero => rfl
  | succ n ih =>
    cases ws with
    | nil => exact nomatch h
    | cons w ws =>
      unfold clearWords
      rw [ih (Nat.le_of_succ_le_succ h), Words.and_not_self]
      rfl

theorem clearWords_of_lt (h : ws.length < n) :
    clearWords n ws = .error .indexOutOfRange := by
  induction n generalizing ws with
  | zero => exact nomatch h
  | succ n ih =>
    cases ws with
    | nil => rfl
    | cons w ws =>
      unfold clearWords
      rw [ih (Nat.lt_of_succ_lt_succ h)]
      rfl

/-- **A round of the second loop** takes the bit out if the other array has
it. -/
theorem subOne_spec (ho : o.size ≤ 64 * o.elems.length) (hcovers : c.size ≤ 64 * c.elems.length)
    {idx : ℕ} (hidx : idx < c.size) :
    ∃ c', subOne o c idx = .ok c' ∧ c'.bits = c.bits ∧ c'.elems.length = c.elems.length
      ∧ ∀ j, Words.bit c'.elems j
        = if j = idx then Words.bit c.elems j && !o.bit j else Words.bit c.elems j := by
  obtain ⟨⟨done, c'⟩, hset⟩ := exists_setIndex hcovers idx (c.bit idx && !o.bit idx)
  obtain ⟨hbits, hlength, hwords⟩ := words_setIndex hset
  refine ⟨c', ?_, hbits, hlength, fun j => ?_⟩
  · unfold subOne
    rw [getIndex_eq_ok hcovers, getIndex_eq_ok ho]
    cases hbit : c.bit idx <;> rw [hbit] at hset
    · exact congrArg (Except.map Prod.snd) hset
    · exact congrArg (Except.map Prod.snd) hset
  · rw [hwords]
    by_cases hj : j = idx
    · rw [if_pos ⟨hidx, hj⟩, if_pos hj, hj, BitArray.bit_eq c, decide_eq_true hidx, Bool.true_and]
    · rw [if_neg fun h => hj h.2, if_neg hj]

/-- **The second loop** takes out the bits at its indices. -/
theorem foldlM_subOne (ho : o.size ≤ 64 * o.elems.length) (idxs : List ℕ)
    (hcovers : c.size ≤ 64 * c.elems.length) (hidxs : ∀ idx ∈ idxs, idx < c.size) :
    ∃ c', idxs.foldlM (subOne o) c = .ok c' ∧ c'.bits = c.bits
      ∧ c'.elems.length = c.elems.length
      ∧ ∀ j, Words.bit c'.elems j
        = if j ∈ idxs then Words.bit c.elems j && !o.bit j else Words.bit c.elems j := by
  induction idxs generalizing c with
  | nil => exact ⟨c, rfl, rfl, rfl, fun j => (if_neg List.not_mem_nil).symm⟩
  | cons idx idxs ih =>
    obtain ⟨c₁, hone, hbits₁, hlength₁, hwords₁⟩ :=
      subOne_spec ho hcovers (hidxs idx List.mem_cons_self)
    have hsize₁ : c₁.size = c.size := congrArg UInt32.toNat hbits₁
    rw [← hsize₁] at hidxs
    rw [← hsize₁, ← hlength₁] at hcovers
    obtain ⟨c', hrest, hbits, hlength, hwords⟩ := ih hcovers
      fun idx' hidx' => hidxs idx' (List.mem_cons_of_mem _ hidx')
    refine ⟨c', ?_, hbits.trans hbits₁, hlength.trans hlength₁, fun j => ?_⟩
    · rw [List.foldlM_cons, hone]
      exact hrest
    · rw [hwords, hwords₁]
      by_cases hj : j = idx
      · have hmem : j ∈ idx :: idxs := hj ▸ List.mem_cons_self
        rw [if_pos hj, if_pos hmem]
        split
        · rw [Bool.and_assoc, Bool.and_self]
        · rfl
      · rw [if_neg hj]
        have hiff : j ∈ idxs ↔ j ∈ idx :: idxs :=
          ⟨List.mem_cons_of_mem _, fun h => (List.mem_cons.mp h).resolve_left hj⟩
        exact if_congr hiff rfl rfl

/-- **`Sub` by an array that is not shorter is the difference.** -/
theorem reads_sub_of_le (ha : a.Tidy) (hb : b.Tidy) (h : a.size ≤ b.size) :
    ∃ c, a.sub b = .ok c ∧ c.Reads a.size fun i => a.bit i && !b.bit i := by
  have hcovers := hb.covers
  have hnot : b.not.elems.length = b.elems.length := List.length_map _
  have hand : ∀ (w v : UInt64) (k : ℕ),
      (w &&& v).toNat.testBit k = (w.toNat.testBit k && v.toNat.testBit k) := fun w v k => by
    rw [UInt64.toNat_and, Nat.testBit_and]
  obtain ⟨c, hc, hreads⟩ := reads_combine a b.not (size_lt a) hand (by omega)
  refine ⟨c, ?_, hreads.size, fun i hi => ?_⟩
  · have hmin : min a.size b.not.size = a.size := min_eq_left h
    unfold sub and
    rw [if_neg (UInt32.not_lt.mpr (UInt32.le_iff_toNat_le.mpr h)), hmin]
    exact hc
  · rw [hreads.get i hi, bit_not_words (by omega), ha.bit_eq, hb.bit_eq]

/-- The words after the first loop. -/
theorem bit_cleared {i : ℕ} :
    Words.bit (List.replicate n 0 ++ ws.drop n) i = (decide (64 * n ≤ i) && Words.bit ws i) := by
  have hlength : (List.replicate n (0 : UInt64)).length = n := List.length_replicate
  have happend := Words.bit_append_drop (List.replicate n 0) ws i
  rw [hlength] at happend
  rw [happend]
  by_cases hi : i < 64 * n
  · rw [if_pos hi, decide_eq_false (by omega), Words.bit_replicate_zero]
    rfl
  · rw [if_neg hi, decide_eq_true (by omega), Bool.true_and]

/-- The words after both loops. -/
theorem exists_sub_of_lt (hb : b.Tidy) (ha : a.size ≤ 64 * a.elems.length) (h : b.size < a.size)
    (hlength : b.elems.length ≤ a.elems.length + 1) :
    ∃ c, a.sub b = .ok c ∧ c.bits = a.bits ∧ c.elems.length = a.elems.length
      ∧ ∀ i, Words.bit c.elems i
        = (decide (64 * (b.elems.length - 1) ≤ i) && (Words.bit a.elems i && !b.bit i)) := by
  unfold sub
  rw [if_pos (UInt32.lt_iff_toNat_lt.mpr h), clearWords_of_le (by omega)]
  have hlength' : (List.replicate (b.elems.length - 1) 0
      ++ a.elems.drop (b.elems.length - 1)).length = a.elems.length := by
    rw [List.length_append, List.length_replicate, List.length_drop]
    omega
  have hcovers := hb.covers
  by_cases hempty : 0 < b.elems.length
  · obtain ⟨c, hloop, hbits, hwords, hbit⟩ := foldlM_subOne
      (c := { a with elems := List.replicate (b.elems.length - 1) 0
        ++ a.elems.drop (b.elems.length - 1) })
      hcovers (List.range' ((b.elems.length - 1) * 64) (b.size - (b.elems.length - 1) * 64))
      (by rw [hlength']; exact ha)
      (fun idx hidx =>
        lt_of_lt_of_le (by rw [List.mem_range'_1] at hidx; omega : idx < b.size) h.le)
    refine ⟨c, ?_, hbits, hwords.trans hlength', fun i => ?_⟩
    · show (if 0 < b.elems.length then _ else _ : Except Panic BitArray) = _
      rw [if_pos hempty]
      exact hloop
    · rw [hbit, bit_cleared]
      by_cases hi : i ∈ List.range' ((b.elems.length - 1) * 64)
          (b.size - (b.elems.length - 1) * 64)
      · rw [if_pos hi, Bool.and_assoc]
      · rw [if_neg hi]
        rw [List.mem_range'_1] at hi
        by_cases hword : 64 * (b.elems.length - 1) ≤ i
        · rw [bit_of_size_le (by omega : b.size ≤ i), Bool.not_false, Bool.and_true]
        · rw [decide_eq_false hword]
          rfl
  · refine ⟨{ a with elems := List.replicate (b.elems.length - 1) 0
      ++ a.elems.drop (b.elems.length - 1) }, if_neg hempty, rfl, hlength', fun i => ?_⟩
    rw [bit_of_size_le (by omega : b.size ≤ i), Bool.not_false, Bool.and_true]
    exact bit_cleared

/-- **`Sub` by a shorter array**: the words of the other array but its last
are cleared, and only on the last it is a difference. -/
theorem sub_of_lt (ha : a.Tidy) (hb : b.Tidy) (h : b.size < a.size)
    (hlength : b.elems.length ≤ a.elems.length + 1) :
    ∃ c, a.sub b = .ok c ∧ c.Reads a.size fun i =>
      decide (64 * (b.elems.length - 1) ≤ i) && (a.bit i && !b.bit i) := by
  obtain ⟨c, hc, hbits, hwords, hbit⟩ := exists_sub_of_lt hb ha.covers h hlength
  refine ⟨c, hc, reads_of_words (congrArg UInt32.toNat hbits) ?_ fun i _ => ?_⟩
  · rw [hwords]
    exact ha.covers
  · rw [hbit, ha.bit_eq]

/-- **It faults if the other array has more words than that.** -/
theorem sub_of_length_lt (h : b.size < a.size) (hlength : a.elems.length + 1 < b.elems.length) :
    a.sub b = .error .indexOutOfRange := by
  unfold sub
  rw [if_pos (UInt32.lt_iff_toNat_lt.mpr h), clearWords_of_lt (by omega)]
  rfl

end Words

/-! ## All four operations -/

/-- **The operations are those on sets.** -/
def SetOperations (a b : BitArray) : Prop :=
  (∃ c, a.and b = .ok c ∧ c.Reads (min a.size b.size) fun i => a.bit i && b.bit i)
    ∧ (∃ c, a.or b = .ok c ∧ c.Reads (max a.size b.size) fun i => a.bit i || b.bit i)
    ∧ (∃ c, a.sub b = .ok c ∧ c.Reads a.size fun i => a.bit i && !b.bit i)
    ∧ a.not.Reads a.size fun i => !a.bit i

/-- **They are exactly if the second array is not the shorter one, or has the
words of the first and contains it on all but its last word.** -/
theorem setOperations_iff {a b : BitArray} (ha : a.Made) (hb : b.Made) :
    a.SetOperations b ↔ (b.size < a.size →
      (a.size + 63) / 64 ≤ b.elems.length ∧ b.elems.length ≤ a.elems.length + 1
        ∧ ∀ i < 64 * (b.elems.length - 1), a.bit i = true → b.bit i = true) := by
  have hta := ha.tidy
  have htb := hb.tidy
  constructor
  · rintro ⟨-, ⟨c, hor, -⟩, ⟨d, hsub, hd⟩, -⟩ hlt
    have hmax : max a.size b.size = a.size := max_eq_left hlt.le
    have hwords : (a.size + 63) / 64 ≤ b.elems.length := by
      by_contra hless
      rw [or_of_lt (by rw [hmax]; omega)] at hor
      exact nomatch hor
    have hlength : b.elems.length ≤ a.elems.length + 1 := by
      by_contra hmore
      rw [sub_of_length_lt hlt (by omega)] at hsub
      exact nomatch hsub
    refine ⟨hwords, hlength, fun i hi hai => ?_⟩
    obtain ⟨d', hsub', hd'⟩ := sub_of_lt hta htb hlt hlength
    obtain rfl := Except.ok.inj (hsub.symm.trans hsub')
    -- A bit of the array that is cleared has to be one of the other.
    have hsize : i < a.size := by
      by_contra hge
      rw [bit_of_size_le (not_lt.mp hge)] at hai
      exact nomatch hai
    have hcleared := Except.ok.inj ((hd.get i hsize).symm.trans (hd'.get i hsize))
    rw [decide_eq_false (by omega), Bool.false_and, hai, Bool.true_and] at hcleared
    simpa using hcleared
  · intro hcond
    refine ⟨reads_and hta htb, reads_or hta htb ?_, ?_, reads_not hta⟩
    · have hcovers := htb.covers
      by_cases hlt : b.size < a.size
      · rw [max_eq_left hlt.le]
        exact (hcond hlt).1
      · rw [max_eq_right (not_lt.mp hlt)]
        omega
    · by_cases hlt : b.size < a.size
      · obtain ⟨-, hlength, hcontains⟩ := hcond hlt
        obtain ⟨c, hc, hreads⟩ := sub_of_lt hta htb hlt hlength
        refine ⟨c, hc, hreads.size, fun i hi => ?_⟩
        rw [hreads.get i hi]
        by_cases hword : 64 * (b.elems.length - 1) ≤ i
        · rw [decide_eq_true hword, Bool.true_and]
        · rw [decide_eq_false hword, Bool.false_and]
          cases hai : a.bit i with
          | false => rfl
          | true => rw [hcontains i (not_le.mp hword) hai]; rfl
      · exact reads_sub_of_le hta htb (not_lt.mp hlt)

/-- Within one word the second array may be shorter. -/
theorem one_word_setOperations : SetOperations ⟨51, [0x10000000000]⟩ (new 31) :=
  have hmade : Made ⟨51, [0x10000000000]⟩ := .setIndex (i := 40) (v := true) (.new 51) rfl
  (setOperations_iff hmade (.new 31)).mpr fun _ => ⟨by decide, by decide, by decide⟩

/-- **Arrays of two words and one, and of three and two**: the union of the
first two faults, and the difference of the others has lost the only bit. -/
theorem two_words_not_setOperations :
    (new 65).or (new 1) = .error .indexOutOfRange ∧ ¬ SetOperations (new 65) (new 1)
      ∧ Made ⟨129, [1, 0, 0]⟩ ∧ sub ⟨129, [1, 0, 0]⟩ (new 65) = .ok (new 129) := by
  have hor : (new 65).or (new 1) = .error .indexOutOfRange := by decide
  refine ⟨hor, ?_, .setIndex (i := 0) (v := true) (.new 129) rfl, by decide⟩
  rintro ⟨-, ⟨c, hc, -⟩, -⟩
  exact nomatch hor.symm.trans hc

end BitArray

end LoragonBFT
