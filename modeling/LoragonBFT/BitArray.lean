import LoragonBFT.Types
import LoragonBFT.Util.Words
import Mathlib.Logic.Function.Iterate

/-!
# Bit arrays

A bit array says which committee members took part in a certificate. It
stores its own size next to its words, and both travel: the two fields are
exported, and a decoder that fills them by reflection can produce a size the
words do not cover. Reading a bit below the size but past the words is then
a run-time fault, so the readers here return an `Except`.

The size is the array's own. Nothing ties it to the size of the committee
the array is read against, and `count` ranges over the array's size.
-/

namespace LoragonBFT

/-- `common.BitArray`. -/
structure BitArray where
  /-- The number of bits, as stored. -/
  bits : UInt32
  /-- The words the bits are kept in. -/
  elems : List UInt64
deriving DecidableEq, Repr

namespace BitArray

/-- `NewBitArray`. -/
def new (bits : ℕ) : BitArray :=
  ⟨UInt32.ofNat bits, List.replicate ((bits + 63) / 64) 0⟩

/-- `BitArray.Size`. -/
def size (bA : BitArray) : ℕ := bA.bits.toNat

/-- The word `uint64(1) << uint(i%64)` a bit is read and written through. -/
def mask (i : ℕ) : UInt64 := 1 <<< UInt64.ofNat (i % 64)

/-- `BitArray.getIndex`: a bit past the size reads as unset, a bit below it
is read from its word. -/
def getIndex (bA : BitArray) (i : ℕ) : Except Panic Bool :=
  if bA.size ≤ i then .ok false
  else match bA.elems[i / 64]? with
    | some e => .ok (decide (e &&& mask i > 0))
    | none => .error .indexOutOfRange

/-- `BitArray.setIndex`, with the array it leaves behind. -/
def setIndex (bA : BitArray) (i : ℕ) (v : Bool) : Except Panic (Bool × BitArray) :=
  if bA.size ≤ i then .ok (false, bA)
  else match bA.elems[i / 64]? with
    | some e =>
      .ok (true, { bA with
        elems := bA.elems.set (i / 64) (if v then e ||| mask i else e &&& ~~~(mask i)) })
    | none => .error .indexOutOfRange

/-- `BitArray.Count`: the set bits below the array's own size. -/
def count (bA : BitArray) : Except Panic ℕ :=
  (List.range bA.size).foldlM
    (fun c i => do return if ← bA.getIndex i then c + 1 else c) 0

/-- The bit at an index, with a fault read as an unset bit. On an array
whose words cover its size it is what `getIndex` returns. -/
def bit (bA : BitArray) (i : ℕ) : Bool :=
  match bA.getIndex i with
  | .ok b => b
  | .error _ => false

variable {bA bA' : BitArray}

theorem bit_eq_of_getIndex {i : ℕ} {b : Bool} (h : bA.getIndex i = .ok b) :
    bA.bit i = b := by
  rw [bit, h]

/-- A bit past the size is unset. -/
theorem bit_of_size_le {i : ℕ} (h : bA.size ≤ i) : bA.bit i = false :=
  bit_eq_of_getIndex (by rw [getIndex, if_pos h])

/-- A bit array whose words cover its size reads without a fault. -/
theorem getIndex_eq_ok (hwords : bA.size ≤ 64 * bA.elems.length) (i : ℕ) :
    bA.getIndex i = .ok (bA.bit i) := by
  suffices h : ∃ b, bA.getIndex i = .ok b by
    obtain ⟨b, hb⟩ := h
    rw [bit_eq_of_getIndex hb, hb]
  unfold getIndex
  by_cases hsize : bA.size ≤ i
  · exact ⟨false, if_pos hsize⟩
  · rw [if_neg hsize, List.getElem?_eq_getElem (by omega)]
    exact ⟨_, rfl⟩

/-- The counting loop adds up the set bits it passes. -/
theorem foldlM_count (l : List ℕ) (c₀ c : ℕ)
    (h : l.foldlM (fun c i => do return if ← bA.getIndex i then c + 1 else c) c₀ = .ok c) :
    c = c₀ + (l.filter bA.bit).length := by
  induction l generalizing c₀ with
  | nil =>
    have : c₀ = c := Except.ok.inj h
    simp [this]
  | cons i l ih =>
    rw [List.foldlM_cons] at h
    obtain ⟨c₁, hone, h⟩ := Except.exists_of_bind_eq_ok h
    obtain ⟨b, hi, hb⟩ := Except.exists_of_bind_eq_ok hone
    have hrest := ih _ h
    rw [← Except.ok.inj hb] at hrest
    rw [List.filter_cons, bit_eq_of_getIndex hi]
    cases b
    · simpa using hrest
    · simp only [if_true, List.length_cons] at hrest ⊢
      omega

/-- **`Count` counts the set bits below the array's own size**, whatever
the committee. -/
theorem count_eq {c : ℕ} (h : bA.count = .ok c) :
    c = ((List.range bA.size).filter bA.bit).length := by
  rw [foldlM_count (List.range bA.size) 0 c h, Nat.zero_add]

/-- **A counting loop counts the set bits**, whatever it counts in. -/
theorem foldlM_getIndex {α : Type} (inc : α → α) (hwords : bA.size ≤ 64 * bA.elems.length)
    (idxs : List ℕ) (n : α) :
    idxs.foldlM (fun n i => do return if ← bA.getIndex i then inc n else n) n
      = (.ok (inc^[(idxs.filter bA.bit).length] n) : Except Panic α) := by
  induction idxs generalizing n with
  | nil => rfl
  | cons i idxs ih =>
    rw [List.foldlM_cons, getIndex_eq_ok hwords]
    cases hbit : bA.bit i with
    | false =>
      rw [List.filter_cons_of_neg (by simp [hbit])]
      exact ih n
    | true =>
      rw [List.filter_cons_of_pos hbit, List.length_cons, Function.iterate_succ_apply]
      exact ih (inc n)

theorem iterate_add_one (k : ℕ) : ((· + 1)^[k] 0 : ℕ) = k := by
  induction k with
  | zero => rfl
  | succ k ih => rw [Function.iterate_succ_apply', ih]

/-- A bit array whose words cover its size can be counted. -/
theorem count_eq_ok (hwords : bA.size ≤ 64 * bA.elems.length) :
    bA.count = .ok ((List.range bA.size).filter bA.bit).length := by
  unfold count
  rw [foldlM_getIndex (· + 1) hwords, iterate_add_one]

/-- A bit array whose bits can be counted can be read at every index. -/
theorem exists_getIndex_of_count {c : ℕ} (h : bA.count = .ok c) (i : ℕ) :
    ∃ b, bA.getIndex i = .ok b := by
  -- the loop reads every index of its list, so it faults where one of them does
  have hloop : ∀ (l : List ℕ) (c₀ : ℕ),
      l.foldlM (fun c i => do return if ← bA.getIndex i then c + 1 else c) c₀ = .ok c →
      ∀ i ∈ l, ∃ b, bA.getIndex i = .ok b := by
    intro l
    induction l with
    | nil => exact fun _ _ _ hi => absurd hi List.not_mem_nil
    | cons j l ih =>
      intro c₀ hfold i hi
      rw [List.foldlM_cons] at hfold
      obtain ⟨c₁, hone, hfold⟩ := Except.exists_of_bind_eq_ok hfold
      obtain ⟨b, hj, -⟩ := Except.exists_of_bind_eq_ok hone
      rcases List.mem_cons.mp hi with rfl | hi
      · exact ⟨b, hj⟩
      · exact ih _ hfold i hi
  by_cases hsize : bA.size ≤ i
  · exact ⟨false, by rw [getIndex, if_pos hsize]⟩
  · exact hloop _ 0 h i (List.mem_range.mpr (by omega))

/-! ## Setting and reading bits -/

theorem toNat_mask (i : ℕ) : (mask i).toNat = 2 ^ (i % 64) := by
  have hlt : i % 64 < 64 := Nat.mod_lt _ (by norm_num)
  have h64 : (UInt64.ofNat (i % 64)).toNat = i % 64 := by
    rw [UInt64.toNat_ofNat']
    omega
  have hpow : 2 ^ (i % 64) < 2 ^ 64 := Nat.pow_lt_pow_right (by norm_num) hlt
  unfold mask
  rw [UInt64.toNat_shiftLeft, h64, Nat.mod_eq_of_lt hlt]
  simp [Nat.shiftLeft_eq]
  omega

/-- A bit is read by its place in the word. -/
theorem and_mask_pos (e : UInt64) (i : ℕ) :
    decide (e &&& mask i > 0) = e.toNat.testBit (i % 64) := by
  have hand : (e &&& mask i).toNat = e.toNat &&& 2 ^ (i % 64) := by
    rw [UInt64.toNat_and, toNat_mask]
  rw [Bool.eq_iff_iff, decide_eq_true_iff, gt_iff_lt, UInt64.lt_iff_toNat_lt, hand]
  show 0 < _ ↔ _
  constructor
  · intro hpos
    by_contra hbit
    have hzero : e.toNat &&& 2 ^ (i % 64) = 0 := by
      apply Nat.eq_of_testBit_eq
      intro j
      rw [Nat.testBit_and, Nat.testBit_two_pow, Nat.zero_testBit]
      by_cases hj : i % 64 = j
      · rw [← hj, Bool.eq_false_iff.mpr hbit, Bool.false_and]
      · simp [hj]
    omega
  · intro hbit
    apply Nat.pos_of_ne_zero
    intro hzero
    have htest := congrArg (fun n => n.testBit (i % 64)) hzero
    simp [Nat.testBit_and, hbit] at htest

/-- **A bit is set when it is below the size and set in its word.** -/
theorem bit_eq (bA : BitArray) (i : ℕ) :
    bA.bit i = (decide (i < bA.size) && Words.bit bA.elems i) := by
  unfold bit getIndex Words.bit
  by_cases hsize : bA.size ≤ i
  · rw [if_pos hsize, decide_eq_false (by omega)]
    rfl
  · rw [if_neg hsize, decide_eq_true (by omega)]
    cases helem : bA.elems[i / 64]? with
    | none => rfl
    | some e => simp [and_mask_pos]

theorem bit_new (n j : ℕ) : (new n).bit j = false := by
  rw [bit_eq]
  show (_ && Words.bit (List.replicate ((n + 63) / 64) 0) j) = _
  rw [Words.bit_replicate_zero, Bool.and_false]

/-- The word with one bit written. -/
theorem testBit_writeMask (e : UInt64) (i : ℕ) (v : Bool) {k : ℕ} (hk : k < 64) :
    (if v then e ||| mask i else e &&& ~~~(mask i)).toNat.testBit k
      = if k = i % 64 then v else e.toNat.testBit k := by
  have hmask : (mask i).toNat.testBit k = decide (k = i % 64) := by
    rw [toNat_mask, Nat.testBit_two_pow]
    exact decide_eq_decide.mpr eq_comm
  cases v with
  | true =>
    rw [if_pos rfl, UInt64.toNat_or, Nat.testBit_or, hmask]
    by_cases hki : k = i % 64 <;> simp [hki]
  | false =>
    rw [if_neg Bool.false_ne_true, UInt64.toNat_and, Nat.testBit_and, Words.testBit_not hk, hmask]
    by_cases hki : k = i % 64 <;> simp [hki]

/-- **Writing a bit writes that bit and no other**, if it is below the
size. -/
theorem words_setIndex {i : ℕ} {v done : Bool} (h : bA.setIndex i v = .ok (done, bA')) :
    bA'.bits = bA.bits ∧ bA'.elems.length = bA.elems.length
      ∧ ∀ j, Words.bit bA'.elems j
        = if i < bA.size ∧ j = i then v else Words.bit bA.elems j := by
  unfold setIndex at h
  split at h
  · rename_i hsize
    obtain ⟨-, rfl⟩ := Prod.mk.inj (Except.ok.inj h)
    exact ⟨rfl, rfl, fun j => (if_neg fun hi => absurd hi.1 (not_lt.mpr hsize)).symm⟩
  rename_i hsize
  split at h
  · rename_i e helem
    obtain ⟨-, rfl⟩ := Prod.mk.inj (Except.ok.inj h)
    refine ⟨rfl, List.length_set, fun j => ?_⟩
    rw [Words.bit_set helem fun k hk => testBit_writeMask e i v hk]
    exact if_congr ⟨fun hj => ⟨not_le.mp hsize, hj⟩, And.right⟩ rfl rfl
  · exact nomatch h

/-- Writing a bit does not fault where the words cover the size. -/
theorem exists_setIndex (hwords : bA.size ≤ 64 * bA.elems.length) (i : ℕ) (v : Bool) :
    ∃ r, bA.setIndex i v = .ok r := by
  unfold setIndex
  by_cases hsize : bA.size ≤ i
  · exact ⟨_, if_pos hsize⟩
  · rw [if_neg hsize, List.getElem?_eq_getElem (by omega)]
    exact ⟨_, rfl⟩

/-- **Setting a bit sets that bit and no other.** -/
theorem bit_setIndex {i : ℕ} {done : Bool} (h : bA.setIndex i true = .ok (done, bA')) :
    bA'.size = bA.size ∧ bA'.elems.length = bA.elems.length
      ∧ ∀ j, bA'.bit j = (bA.bit j || (decide (i < bA.size) && decide (j = i))) := by
  obtain ⟨hbits, hlength, hwords⟩ := words_setIndex h
  have hsize : bA'.size = bA.size := congrArg UInt32.toNat hbits
  refine ⟨hsize, hlength, fun j => ?_⟩
  rw [bit_eq, bit_eq, hsize, hwords]
  by_cases hj : i < bA.size ∧ j = i
  · rw [if_pos hj, hj.2, decide_eq_true hj.1, decide_eq_true rfl, Bool.and_true, Bool.true_and,
      Bool.or_true]
  · rw [if_neg hj, ← Bool.decide_and, decide_eq_false hj, Bool.or_false]

/-! ## The text form

On the wire a bit array is a quoted string with one character a bit. The
array is rebuilt from the length of the string, so a decoded array always
has the words its size asks for. -/

/-- `BitArray.MarshalJSON`. The arrays that are encoded were built by
`NewBitArray` or by the decoder below, so a bit below the size always has
its word and reading it does not fault. -/
def marshalJSON (bA : BitArray) : Bytes :=
  [0x22] ++ (List.range bA.size).map (fun i => if bA.bit i then 0x78 else 0x5f) ++ [0x22]

/-- `NewBitArray(len(bits))` followed by the `SetIndex` loop of
`UnmarshalJSON`. -/
def ofText (bits : Bytes) : BitArray :=
  (List.range bits.length).foldl
    (fun bA i => if bits[i]? = some 0x78 then
        match bA.setIndex i true with
        | .ok (_, bA') => bA'
        | .error _ => bA
      else bA)
    (new bits.length)

/-- `BitArray.UnmarshalJSON`: `null`, or a quoted string of `_` and `x`;
anything else is an error. -/
def unmarshalJSON (bz : Bytes) : Option BitArray :=
  if bz = [0x6e, 0x75, 0x6c, 0x6c] then some ⟨0, []⟩
  else match bz with
    | 0x22 :: rest =>
      match rest.reverse with
      | 0x22 :: text =>
        if text.all (fun c => c == 0x5f || c == 0x78) then some (ofText text.reverse) else none
      | _ => none
    | _ => none

/-- `BitArray.EncodeRLP`. -/
def item (bA : BitArray) : Rlp.Item := .str bA.marshalJSON

/-- `BitArray.DecodeRLP` into a fresh array. The error of `UnmarshalJSON`
is not looked at: text that does not parse leaves the empty array. -/
def ofItem (i : Rlp.Item) : Option BitArray :=
  i.bytes?.map (fun payload => (unmarshalJSON payload).getD ⟨0, []⟩)

/-- The loop of `UnmarshalJSON`, up to an index: the bits of the characters
read so far are set. -/
theorem foldl_ofText (text : Bytes) (hlen : text.length < 2 ^ 32) (k : ℕ) (hk : k ≤ text.length) :
    let bA := (List.range k).foldl
      (fun bA i => if text[i]? = some 0x78 then
          match bA.setIndex i true with
          | .ok (_, bA') => bA'
          | .error _ => bA
        else bA) (new text.length)
    bA.size = text.length ∧ bA.elems.length = (text.length + 63) / 64
      ∧ ∀ j, bA.bit j = (decide (j < k) && decide (text[j]? = some 0x78)) := by
  induction k with
  | zero =>
    refine ⟨?_, List.length_replicate, fun j => ?_⟩
    · show (UInt32.ofNat text.length).toNat = text.length
      rw [UInt32.toNat_ofNat', Nat.mod_eq_of_lt hlen]
    · show (new text.length).bit j = _
      rw [bit_new]
      simp
  | succ k ih =>
    obtain ⟨hsize, helems, hbits⟩ := ih (by omega)
    rw [List.range_succ, List.foldl_append]
    dsimp only [List.foldl_cons, List.foldl_nil] at hsize helems hbits ⊢
    generalize (List.range k).foldl _ _ = bA at hsize helems hbits ⊢
    split
    · rename_i hx
      -- the index is below the size and its word is there, so the bit is set
      have hword : k / 64 < bA.elems.length := by omega
      obtain ⟨bA', hset⟩ : ∃ bA', bA.setIndex k true = .ok (true, bA') := by
        unfold setIndex
        rw [if_neg (by omega), List.getElem?_eq_getElem hword]
        exact ⟨_, rfl⟩
      rw [hset]
      obtain ⟨hsize', helems', hbits'⟩ := bit_setIndex hset
      refine ⟨hsize'.trans hsize, helems'.trans helems, fun j => ?_⟩
      rw [hbits' j, hbits j]
      by_cases hj : j = k
      · subst hj
        simp [hx]
        omega
      · have hlt : (j < k + 1) = (j < k) := propext ⟨fun h => by omega, fun h => by omega⟩
        simp [hj, hlt]
    · rename_i hx
      refine ⟨hsize, helems, fun j => ?_⟩
      rw [hbits j]
      by_cases hj : j = k
      · subst hj
        simp [hx]
      · have hlt : (j < k + 1) = (j < k) := propext ⟨fun h => by omega, fun h => by omega⟩
        simp [hlt]

/-- **The bits of a decoded array are the characters of its text.** -/
theorem bit_ofText {text : Bytes} (hlen : text.length < 2 ^ 32) :
    (ofText text).size = text.length
      ∧ ∀ j, (ofText text).bit j = decide (text[j]? = some 0x78) := by
  obtain ⟨hsize, -, hbits⟩ := foldl_ofText text hlen text.length le_rfl
  refine ⟨hsize, fun j => (hbits j).trans ?_⟩
  by_cases hj : j < text.length
  · rw [decide_eq_true hj, Bool.true_and]
  · rw [decide_eq_false hj, List.getElem?_eq_none (by omega)]
    rfl

/-- **Encoding a decoded array gives its text back.** -/
theorem marshalJSON_ofText {text : Bytes} (hlen : text.length < 2 ^ 32)
    (hchars : ∀ c ∈ text, c = 0x5f ∨ c = 0x78) :
    (ofText text).marshalJSON = [0x22] ++ text ++ [0x22] := by
  obtain ⟨hsize, hbits⟩ := bit_ofText hlen
  have htext : (List.range text.length).map
      (fun i => if (ofText text).bit i then (0x78 : UInt8) else 0x5f) = text := by
    refine List.ext_getElem (by simp) fun i hi hi' => ?_
    rw [List.getElem_map, List.getElem_range, hbits i, List.getElem?_eq_getElem hi']
    rcases hchars _ (List.getElem_mem hi') with hc | hc <;> simp [hc]
  rw [marshalJSON, hsize, htext]

/-- A bit array as it comes off the wire: rebuilt from a text. -/
def Textual (bA : BitArray) : Prop :=
  ∃ text : Bytes, text.length < 2 ^ 32 ∧ (∀ c ∈ text, c = 0x5f ∨ c = 0x78) ∧ bA = ofText text

theorem textual_of_ofItem {i : Rlp.Item} {n : ℕ} (hn : n < 2 ^ 32) (hi : i.Within n)
    (h : ofItem i = some bA) : bA.Textual := by
  have hempty : Textual ⟨0, []⟩ :=
    ⟨[], by norm_num, fun _ hc => absurd hc List.not_mem_nil, rfl⟩
  obtain ⟨payload, hpayload, rfl⟩ := Option.map_eq_some_iff.mp h
  cases hi with
  | list items _ => exact nomatch hpayload
  | str b hb =>
    obtain rfl := Option.some.inj hpayload
    cases hjson : unmarshalJSON b with
    | none => exact hempty
    | some bA =>
      unfold unmarshalJSON at hjson
      split at hjson
      · rw [← Option.some.inj hjson]
        exact hempty
      split at hjson
      · rename_i rest
        split at hjson
        · rename_i text hrest
          split at hjson
          · rename_i hall
            refine ⟨text.reverse, ?_, fun c hc => ?_, (Option.some.inj hjson).symm⟩
            · have hlen := congrArg List.length hrest
              simp only [List.length_reverse, List.length_cons] at hlen hb ⊢
              omega
            · have := List.all_eq_true.mp hall c (List.mem_reverse.mp hc)
              simpa using this
          · exact nomatch hjson
        · exact nomatch hjson
      · exact nomatch hjson

/-- **Decoded arrays with one encoding are one array.** -/
theorem Textual.eq_of_item_eq (h : bA.Textual) (h' : bA'.Textual) (hitem : bA.item = bA'.item) :
    bA = bA' := by
  obtain ⟨text, hlen, hchars, rfl⟩ := h
  obtain ⟨text', hlen', hchars', rfl⟩ := h'
  have hjson := Rlp.Item.str.inj hitem
  rw [marshalJSON_ofText hlen hchars, marshalJSON_ofText hlen' hchars'] at hjson
  simp only [List.append_cancel_right_eq, List.append_cancel_left_eq] at hjson
  rw [hjson]

end BitArray

end LoragonBFT
