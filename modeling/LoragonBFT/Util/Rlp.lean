import Mathlib.Data.List.Basic
import Mathlib.Tactic.Ring

/-!
# Recursive length prefix items

RLP serialises two kinds of thing: byte strings, and lists of things. What a
program hands to the encoder is a value of that shape, and two values of
that shape have the same encoding exactly when they are equal. An `Item` is
that value; everything below is about reading and writing the fields of a
record as items.

Unsigned integers have no kind of their own: an integer is the byte string
of its big-endian digits with no leading zero, zero being the empty string,
and a decoder that meets a leading zero or too many digits refuses it. A
fixed-size array is a string of exactly that many bytes.
-/

namespace Rlp

/-- A value as RLP sees it: a byte string, or a list of values. -/
inductive Item where
  /-- A byte string. -/
  | str (b : List UInt8)
  /-- A list of items. -/
  | list (items : List Item)

/-! ## Big-endian digits -/

/-- The `n` low big-endian digits of a number, in base 256. -/
def beBytes : ℕ → ℕ → List UInt8
  | 0, _ => []
  | n + 1, x => beBytes n (x / 256) ++ [UInt8.ofNat x]

/-- The number a list of big-endian digits stands for. -/
def beValue (l : List UInt8) : ℕ := l.foldl (fun a b => a * 256 + b.toNat) 0

@[simp] theorem beValue_append_singleton (l : List UInt8) (b : UInt8) :
    beValue (l ++ [b]) = beValue l * 256 + b.toNat := by
  simp [beValue]

@[simp] theorem length_beBytes (n x : ℕ) : (beBytes n x).length = n := by
  induction n generalizing x with
  | zero => rfl
  | succ n ih => simp [beBytes, ih]

variable {n x : ℕ} {rest b : List UInt8}

/-- **Reading the digits of a number gives the number back**, as long as
there were digits enough. -/
theorem beValue_beBytes (h : x < 256 ^ n) : beValue (beBytes n x) = x := by
  induction n generalizing x with
  | zero =>
    have : x = 0 := by simpa using h
    rw [this]
    rfl
  | succ n ih =>
    have hdiv : x / 256 < 256 ^ n := by
      rw [Nat.div_lt_iff_lt_mul (by norm_num), ← pow_succ]
      exact h
    rw [beBytes, beValue_append_singleton, ih hdiv]
    have hlow : (UInt8.ofNat x).toNat = x % 256 := by simp
    omega

/-- Numbers with the same digits agree up to what the digits can hold. -/
theorem beBytes_eq_iff {y : ℕ} :
    beBytes n x = beBytes n y ↔ x % 256 ^ n = y % 256 ^ n := by
  induction n generalizing x y with
  | zero => simp [beBytes, Nat.mod_one]
  | succ n ih =>
    have hdigit : UInt8.ofNat x = UInt8.ofNat y ↔ x % 256 = y % 256 := by
      rw [← UInt8.toNat_inj, UInt8.toNat_ofNat', UInt8.toNat_ofNat']
    have hrest : ∀ z, z % 256 ^ (n + 1) = z % 256 + 256 * (z / 256 % 256 ^ n) := fun z => by
      rw [Nat.pow_succ', Nat.mod_mul]
    rw [beBytes, beBytes, List.append_singleton_inj, ih, hdigit, hrest x, hrest y]
    omega

/-- **The digits determine the number.** -/
theorem beBytes_injOn {y : ℕ} (hx : x < 256 ^ n) (hy : y < 256 ^ n)
    (h : beBytes n x = beBytes n y) : x = y := by
  rw [← beValue_beBytes hx, ← beValue_beBytes hy, h]

/-- Leading zeros do not count. -/
theorem beValue_dropWhile (l : List UInt8) :
    beValue (l.dropWhile (· == 0)) = beValue l := by
  induction l with
  | nil => rfl
  | cons b l ih =>
    by_cases hb : b = 0
    · have hstep : beValue (b :: l) = beValue l := by simp [beValue, hb]
      rw [List.dropWhile_cons_of_pos (by simpa using hb), ih, hstep]
    · rw [List.dropWhile_cons_of_neg (by simpa using hb)]

/-! ## Integers and fixed-size arrays as items -/

/-- An unsigned integer of at most 64 bits: its digits, with no leading
zero. -/
def Item.uint (x : ℕ) : Item := .str ((beBytes 8 x).dropWhile (· == 0))

theorem Item.uint_injOn {y : ℕ} (hx : x < 2 ^ 64) (hy : y < 2 ^ 64)
    (h : Item.uint x = Item.uint y) : x = y := by
  have hstr := Item.str.inj h
  have hval := congrArg beValue hstr
  rwa [beValue_dropWhile, beValue_dropWhile, beValue_beBytes (by norm_num; omega),
    beValue_beBytes (by norm_num; omega)] at hval

/-- The byte string an item carries. -/
def Item.bytes? : Item → Option (List UInt8)
  | .str b => some b
  | .list _ => none

/-- The elements of a list item. -/
def Item.list? : Item → Option (List Item)
  | .str _ => none
  | .list l => some l

/-- A byte string of exactly `n` bytes. -/
def Item.array? (n : ℕ) (i : Item) : Option (List UInt8) :=
  i.bytes?.filter (fun b => b.length == n)

/-- An unsigned integer of at most `n` bytes. A leading zero digit is not
canonical and is refused. -/
def Item.uint? (n : ℕ) (i : Item) : Option ℕ :=
  (i.bytes?.filter (fun b => b.length ≤ n && b.head? != some 0)).map beValue

/-! ## The encoding

A single byte below `0x80` is its own encoding. Otherwise a string or a list
is preceded by its length, written in the prefix byte up to 55 and after it
beyond. The decoder refuses what the encoder would not have written: a
string of one small byte with a prefix, a long form for a short length, a
length with a leading zero. -/

/-- The prefix of a string (`offset = 0x80`) or list (`offset = 0xc0`). -/
def lengthPrefix (offset len : ℕ) : List UInt8 :=
  if len < 56 then [UInt8.ofNat (offset + len)]
  else
    let digits := (beBytes 8 len).dropWhile (· == 0)
    UInt8.ofNat (offset + 55 + digits.length) :: digits

mutual

/-- `rlp.EncodeToBytes`. -/
def Item.encode : Item → List UInt8
  | .str [b] => if b < 0x80 then [b] else lengthPrefix 0x80 1 ++ [b]
  | .str b => lengthPrefix 0x80 b.length ++ b
  | .list items => lengthPrefix 0xc0 (encodeAll items).length ++ encodeAll items

/-- The payload of a list: the encodings of its elements in order. -/
def encodeAll : List Item → List UInt8
  | [] => []
  | i :: items => i.encode ++ encodeAll items

end

/-- Split off the first `n` bytes, if there are that many. -/
def splitExact (n : ℕ) (b : List UInt8) : Option (List UInt8 × List UInt8) :=
  if n ≤ b.length then some (b.take n, b.drop n) else none

/-- Read a length of `n` digits that is not short and has no leading zero. -/
def longLength (n : ℕ) (b : List UInt8) : Option (ℕ × List UInt8) := do
  let (digits, rest) ← splitExact n b
  if digits.head? = some 0 ∨ beValue digits < 56 then none
  else return (beValue digits, rest)

mutual

/-- Decode one item and return the bytes after it. Every item read and
every list entered takes one unit of fuel, so twice the length of the input
is enough. -/
def decodeItem : ℕ → List UInt8 → Option (Item × List UInt8)
  | 0, _ => none
  | _ + 1, [] => none
  | fuel + 1, b :: rest =>
    if b < 0x80 then some (.str [b], rest)
    else if b < 0xb8 then do
      let (payload, rest) ← splitExact (b.toNat - 0x80) rest
      match payload with
      | [x] => if x < 0x80 then none else return (.str [x], rest)
      | _ => return (.str payload, rest)
    else if b < 0xc0 then do
      let (len, rest) ← longLength (b.toNat - 0xb7) rest
      let (payload, rest) ← splitExact len rest
      return (.str payload, rest)
    else if b < 0xf8 then do
      let (payload, rest) ← splitExact (b.toNat - 0xc0) rest
      return (.list (← decodeAll fuel payload), rest)
    else do
      let (len, rest) ← longLength (b.toNat - 0xf7) rest
      let (payload, rest) ← splitExact len rest
      return (.list (← decodeAll fuel payload), rest)

/-- Decode a payload made of items. -/
def decodeAll : ℕ → List UInt8 → Option (List Item)
  | _, [] => some []
  | 0, _ :: _ => none
  | fuel + 1, b :: rest => do
    let (i, rest) ← decodeItem fuel (b :: rest)
    return i :: (← decodeAll fuel rest)

end

/-- `rlp.DecodeBytes`: one item and nothing after it. -/
def decode (b : List UInt8) : Option Item := do
  let (i, rest) ← decodeItem (2 * b.length + 1) b
  if rest = [] then return i else none

/-- **A small byte is an item of its own**, so nothing may follow it. -/
theorem decode_eq_none_of_small {b : UInt8} (hb : b < 0x80) (hrest : rest ≠ []) :
    decode (b :: rest) = none := by
  show (if b < 0x80 then some (Item.str [b], rest) else _).bind _ = none
  rw [if_pos hb]
  exact if_neg hrest

/-! ## What is decoded is no longer than its encoding -/

/-- No string in the item is longer than `n` bytes. -/
inductive Item.Within (n : ℕ) : Item → Prop
  | str (b : List UInt8) (length_le : b.length ≤ n) : Item.Within n (.str b)
  | list (items : List Item) (within : ∀ i ∈ items, Item.Within n i) : Item.Within n (.list items)

theorem Item.Within.mono {m : ℕ} (h : n ≤ m) {i : Item} (hi : i.Within n) : i.Within m := by
  induction hi with
  | str b hb => exact .str b (hb.trans h)
  | list items _ ih => exact .list items ih

theorem length_of_splitExact {payload : List UInt8} (h : splitExact n b = some (payload, rest)) :
    payload.length ≤ b.length ∧ rest.length ≤ b.length := by
  unfold splitExact at h
  split at h
  · obtain ⟨rfl, rfl⟩ := Prod.mk.inj (Option.some.inj h)
    exact ⟨List.length_take_le' _ _, List.length_drop ▸ Nat.sub_le _ _⟩
  · exact nomatch h

theorem length_of_longLength {len : ℕ} (h : longLength n b = some (len, rest)) :
    rest.length ≤ b.length := by
  unfold longLength at h
  obtain ⟨⟨digits, rest'⟩, hsplit, h⟩ := Option.bind_eq_some_iff.mp h
  dsimp only at h
  split at h
  · exact nomatch h
  · obtain ⟨-, rfl⟩ := Prod.mk.inj (Option.some.inj h)
    exact (length_of_splitExact hsplit).2

/-- Both decoders at once, by induction on the fuel they share. -/
theorem decodeItem_decodeAll_within (fuel : ℕ) :
    (∀ b i rest, decodeItem fuel b = some (i, rest) →
      i.Within b.length ∧ rest.length ≤ b.length)
    ∧ ∀ b items, decodeAll fuel b = some items → ∀ i ∈ items, i.Within b.length := by
  induction fuel with
  | zero =>
    refine ⟨fun b i rest h => by simp [decodeItem] at h, fun b items h i hi => ?_⟩
    cases b with
    | nil => simp [decodeAll] at h; simp [h] at hi
    | cons _ _ => simp [decodeAll] at h
  | succ fuel ih =>
    obtain ⟨ihItem, ihAll⟩ := ih
    constructor
    · intro b i rest h
      cases b with
      | nil => simp [decodeItem] at h
      | cons b tail =>
        -- a string or list payload is part of what follows the first byte
        have hstr : ∀ n payload tail' rest', tail'.length ≤ tail.length →
            splitExact n tail' = some (payload, rest') →
            (Item.str payload).Within (b :: tail).length ∧ rest'.length ≤ (b :: tail).length := by
          intro n payload tail' rest' htail hsplit
          obtain ⟨hpayload, hrest⟩ := length_of_splitExact hsplit
          rw [List.length_cons]
          exact ⟨.str _ (by omega), by omega⟩
        have hlist : ∀ n payload tail' rest' items, tail'.length ≤ tail.length →
            splitExact n tail' = some (payload, rest') → decodeAll fuel payload = some items →
            (Item.list items).Within (b :: tail).length ∧ rest'.length ≤ (b :: tail).length := by
          intro n payload tail' rest' items htail hsplit hitems
          obtain ⟨hpayload, hrest⟩ := length_of_splitExact hsplit
          refine ⟨.list _ fun i hi => (ihAll payload items hitems i hi).mono ?_, ?_⟩ <;>
            simp only [List.length_cons] <;> omega
        unfold decodeItem at h
        split at h
        · obtain ⟨rfl, rfl⟩ := Prod.mk.inj (Option.some.inj h)
          exact ⟨.str _ (by simp), by simp⟩
        split at h
        · obtain ⟨⟨payload, rest'⟩, hsplit, h⟩ := Option.bind_eq_some_iff.mp h
          have hthis := hstr _ payload tail rest' le_rfl hsplit
          dsimp only at h
          split at h
          · split at h
            · exact nomatch h
            · obtain ⟨rfl, rfl⟩ := Prod.mk.inj (Option.some.inj h)
              exact hthis
          · obtain ⟨rfl, rfl⟩ := Prod.mk.inj (Option.some.inj h)
            exact hthis
        split at h
        · obtain ⟨⟨len, tail'⟩, hlong, h⟩ := Option.bind_eq_some_iff.mp h
          obtain ⟨⟨payload, rest'⟩, hsplit, h⟩ := Option.bind_eq_some_iff.mp h
          obtain ⟨rfl, rfl⟩ := Prod.mk.inj (Option.some.inj h)
          exact hstr _ payload tail' rest' (length_of_longLength hlong) hsplit
        split at h
        · obtain ⟨⟨payload, rest'⟩, hsplit, h⟩ := Option.bind_eq_some_iff.mp h
          obtain ⟨items, hitems, h⟩ := Option.bind_eq_some_iff.mp h
          obtain ⟨rfl, rfl⟩ := Prod.mk.inj (Option.some.inj h)
          exact hlist _ payload tail rest' items le_rfl hsplit hitems
        · obtain ⟨⟨len, tail'⟩, hlong, h⟩ := Option.bind_eq_some_iff.mp h
          obtain ⟨⟨payload, rest'⟩, hsplit, h⟩ := Option.bind_eq_some_iff.mp h
          obtain ⟨items, hitems, h⟩ := Option.bind_eq_some_iff.mp h
          obtain ⟨rfl, rfl⟩ := Prod.mk.inj (Option.some.inj h)
          exact hlist _ payload tail' rest' items (length_of_longLength hlong) hsplit hitems
    · intro b items h i hi
      cases b with
      | nil => simp [decodeAll] at h; simp [h] at hi
      | cons b tail =>
        unfold decodeAll at h
        obtain ⟨⟨first, rest⟩, hfirst, h⟩ := Option.bind_eq_some_iff.mp h
        obtain ⟨others, hothers, h⟩ := Option.bind_eq_some_iff.mp h
        obtain rfl := Option.some.inj h
        obtain ⟨hwithin, hrest⟩ := ihItem _ first rest hfirst
        rcases List.mem_cons.mp hi with rfl | hi
        · exact hwithin
        · exact (ihAll rest others hothers i hi).mono hrest

/-- **No string in a decoded item is longer than the bytes decoded.** -/
theorem within_of_decode {i : Item} (h : decode b = some i) :
    i.Within b.length := by
  unfold decode at h
  obtain ⟨⟨i', rest⟩, hitem, h⟩ := Option.bind_eq_some_iff.mp h
  dsimp only at h
  split at h
  · obtain rfl := Option.some.inj h
    exact ((decodeItem_decodeAll_within _).1 b i' rest hitem).1
  · exact nomatch h

/-! ## Decoding what was encoded -/

/-- More digits than a number has are zeros in front. -/
theorem beBytes_eq_replicate_append (k : ℕ) (h : x < 256 ^ n) :
    beBytes (k + n) x = List.replicate k 0 ++ beBytes n x := by
  induction n generalizing x with
  | zero =>
    obtain rfl : x = 0 := by simpa using h
    induction k with
    | zero => rfl
    | succ k ih =>
      show beBytes k (0 / 256) ++ [0] = List.replicate (k + 1) 0 ++ []
      rw [Nat.zero_div, show beBytes k 0 = List.replicate k 0 ++ [] from ih, List.append_nil,
        List.append_nil, List.replicate_succ']
  | succ n ih =>
    have hdiv : x / 256 < 256 ^ n := by
      rw [Nat.div_lt_iff_lt_mul (by norm_num), ← pow_succ]
      exact h
    rw [← Nat.add_assoc, beBytes, ih hdiv, beBytes, List.append_assoc]

/-- **A number that fits in `n` bytes has no more digits.** -/
theorem length_digits_le {k : ℕ} (h : x < 256 ^ n) :
    ((beBytes (k + n) x).dropWhile (· == 0)).length ≤ n := by
  have hzeros : (List.replicate k (0 : UInt8)).dropWhile (· == 0) = [] := by simp
  rw [beBytes_eq_replicate_append k h, List.dropWhile_append, hzeros]
  have hle : ((beBytes n x).dropWhile (· == 0)).length ≤ (beBytes n x).length :=
    (List.dropWhile_suffix _).length_le
  simpa using hle

theorem head?_digits_ne_zero (l : List UInt8) : (l.dropWhile (· == 0)).head? ≠ some 0 := by
  intro h
  have hnot := List.head?_dropWhile_not (· == (0 : UInt8)) l
  rw [h] at hnot
  exact absurd hnot (by decide)

/-- **An integer that fits in `n` bytes is read back.** -/
theorem Item.uint?_uint (hn : n ≤ 8) (h : x < 256 ^ n) :
    (Item.uint x).uint? n = some x := by
  have hlen : ((beBytes 8 x).dropWhile (· == 0)).length ≤ n := by
    rw [← Nat.sub_add_cancel hn]
    exact length_digits_le h
  have h8 : x < 256 ^ 8 := h.trans_le (Nat.pow_le_pow_right (by norm_num) hn)
  unfold Item.uint? Item.uint Item.bytes?
  rw [Option.filter_some_pos, Option.map_some, beValue_dropWhile, beValue_beBytes h8]
  have hhead := head?_digits_ne_zero (beBytes 8 x)
  simp [hlen, hhead]

/-- A list is read back if each of its elements is. -/
theorem mapM_map {α β : Type} {f : α → β} {g : β → Option α} (h : ∀ a, g (f a) = some a)
    (l : List α) : (l.map f).mapM g = some l := by
  induction l with
  | nil => rfl
  | cons a l ih =>
    rw [List.map_cons, List.mapM_cons, h a, ih]
    rfl

/-- A string of `n` bytes is read back. -/
theorem Item.array?_str (h : b.length = n) :
    (Item.str b).array? n = some b := by
  simp [Item.array?, Item.bytes?, h]

theorem splitExact_append (a rest : List UInt8) :
    splitExact a.length (a ++ rest) = some (a, rest) := by
  unfold splitExact
  rw [if_pos (by simp)]
  simp

/-- **A long length is read back.** -/
theorem longLength_append {len : ℕ} (hlong : 56 ≤ len) (hlen : len < 2 ^ 64) (rest : List UInt8) :
    longLength ((beBytes 8 len).dropWhile (· == 0)).length
      ((beBytes 8 len).dropWhile (· == 0) ++ rest) = some (len, rest) := by
  have hvalue : beValue ((beBytes 8 len).dropWhile (· == 0)) = len := by
    rw [beValue_dropWhile, beValue_beBytes (by norm_num; omega)]
  unfold longLength
  rw [splitExact_append]
  show (if _ then none else _) = _
  rw [if_neg, hvalue]
  · rfl
  · rw [hvalue]
    exact not_or.mpr ⟨head?_digits_ne_zero _, by omega⟩

/-- A long length has between one and eight digits. -/
theorem length_digits_mem {len : ℕ} (hlong : 56 ≤ len) (hlen : len < 2 ^ 64) :
    1 ≤ ((beBytes 8 len).dropWhile (· == 0)).length
      ∧ ((beBytes 8 len).dropWhile (· == 0)).length ≤ 8 := by
  have h8 : len < 256 ^ 8 := by norm_num; omega
  refine ⟨List.length_pos_iff.mpr fun hnil => ?_, length_digits_le (k := 0) h8⟩
  have hvalue := beValue_dropWhile (beBytes 8 len)
  rw [hnil, beValue_beBytes h8] at hvalue
  exact absurd hvalue.symm (by show len ≠ 0; omega)

theorem toNat_ofNat_of_lt (h : x < 256) : (UInt8.ofNat x).toNat = x := by
  rw [UInt8.toNat_ofNat', Nat.mod_eq_of_lt h]

/-- **A string with its prefix is read back**, unless it should have had
none. -/
theorem decodeItem_str (hsmall : ∀ x, b = [x] → ¬ x < 0x80) (hlen : b.length < 2 ^ 64) (fuel : ℕ)
    (rest : List UInt8) :
    decodeItem (fuel + 1) (lengthPrefix 0x80 b.length ++ (b ++ rest)) = some (.str b, rest) := by
  unfold lengthPrefix
  split
  · rename_i hshort
    have htoNat : (UInt8.ofNat (0x80 + b.length)).toNat = 0x80 + b.length :=
      toNat_ofNat_of_lt (by omega)
    rw [List.singleton_append, decodeItem]
    simp only [UInt8.lt_iff_toNat_lt, htoNat, UInt8.toNat_ofNat]
    rw [if_neg (by omega), if_pos (by omega), Nat.add_sub_cancel_left, splitExact_append]
    match b with
    | [] => rfl
    | [x] => exact if_neg (hsmall x rfl)
    | _ :: _ :: _ => rfl
  · rename_i hlong
    obtain ⟨hpos, hle⟩ := length_digits_mem (not_lt.mp hlong) hlen
    have htoNat := toNat_ofNat_of_lt
      (x := 0x80 + 55 + ((beBytes 8 b.length).dropWhile (· == 0)).length) (by omega)
    dsimp only
    rw [List.cons_append, decodeItem]
    simp only [UInt8.lt_iff_toNat_lt, htoNat, UInt8.toNat_ofNat]
    rw [if_neg (by omega), if_neg (by omega), if_pos (by omega), Nat.add_sub_cancel_left,
      longLength_append (not_lt.mp hlong) hlen]
    show (splitExact b.length (b ++ rest)).bind _ = _
    rw [splitExact_append]
    rfl

/-- **A list with its prefix is read back** once its payload is. -/
theorem decodeItem_list {payload : List UInt8} {items : List Item} {fuel : ℕ}
    (hall : decodeAll fuel payload = some items) (hlen : payload.length < 2 ^ 64)
    (rest : List UInt8) :
    decodeItem (fuel + 1) (lengthPrefix 0xc0 payload.length ++ (payload ++ rest))
      = some (.list items, rest) := by
  unfold lengthPrefix
  split
  · rename_i hshort
    have htoNat : (UInt8.ofNat (0xc0 + payload.length)).toNat = 0xc0 + payload.length :=
      toNat_ofNat_of_lt (by omega)
    rw [List.singleton_append, decodeItem]
    simp only [UInt8.lt_iff_toNat_lt, htoNat, UInt8.toNat_ofNat]
    rw [if_neg (by omega), if_neg (by omega), if_neg (by omega), if_pos (by omega),
      Nat.add_sub_cancel_left, splitExact_append]
    show (decodeAll fuel payload).bind _ = _
    rw [hall]
    rfl
  · rename_i hlong
    obtain ⟨hpos, hle⟩ := length_digits_mem (not_lt.mp hlong) hlen
    have htoNat := toNat_ofNat_of_lt
      (x := 0xc0 + 55 + ((beBytes 8 payload.length).dropWhile (· == 0)).length) (by omega)
    dsimp only
    rw [List.cons_append, decodeItem]
    simp only [UInt8.lt_iff_toNat_lt, htoNat, UInt8.toNat_ofNat]
    rw [if_neg (by omega), if_neg (by omega), if_neg (by omega), if_neg (by omega),
      Nat.add_sub_cancel_left, longLength_append (not_lt.mp hlong) hlen]
    show (splitExact payload.length (payload ++ rest)).bind _ = _
    rw [splitExact_append]
    show (decodeAll fuel payload).bind _ = _
    rw [hall]
    rfl

/-- A string has its prefix, or is a small byte. -/
theorem Item.encode_str (b : List UInt8) :
    (∃ x, b = [x] ∧ x < 0x80 ∧ (Item.str b).encode = [x])
      ∨ (∀ x, b = [x] → ¬ x < 0x80) ∧ (Item.str b).encode = lengthPrefix 0x80 b.length ++ b := by
  match b with
  | [] => exact .inr ⟨fun _ h => (nomatch h), rfl⟩
  | [x] =>
    by_cases hx : x < 0x80
    · exact .inl ⟨x, rfl, hx, by rw [Item.encode, if_pos hx]⟩
    · refine .inr ⟨fun y hy => ?_, by rw [Item.encode, if_neg hx]; rfl⟩
      rwa [← (List.cons.inj hy).1]
  | _ :: _ :: _ => exact .inr ⟨fun _ h => (nomatch h), rfl⟩

theorem length_lengthPrefix_pos (offset len : ℕ) : 1 ≤ (lengthPrefix offset len).length := by
  unfold lengthPrefix
  split <;> simp

theorem Item.length_encode_pos (i : Item) : 1 ≤ i.encode.length := by
  cases i with
  | str b =>
    rcases Item.encode_str b with ⟨x, -, -, h⟩ | ⟨-, h⟩
    · rw [h]
      rfl
    · rw [h, List.length_append]
      have := length_lengthPrefix_pos 0x80 b.length
      omega
  | list items =>
    rw [Item.encode, List.length_append]
    have := length_lengthPrefix_pos 0xc0 (encodeAll items).length
    omega

mutual

/-- **An encoded item is read back**, whatever follows it. -/
theorem decodeItem_encode : ∀ (i : Item) (fuel : ℕ), 2 * i.encode.length ≤ fuel + 1 →
    i.encode.length < 2 ^ 64 → ∀ rest, decodeItem fuel (i.encode ++ rest) = some (i, rest)
  | .str b, fuel, hfuel, hlen, rest => by
    have hpos := Item.length_encode_pos (.str b)
    obtain ⟨fuel, rfl⟩ : ∃ k, fuel = k + 1 := ⟨fuel - 1, by omega⟩
    rcases Item.encode_str b with ⟨x, rfl, hx, h⟩ | ⟨hsmall, h⟩
    · rw [h, List.singleton_append, decodeItem, if_pos hx]
    · rw [h, List.length_append] at hlen
      rw [h, List.append_assoc]
      exact decodeItem_str hsmall (by omega) fuel rest
  | .list items, fuel, hfuel, hlen, rest => by
    have hpos := length_lengthPrefix_pos 0xc0 (encodeAll items).length
    rw [Item.encode, List.length_append] at hfuel hlen
    obtain ⟨fuel, rfl⟩ : ∃ k, fuel = k + 1 := ⟨fuel - 1, by omega⟩
    rw [Item.encode, List.append_assoc]
    exact decodeItem_list (decodeAll_encodeAll items fuel (by omega) (by omega)) (by omega) rest

/-- **Encoded items are read back.** -/
theorem decodeAll_encodeAll : ∀ (items : List Item) (fuel : ℕ),
    2 * (encodeAll items).length ≤ fuel → (encodeAll items).length < 2 ^ 64 →
    decodeAll fuel (encodeAll items) = some items
  | [], fuel, _, _ => by rw [encodeAll, decodeAll]
  | i :: items, fuel, hfuel, hlen => by
    have hpos := i.length_encode_pos
    rw [encodeAll, List.length_append] at hfuel hlen
    obtain ⟨fuel, rfl⟩ : ∃ k, fuel = k + 1 := ⟨fuel - 1, by omega⟩
    have hitem := decodeItem_encode i fuel (by omega) (by omega) (encodeAll items)
    have hrest := decodeAll_encodeAll items fuel (by omega) (by omega)
    rw [encodeAll]
    cases henc : i.encode ++ encodeAll items with
    | nil =>
      rw [← List.length_eq_zero_iff, List.length_append] at henc
      omega
    | cons b tail =>
      rw [henc] at hitem
      rw [decodeAll, hitem]
      show (decodeAll fuel (encodeAll items)).bind _ = _
      rw [hrest]
      rfl

end

/-- **The decoder is the inverse of the encoder**, on what fits in memory. -/
theorem decode_encode (i : Item) (hlen : i.encode.length < 2 ^ 64) : decode i.encode = some i := by
  unfold decode
  have hitem := decodeItem_encode i (2 * i.encode.length + 1) (by omega) hlen []
  rw [List.append_nil] at hitem
  rw [hitem]
  rfl

/-! ## How long an encoding is -/

mutual

/-- A bound on the length of an encoding: nine bytes for each prefix. -/
def Item.weight : Item → ℕ
  | .str b => b.length + 9
  | .list items => weightAll items + 9

/-- The same for the payload of a list. -/
def weightAll : List Item → ℕ
  | [] => 0
  | i :: items => i.weight + weightAll items

end

theorem length_lengthPrefix_le (offset len : ℕ) : (lengthPrefix offset len).length ≤ 9 := by
  unfold lengthPrefix
  split
  · simp
  · have hle : ((beBytes 8 len).dropWhile (· == 0)).length ≤ (beBytes 8 len).length :=
      (List.dropWhile_suffix _).length_le
    rw [length_beBytes] at hle
    simp only [List.length_cons]
    omega

mutual

theorem Item.length_encode_le : ∀ i : Item, i.encode.length ≤ i.weight
  | .str b => by
    rcases Item.encode_str b with ⟨x, -, -, h⟩ | ⟨-, h⟩
    · rw [h, Item.weight, List.length_singleton]
      omega
    · have hle := length_lengthPrefix_le 0x80 b.length
      rw [h, Item.weight, List.length_append]
      omega
  | .list items => by
    have hle := length_lengthPrefix_le 0xc0 (encodeAll items).length
    have hall := length_encodeAll_le items
    rw [Item.encode, Item.weight, List.length_append]
    omega

theorem length_encodeAll_le : ∀ items : List Item, (encodeAll items).length ≤ weightAll items
  | [] => le_rfl
  | i :: items => by
    have hi := i.length_encode_le
    have hall := length_encodeAll_le items
    rw [encodeAll, weightAll, List.length_append]
    omega

end

/-- An integer has at most eight digits. -/
theorem Item.weight_uint_le (x : ℕ) : (Item.uint x).weight ≤ 17 := by
  have hle : ((beBytes 8 x).dropWhile (· == 0)).length ≤ (beBytes 8 x).length :=
    (List.dropWhile_suffix _).length_le
  rw [length_beBytes] at hle
  rw [Item.uint, Item.weight]
  omega

/-- **A string is no longer than its encoding.** -/
theorem Item.length_le_encode_str (b : List UInt8) : b.length ≤ (Item.str b).encode.length := by
  rcases Item.encode_str b with ⟨x, hx, -, h⟩ | ⟨-, h⟩
  · rw [h, hx]
  · rw [h, List.length_append]
    exact Nat.le_add_left _ _

/-- **An element's encoding is part of the list's.** -/
theorem Item.length_encode_le_of_mem {i : Item} {items : List Item} (h : i ∈ items) :
    i.encode.length ≤ (Item.list items).encode.length := by
  have hall : i.encode.length ≤ (encodeAll items).length := by
    induction items with
    | nil => exact nomatch h
    | cons j items ih =>
      rw [encodeAll, List.length_append]
      rcases List.mem_cons.mp h with rfl | hmem
      · exact Nat.le_add_right _ _
      · exact (ih hmem).trans (Nat.le_add_left _ _)
  rw [Item.encode, List.length_append]
  exact hall.trans (Nat.le_add_left _ _)

end Rlp
