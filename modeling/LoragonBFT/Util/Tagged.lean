import Mathlib.Data.List.Basic
import Mathlib.Tactic.Ring

/-!
# Tagged fields

A record is written as a sequence of fields, each with a key that says its
number and its type, and a field that has its default value is left out. The
reader goes through the fields of the record in their order; where the next key
has a larger number, or nothing is left, the field keeps its default.

There are two types here: an unsigned integer, in base 128 with the least
significant digit first and the high bit set on all but the last, and a string
of bytes preceded by its length. A record inside a record is a string of bytes.
-/

namespace Tagged

/-! ## Integers -/

/-- The digits of a number in base 128, all but the last marked. -/
def uvarint (x : ℕ) : List UInt8 :=
  if x < 128 then [UInt8.ofNat x] else UInt8.ofNat (128 + x % 128) :: uvarint (x / 128)

/-- Read a number and return the bytes after it. -/
def readUvarint : List UInt8 → Option (ℕ × List UInt8)
  | [] => none
  | b :: rest =>
    if b.toNat < 128 then some (b.toNat, rest)
    else (readUvarint rest).map (fun r => (b.toNat - 128 + 128 * r.1, r.2))

/-- **A number is read back**, whatever follows it. -/
theorem readUvarint_uvarint (x : ℕ) (rest : List UInt8) :
    readUvarint (uvarint x ++ rest) = some (x, rest) := by
  induction x using Nat.strongRecOn with
  | ind x ih =>
    rw [uvarint]
    split
    · rename_i hlast
      have hdigit : (UInt8.ofNat x).toNat = x := by
        rw [UInt8.toNat_ofNat', Nat.mod_eq_of_lt (by omega)]
      rw [List.singleton_append, readUvarint, hdigit, if_pos hlast]
    · rename_i hmore
      have hdigit : (UInt8.ofNat (128 + x % 128)).toNat = 128 + x % 128 := by
        rw [UInt8.toNat_ofNat', Nat.mod_eq_of_lt (by omega)]
      rw [List.cons_append, readUvarint, hdigit, if_neg (by omega), ih (x / 128) (by omega)]
      show some (128 + x % 128 - 128 + 128 * (x / 128), rest) = _
      rw [Nat.add_sub_cancel_left, Nat.mod_add_div]

theorem uvarint_ne_nil (x : ℕ) : uvarint x ≠ [] := by
  rw [uvarint]
  split <;> exact List.cons_ne_nil _ _

/-- **A number below `128 ^ n` has no more than `n` digits.** -/
theorem length_uvarint_le {n x : ℕ} (h : x < 128 ^ (n + 1)) : (uvarint x).length ≤ n + 1 := by
  induction n generalizing x with
  | zero =>
    rw [uvarint, if_pos (by simpa using h)]
    exact le_rfl
  | succ n ih =>
    rw [uvarint]
    split
    · exact Nat.succ_le_succ (Nat.zero_le _)
    · refine Nat.succ_le_succ (ih ?_)
      rw [Nat.div_lt_iff_lt_mul (by norm_num), ← pow_succ]
      exact h

/-- Numbers one after the other. -/
def packed (l : List ℕ) : List UInt8 := l.flatMap uvarint

/-- Read numbers to the end. Each has at least one byte, so the length of the
input is fuel enough. -/
def readPacked : ℕ → List UInt8 → Option (List ℕ)
  | _, [] => some []
  | 0, _ :: _ => none
  | fuel + 1, b :: rest => do
    let (x, rest) ← readUvarint (b :: rest)
    return x :: (← readPacked fuel rest)

theorem length_le_packed (l : List ℕ) : l.length ≤ (packed l).length := by
  induction l with
  | nil => exact le_rfl
  | cons x l ih =>
    have hpos := List.length_pos_iff.mpr (uvarint_ne_nil x)
    rw [packed, List.flatMap_cons, List.length_append, List.length_cons]
    rw [packed] at ih
    omega

/-- **Numbers one after the other are read back.** -/
theorem readPacked_packed {fuel : ℕ} {l : List ℕ} (h : l.length ≤ fuel) :
    readPacked fuel (packed l) = some l := by
  induction l generalizing fuel with
  | nil => cases fuel <;> rfl
  | cons x l ih =>
    obtain ⟨fuel, rfl⟩ := Nat.exists_eq_succ_of_ne_zero (n := fuel) (by
      rintro rfl
      exact absurd h (by simp))
    have hread := readUvarint_uvarint x (packed l)
    rw [packed, List.flatMap_cons, ← packed]
    cases hbytes : uvarint x ++ packed l with
    | nil => exact absurd (List.append_eq_nil_iff.mp hbytes).1 (uvarint_ne_nil x)
    | cons b rest =>
      rw [hbytes] at hread
      rw [readPacked, hread]
      show (readPacked fuel (packed l)).bind _ = _
      rw [ih (Nat.le_of_succ_le_succ h)]
      rfl

/-! ## Fields -/

/-- The value of a field. -/
inductive Value where
  /-- An unsigned integer. -/
  | varint (x : ℕ)
  /-- A string of bytes. -/
  | bytes (b : List UInt8)

/-- The key and the value of the field with a given number. -/
def Value.encode (number : ℕ) : Value → List UInt8
  | .varint x => uvarint (8 * number) ++ uvarint x
  | .bytes b => uvarint (8 * number + 2) ++ (uvarint b.length ++ b)

/-- The fields of a record, numbered from `k` on; those left out are `none`. -/
def encodeFields : ℕ → List (Option Value) → List UInt8
  | _, [] => []
  | k, none :: fields => encodeFields (k + 1) fields
  | k, some v :: fields => v.encode k ++ encodeFields (k + 1) fields

/-- Read the field with a given number, if it is the next one. -/
def readField (number : ℕ) : List UInt8 → Option (Option Value × List UInt8)
  | [] => some (none, [])
  | b :: bs => do
    let (key, rest) ← readUvarint (b :: bs)
    if number < key / 8 then return (none, b :: bs)
    else if key = 8 * number then
      let (x, rest) ← readUvarint rest
      return (some (.varint x), rest)
    else if key = 8 * number + 2 then
      let (len, rest) ← readUvarint rest
      if len ≤ rest.length then return (some (.bytes (rest.take len)), rest.drop len) else none
    else none

/-- Read a record of `count` fields, numbered from `k` on. -/
def readFields : ℕ → ℕ → List UInt8 → Option (List (Option Value))
  | 0, _, bs => if bs = [] then some [] else none
  | count + 1, k, bs => do
    let (v, rest) ← readField k bs
    return v :: (← readFields count (k + 1) rest)

/-- What is read once the key is known. -/
theorem readField_of_key {number key : ℕ} {bs rest : List UInt8}
    (h : readUvarint bs = some (key, rest)) :
    readField number bs =
      if number < key / 8 then some (none, bs)
      else if key = 8 * number then
        (readUvarint rest).map (fun r => (some (.varint r.1), r.2))
      else if key = 8 * number + 2 then
        (readUvarint rest).bind (fun r =>
          if r.1 ≤ r.2.length then some (some (.bytes (r.2.take r.1)), r.2.drop r.1) else none)
      else none := by
  cases bs with
  | nil => exact nomatch h
  | cons b bs =>
    rw [readField, h]
    show (if _ then _ else _) = _
    split
    · rfl
    split
    · cases readUvarint rest <;> rfl
    split
    · cases readUvarint rest <;> rfl
    · rfl

/-- **A field is read back.** -/
theorem readField_encode (number : ℕ) (v : Value) (rest : List UInt8) :
    readField number (v.encode number ++ rest) = some (some v, rest) := by
  cases v with
  | varint x =>
    rw [Value.encode, List.append_assoc, readField_of_key (readUvarint_uvarint _ _),
      if_neg (by omega), if_pos rfl, readUvarint_uvarint]
    rfl
  | bytes b =>
    rw [Value.encode, List.append_assoc, readField_of_key (readUvarint_uvarint _ _),
      if_neg (by omega), if_neg (by omega), if_pos rfl, List.append_assoc, readUvarint_uvarint,
      Option.bind_some]
    dsimp only
    rw [if_pos (by simp), List.take_left, List.drop_left]

/-- **A field that was left out is found missing**: the next one has a larger
number, or there is none. -/
theorem readField_encodeFields {number k : ℕ} (h : number < k) (fields : List (Option Value)) :
    readField number (encodeFields k fields) = some (none, encodeFields k fields) := by
  induction fields generalizing k with
  | nil => rfl
  | cons field fields ih =>
    cases field with
    | none => exact ih (Nat.lt_succ_of_lt h)
    | some v =>
      rw [encodeFields]
      cases v with
      | varint x =>
        rw [Value.encode, List.append_assoc, readField_of_key (readUvarint_uvarint _ _),
          if_pos (by omega)]
      | bytes b =>
        rw [Value.encode, List.append_assoc, readField_of_key (readUvarint_uvarint _ _),
          if_pos (by omega)]

/-- **A record is read back.** -/
theorem readFields_encodeFields (k : ℕ) (fields : List (Option Value)) :
    readFields fields.length k (encodeFields k fields) = some fields := by
  induction fields generalizing k with
  | nil => rfl
  | cons field fields ih =>
    have hfield : readField k (encodeFields k (field :: fields))
        = some (field, encodeFields (k + 1) fields) := by
      cases field with
      | none => exact readField_encodeFields k.lt_succ_self fields
      | some v => exact readField_encode k v _
    rw [List.length_cons, readFields, hfield]
    show (readFields fields.length (k + 1) (encodeFields (k + 1) fields)).bind _ = _
    rw [ih]
    rfl

/-! ## Defaults -/

/-- An integer; zero is left out. -/
def uint (x : ℕ) : Option Value := if x = 0 then none else some (.varint x)

/-- A string; the empty one is left out. -/
def str (b : List UInt8) : Option Value := if b = [] then none else some (.bytes b)

/-- What a pointer points to; nil is left out, and nothing else is. -/
def ptr {α : Type} (write : α → List UInt8) (p : Option α) : Option Value :=
  p.map (fun a => .bytes (write a))

/-- Read an integer, zero if it was left out. -/
def toUint : Option Value → Option ℕ
  | none => some 0
  | some (.varint x) => some x
  | some (.bytes _) => none

/-- Read a string, the empty one if it was left out. -/
def toStr : Option Value → Option (List UInt8)
  | none => some []
  | some (.varint _) => none
  | some (.bytes b) => some b

/-- Read what a pointer points to, nil if it was left out. -/
def toPtr {α : Type} (read : List UInt8 → Option α) : Option Value → Option (Option α)
  | none => some none
  | some (.varint _) => none
  | some (.bytes b) => (read b).map some

@[simp] theorem toUint_uint (x : ℕ) : toUint (uint x) = some x := by
  unfold uint
  split
  · rename_i h
    rw [h]
    rfl
  · rfl

@[simp] theorem toStr_str (b : List UInt8) : toStr (str b) = some b := by
  unfold str
  split
  · rename_i h
    rw [h]
    rfl
  · rfl

/-- **A string adds its length**, and the digits of its key and of its length. -/
theorem length_encodeFields_str {k n : ℕ} {b : List UInt8} (hk : 8 * k + 2 < 128)
    (hb : b.length < 128 ^ (n + 1)) (fields : List (Option Value)) :
    b.length + (encodeFields (k + 1) fields).length ≤ (encodeFields k (str b :: fields)).length
      ∧ (encodeFields k (str b :: fields)).length
        ≤ b.length + (n + 2) + (encodeFields (k + 1) fields).length := by
  have hkey : (uvarint (8 * k + 2)).length ≤ 1 := length_uvarint_le (n := 0) (by simpa using hk)
  have hlength := length_uvarint_le hb
  unfold str
  split
  · rename_i hnil
    rw [hnil, encodeFields, List.length_nil]
    omega
  · rw [encodeFields, Value.encode, List.length_append, List.length_append, List.length_append]
    omega

theorem toPtr_ptr {α : Type} {write : α → List UInt8} {read : List UInt8 → Option α}
    {p : Option α} (h : ∀ a ∈ p, read (write a) = some a) : toPtr read (ptr write p) = some p := by
  cases p with
  | none => rfl
  | some a =>
    show (read (write a)).map some = _
    rw [h a rfl]
    rfl

end Tagged
