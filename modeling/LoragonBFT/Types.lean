import LoragonBFT.Util.Effects
import LoragonBFT.Util.Rlp

/-!
# Bytes, identifiers and faults

A block identifier is 32 bytes whose first four are the block number, big
endian: `Header.ID` overwrites the first four bytes of the digest with the
number, and `block.Number` reads them back. Numbers are `uint32` and wrap:
the genesis block has a parent identifier starting with `0xffffffff`, and
its own number is therefore zero.

Go has run-time faults where Lean would have a type error. They are kept as
values, so that a call that would take the process down is a result one can
reason about.
-/

namespace LoragonBFT

/-- A run-time fault of the Go program. -/
inductive Panic where
  /-- A nil pointer was followed. -/
  | nilDereference
  /-- A slice was indexed past its end. -/
  | indexOutOfRange
  /-- A call of `panic`. -/
  | explicit (what : String)
  /-- Not a fault: a loop that never ends. -/
  | diverges
deriving DecidableEq, Repr

/-- Follow a pointer, faulting where it is nil. -/
def deref {α : Type} : Option α → Except Panic α
  | some a => .ok a
  | none => .error .nilDereference

/-- A byte slice. -/
abbrev Bytes := List UInt8

/-- Byte slices are compared byte by byte. -/
instance instLawfulBEqBytes : LawfulBEq Bytes := inferInstance

/-- `types.Bytes32`. -/
abbrev Bytes32 := BitVec 256

/-- A point in time, as `time.Time` compares them. -/
abbrev Time := ℤ

/-- `Bytes32.Bytes`. -/
def Bytes32.bytes (x : Bytes32) : Bytes := Rlp.beBytes 32 x.toNat

theorem Bytes32.bytes_injective : Function.Injective Bytes32.bytes := by
  intro x y h
  have hlt : ∀ z : Bytes32, z.toNat < 256 ^ 32 := fun z => lt_of_lt_of_eq z.isLt (by norm_num)
  exact BitVec.eq_of_toNat_eq (Rlp.beBytes_injOn (hlt x) (hlt y) h)

/-- `block.Number`: the first four bytes of an identifier. -/
def number (blockID : Bytes32) : UInt32 := UInt32.ofNat (blockID.toNat / 2 ^ 224)

/-- Overwrite the first four bytes of a digest by a block number, as
`binary.BigEndian.PutUint32(id[:], num)` does. -/
def putNumber (num : UInt32) (digest : Bytes32) : Bytes32 :=
  BitVec.ofNat 256 (num.toNat * 2 ^ 224 + digest.toNat % 2 ^ 224)

/-- **The number written into an identifier is the number read from it.** -/
@[simp] theorem number_putNumber (num : UInt32) (digest : Bytes32) :
    number (putNumber num digest) = num := by
  have hnum : num.toNat < 2 ^ 32 := num.toNat_lt
  have hlow : digest.toNat % 2 ^ 224 < 2 ^ 224 := Nat.mod_lt _ (by norm_num)
  have hlt : num.toNat * 2 ^ 224 + digest.toNat % 2 ^ 224 < 2 ^ 256 := by omega
  have hdiv : (num.toNat * 2 ^ 224 + digest.toNat % 2 ^ 224) / 2 ^ 224 = num.toNat := by omega
  unfold number putNumber
  rw [BitVec.toNat_ofNat, Nat.mod_eq_of_lt hlt, hdiv]
  simp

/-- What is left of a digest once the number has been written over it: two
identifiers with the same number agree exactly when these do. -/
def tail28 (digest : Bytes32) : ℕ := digest.toNat % 2 ^ 224

theorem tail28_of_putNumber_eq {num₁ num₂ : UInt32} {d₁ d₂ : Bytes32}
    (h : putNumber num₁ d₁ = putNumber num₂ d₂) : tail28 d₁ = tail28 d₂ := by
  have hlow : ∀ d : Bytes32, d.toNat % 2 ^ 224 < 2 ^ 224 := fun d => Nat.mod_lt _ (by norm_num)
  have hmod : ∀ (n : UInt32) (d : Bytes32), (putNumber n d).toNat % 2 ^ 224 = tail28 d := by
    intro n d
    have hn : n.toNat < 2 ^ 32 := n.toNat_lt
    have hd := hlow d
    have hlt : n.toNat * 2 ^ 224 + d.toNat % 2 ^ 224 < 2 ^ 256 := by omega
    rw [putNumber, BitVec.toNat_ofNat, Nat.mod_eq_of_lt hlt, tail28]
    omega
  rw [← hmod num₁ d₁, ← hmod num₂ d₂, h]

end LoragonBFT
