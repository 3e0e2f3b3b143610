import RegisterCode.Error

/-! Instructions and their 32-bit words. A field that does not fit is an error,
never a truncated word, and the fields are checked in the order A, then B or its
wide form, then C, so the first fault is the one reported. -/
namespace RegisterCode

/-- One instruction. A wide operand stands in `b`, the widest one in `a`; a field
that the opcode's layout does not carry is kept and ignored. -/
structure Instruction where
  op : Opcode
  a : Int := 0
  b : Int := 0
  c : Int := 0
  line : UInt32 := 0
deriving DecidableEq

namespace Instruction

def maxA : Nat := 255
def maxB : Nat := 511
def maxBx : Nat := 262143
def maxAx : Nat := 67108863
def biasSBx : Nat := 131071
def maxConstantSlot : Nat := 255

/-- The operand that names a constant slot: the slots count down from −1. -/
def constantOperand (slot : Int) : Int :=
  -slot - 1

def constantSlot (operand : Int) : Int :=
  -operand - 1

@[simp] theorem constantSlot_constantOperand (slot : Int) :
    constantSlot (constantOperand slot) = slot := by
  unfold constantSlot constantOperand
  omega

def fault (i : Instruction) (field : Field) (value min max : Int) : Error :=
  .outOfRange ⟨i.op.name, field, value, min, max, i.line⟩

def store (i : Instruction) (field : Field) (min max value : Int) : Except Error Nat :=
  if min ≤ value ∧ value ≤ max then .ok (value - min).toNat
  else .error (i.fault field value min max)

/-- A register-or-constant field marks constants by its top bit; the other uses
take the nine bits as they are. -/
def storeArg (i : Instruction) (field : Field) (use : ArgUse) (value : Int) : Except Error Nat :=
  match use with
  | .registerOrConstant => do
    let _ ← i.store field (-256) 255 value
    .ok (if value < 0 then (constantSlot value).toNat + 256 else value.toNat)
  | _ => i.store field 0 maxB value

/-- Bits 0 to 5 hold the opcode, 6 to 13 A, 14 to 22 C and 23 to 31 B. A wide
operand takes the place of C and B, the widest that of A as well. -/
def encode (i : Instruction) : Except Error UInt32 :=
  match i.op.layout with
  | .abc => do
    let a ← i.store .a 0 maxA i.a
    let b ← i.storeArg .b i.op.argB i.b
    let c ← i.storeArg .c i.op.argC i.c
    .ok (.ofNat (i.op.number + 64 * a + 16384 * c + 8388608 * b))
  | .abx => do
    let a ← i.store .a 0 maxA i.a
    let b ← i.store .bx 0 maxBx i.b
    .ok (.ofNat (i.op.number + 64 * a + 16384 * b))
  | .asbx => do
    let a ← i.store .a 0 maxA i.a
    let b ← i.store .sbx (-biasSBx) (maxBx - biasSBx) i.b
    .ok (.ofNat (i.op.number + 64 * a + 16384 * b))
  | .ax => do
    let a ← i.store .ax 0 maxAx i.a
    .ok (.ofNat (i.op.number + 64 * a))

def loadArg (use : ArgUse) (bits : Nat) : Int :=
  match use with
  | .registerOrConstant => if bits < 256 then bits else constantOperand (bits - 256)
  | _ => bits

/-- The instruction of a word; the layout's absent fields and the line are zero. -/
def decode (word : UInt32) : Except Error Instruction :=
  let bits := word.toNat
  match Opcode.ofNumber? (bits % 64) with
  | none => .error (.outOfRange ⟨"decode", .opcode, (bits % 64 : Nat), 0, 46, 0⟩)
  | some op =>
    let a : Nat := bits / 64 % 256
    .ok <| match op.layout with
    | .abc =>
      ⟨op, a, loadArg op.argB (bits / 8388608), loadArg op.argC (bits / 16384 % 512), 0⟩
    | .abx => ⟨op, a, (bits / 16384 : Nat), 0, 0⟩
    | .asbx => ⟨op, a, (bits / 16384 : Nat) - biasSBx, 0, 0⟩
    | .ax => ⟨op, (bits / 64 : Nat), 0, 0, 0⟩

end Instruction

end RegisterCode
