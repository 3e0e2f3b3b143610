import RegisterCode.Instruction
import RegisterCode.Operand

/-! Short operands: the registers and low constants that fit into one field of an
instruction. -/
namespace RegisterCode.Operand

/-- The register-or-constant operand, for the values that have one. A slot is read
as a signed word of 32 bits before it is compared with the largest short slot. -/
def short? : Operand → Option Int
  | .register index => some index.toNat
  | .constant slot =>
    let slot := (slot.toNat : Int).bmod 4294967296
    if slot ≤ Instruction.maxConstantSlot then some (Instruction.constantOperand slot) else none
  | _ => none

end RegisterCode.Operand
