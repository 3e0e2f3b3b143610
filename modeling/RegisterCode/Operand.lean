import RegisterCode.Text.Quoted

/-! Values as instructions can take them: already in a place, or still to be
loaded from one. -/
namespace RegisterCode

inductive Operand
  | register (index : UInt8)
  | constant (slot : UInt32)
  | upvalue (index : UInt8)
  | global (name : String)
  | boolean (value : Bool)
  | nil
deriving DecidableEq

namespace Operand

def register? : Operand → Option UInt8
  | .register index => some index
  | _ => none

def text : Operand → String
  | .register index => s!"Register({index})"
  | .constant slot => s!"Constant({slot})"
  | .upvalue index => s!"Upvalue({index})"
  | .global name => s!"Global({Text.quote name})"
  | .boolean value => s!"Literal(Bool({value}))"
  | .nil => "Literal(Nil)"

end Operand

end RegisterCode
