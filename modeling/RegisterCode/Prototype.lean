import RegisterCode.Constant
import RegisterCode.Instruction

/-! Finished functions. A prototype is what is left of a function when its code
is complete: words, tables and debug records, with the functions nested in it. -/
namespace RegisterCode

/-- Where a closure finds one of its upvalues when it is made: in a register of
the enclosing function, or among that function's own upvalues. -/
structure Capture where
  name : String
  inStack : Bool
  index : UInt8
deriving DecidableEq

structure LocalRange where
  name : String
  startPc : UInt32
  endPc : UInt32
deriving DecidableEq

structure Prototype where
  source : Option String := none
  firstLine : UInt32 := 0
  lastLine : UInt32 := 0
  paramCount : UInt8 := 0
  isVararg : Bool := false
  stackSize : UInt8 := 0
  code : List UInt32 := []
  lines : List UInt32 := []
  constants : List Constant := []
  upvalues : List Capture := []
  children : List Prototype := []
  /-- The locals of scopes closed later come first. -/
  locals : List LocalRange := []

namespace Prototype

def instructions (p : Prototype) : Except Error (List Instruction) :=
  (p.code.zip p.lines).mapM fun (word, line) => do
    let i ← Instruction.decode word
    .ok { i with line }

def opcodes (p : Prototype) : List Opcode :=
  p.code.filterMap fun word => Opcode.ofNumber? (word.toNat % 64)

mutual

def functionCount : Prototype → Nat
  | { children, .. } => 1 + functionCounts children

def functionCounts : List Prototype → Nat
  | [] => 0
  | p :: rest => functionCount p + functionCounts rest

end

end Prototype

end RegisterCode
