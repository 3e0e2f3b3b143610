import RegisterCode.Instruction

/-! The tables an instruction may refer to. An instruction is accepted only when
its word exists and every constant, upvalue and child function it names does. -/
namespace RegisterCode

structure Tables where
  constants : Nat := 0
  upvalues : Nat := 0
  prototypes : Nat := 0
  /-- Whether another function encloses the owner. -/
  nested : Bool := false
deriving DecidableEq

/-- The outermost function sees its environment and no other upvalue. -/
def Tables.visibleUpvalues (tables : Tables) : Nat :=
  if tables.nested then tables.upvalues else min tables.upvalues 1

namespace Instruction

def within (i : Instruction) (field : Field) (index : Int) (size : Nat) : Except Error Unit :=
  if index.toNat < size then .ok ()
  else .error (i.fault field index 0 ((size : Int) - 1))

def withinConstants (i : Instruction) (tables : Tables) (use : ArgUse) (operand : Int) :
    Except Error Unit :=
  if i.op.layout = .abc ∧ use = .registerOrConstant ∧ operand < 0 then
    i.within .constant (constantSlot operand) tables.constants
  else .ok ()

/-- The table entry named by an operand whose meaning depends on the opcode. An
extra argument is a constant's index only after the opcode that asks for one. -/
def checkEntry (i : Instruction) (tables : Tables) (previous : Option Instruction) :
    Except Error Unit :=
  match i.op with
  | .loadK => i.within .constant i.b tables.constants
  | .extraArg =>
    if previous.any (·.op == .loadKX) then i.within .constant i.a tables.constants else .ok ()
  | .getUpval | .setUpval | .getTabUp => i.within .upvalue i.b tables.visibleUpvalues
  | .setTabUp => i.within .upvalue i.a tables.visibleUpvalues
  | .closure => i.within .prototype i.b tables.prototypes
  | _ => .ok ()

def accept (i : Instruction) (tables : Tables) (previous : Option Instruction) :
    Except Error UInt32 := do
  let word ← i.encode
  i.checkEntry tables previous
  i.withinConstants tables i.op.argB i.b
  i.withinConstants tables i.op.argC i.c
  .ok word

end Instruction

end RegisterCode
