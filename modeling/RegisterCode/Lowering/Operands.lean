import RegisterCode.ChunkBuilder
import RegisterCode.Tree

/-! The steps from which constructs are lowered: bringing operands into place and
letting go of the registers they held. -/
namespace RegisterCode

abbrev Lower : Type → Type :=
  Action ChunkBuilder

namespace Lower
open ChunkBuilder

def allocate : Lower UInt8 :=
  onCurrent FunctionBuilder.allocate

def emit (op : Opcode) (a b c : Int) : Lower Unit := do
  let _ ← onCurrent (FunctionBuilder.emit { op, a, b, c })

def jump : Lower Nat :=
  onCurrent FunctionBuilder.jump

def aimHere (index : Nat) : Lower Unit :=
  onCurrent (FunctionBuilder.aimHere index)

def loadConstant (target : UInt8) (slot : Nat) : Lower Unit := do
  let _ ← onCurrent (FunctionBuilder.loadConstant target slot)

def free : Operand → Lower Unit
  | .register index => onCurrent (FunctionBuilder.free index)
  | _ => pure ()

def releasing (operand : Operand) (use : Lower Unit) : Lower Unit := fun b =>
  match use b with
  | .ok _ b => free operand b
  | .error error b =>
    match free operand b with
    | .ok _ b => .error error b
    | .error error b => .error error b

def place : Option UInt8 → Lower UInt8
  | some target => pure target
  | none => allocate

def registerOf (operand : Operand) : Lower UInt8 :=
  match operand.register? with
  | some index => pure index
  | none => throw (.discipline (.notInRegister operand))

def shortOf (operand : Operand) : Lower Int :=
  match operand.short? with
  | some field => pure field
  | none => throw (.discipline (.notShort operand))

def constant (c : Constant) : Lower Operand := do
  return .constant (← onCurrent (FunctionBuilder.intern c))

/-- The name of a global as a short operand; a constant out of reach is loaded. -/
def key (name : String) : Lower Operand := do
  let slot ← onCurrent (FunctionBuilder.intern (.string name))
  match (Operand.constant slot).short? with
  | some _ => return .constant slot
  | none =>
    let target ← allocate
    loadConstant target slot.toNat
    return .register target

/-- The table of globals, which a local may shadow. -/
def environment : Lower Operand := do
  return (← resolve FunctionBuilder.environmentName).operand

def noEnvironment : Error :=
  .unresolved .upvalue FunctionBuilder.environmentName

def loadGlobal (name : String) (target : UInt8) : Lower Unit := do
  let key ← key name
  match ← environment with
  | .upvalue index =>
    let field ← shortOf key
    releasing key (emit .getTabUp target.toNat index.toNat field)
  | .register index =>
    let field ← shortOf key
    releasing key (emit .getTable target.toNat index.toNat field)
  | _ => releasing key (throw noEnvironment)

def storeGlobal (name : String) (value : Operand) : Lower Unit := do
  let key ← key name
  let index ← shortOf key
  let field ← shortOf value
  match ← environment with
  | .upvalue table => emit .setTabUp table.toNat index field
  | .register table => emit .setTable table.toNat index field
  | _ => throw noEnvironment
  free key

def load (operand : Operand) (target : UInt8) : Lower Unit :=
  match operand with
  | .register index =>
    if index = target then pure () else emit .move target.toNat index.toNat 0
  | .constant slot => loadConstant target slot.toNat
  | .boolean value => emit .loadBool target.toNat value.toNat 0
  | .nil => emit .loadNil target.toNat 0 0
  | .upvalue index => emit .getUpval target.toNat index.toNat 0
  | .global name => loadGlobal name target

def inRegister : Operand → Lower Operand
  | .register index => pure (.register index)
  | operand => do
    let target ← allocate
    load operand target
    return .register target

def shortened (operand : Operand) : Lower Operand :=
  match operand.short? with
  | some _ => pure operand
  | none => inRegister operand

def settle (operand : Operand) : Option UInt8 → Lower Operand
  | none => pure operand
  | some target => do
    load operand target
    free operand
    return .register target

end Lower

end RegisterCode
