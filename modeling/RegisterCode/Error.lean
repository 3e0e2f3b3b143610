import RegisterCode.Opcode
import RegisterCode.Operand
import RegisterCode.Span

/-! What can go wrong while code is generated. Errors are causes; their wording
is fixed in one place, `Error.message`, so that no operation carries text. -/
namespace RegisterCode

inductive Field
  | a | b | c | bx | sbx | ax
  | register | upvalue | constant | prototype | opcode
deriving DecidableEq

def Field.name : Field → String
  | .a => "A"
  | .b => "B"
  | .c => "C"
  | .bx => "Bx"
  | .sbx => "sBx"
  | .ax => "Ax"
  | .register => "register"
  | .upvalue => "upvalue"
  | .constant => "constant"
  | .prototype => "prototype"
  | .opcode => "opcode"

inductive NameKind
  | variable | upvalue | constant | loopTarget
deriving DecidableEq

def NameKind.name : NameKind → String
  | .variable => "local"
  | .upvalue => "upvalue"
  | .constant => "constant"
  | .loopTarget => "loop target"

structure RangeFault where
  /-- The opcode, allocator or table that set the interval. -/
  context : String
  field : Field
  value : Int
  min : Int
  max : Int
  line : UInt32
deriving DecidableEq

/-- A use of the builders that breaks their last-in first-out discipline. -/
inductive Violation
  | noScopeToClose
  | noOpenScope
  | noScopeForLocal
  | noTemporary
  | neverAllocated (register available : Nat)
  | freedOutOfOrder (register available : Nat)
  | noInstruction (index size : Nat)
  | jumpDiscarded (index : Nat)
  | notJump (index : Nat) (op : Opcode)
  | noSectionToClose
  | noSectionToDiscard
  | jumpPending (start label : Nat)
  | jumpAwaitsTarget (index : Nat)
  | noLoopToClose
  | continuesUnplaced (count : Nat)
  | scopesOpen (function : String) (count : Nat)
  | sectionsOpen (function : String) (count : Nat)
  | loopsOpen (function : String) (count : Nat)
  | temporariesPushed (function : String) (count : Nat)
  | noFunctionToClose
  | functionsOpen (count : Nat)
  | localMisplaced (name : String) (bound holding : Nat)
  | notInRegister (found : Operand)
  | notShort (found : Operand)
  | notAssignable (name : String) (found : Operand)
deriving DecidableEq

def Violation.text : Violation → String
  | .noScopeToClose => "exit_scope with no open scope"
  | .noOpenScope => "no open scope"
  | .noScopeForLocal => "declare_local with no open scope"
  | .noTemporary => "pop_temporary with no pushed temporary"
  | .neverAllocated register available =>
    s!"release of register {register} which was never allocated (available is {available})"
  | .freedOutOfOrder register available =>
    s!"release of register {register} out of order (available is {available})"
  | .noInstruction index size =>
    s!"instruction {index} does not exist (stream has {size})"
  | .jumpDiscarded index => s!"jump {index} was discarded before it was patched"
  | .notJump index op => s!"instruction {index} is {op.name}, not a jump"
  | .noSectionToClose => "no open section to close"
  | .noSectionToDiscard => "no open section to roll back"
  | .jumpPending start label =>
    s!"cannot discard instructions from {start}: pending jump at {label} depends on them"
  | .jumpAwaitsTarget index =>
    s!"cannot pop instruction {index}: it is a jump still waiting for its target"
  | .noLoopToClose => "exit_loop without a matching enter_loop"
  | .continuesUnplaced count =>
    s!"{count} continue jump(s) left without a target at loop exit"
  | .scopesOpen function count =>
    s!"function '{function}' finished with {count} nested scope(s) open"
  | .sectionsOpen function count =>
    s!"function '{function}' finished with {count} section(s) open"
  | .loopsOpen function count => s!"function '{function}' finished inside {count} loop(s)"
  | .temporariesPushed function count =>
    s!"function '{function}' finished with {count} temporary register(s) still pushed"
  | .noFunctionToClose => "finish_function with no nested function open"
  | .functionsOpen count => s!"{count} nested function(s) still open at end of unit"
  | .localMisplaced name bound holding =>
    s!"local '{name}' landed in register {bound}, value is in {holding}"
  | .notInRegister found => s!"expected a register, found {found.text}"
  | .notShort found => s!"expected an RK operand, found {found.text}"
  | .notAssignable name found => s!"'{name}' resolved to non-assignable {found.text}"

inductive Error
  | outOfRange (fault : RangeFault)
  | unresolved (kind : NameKind) (name : String)
  | discipline (violation : Violation)
  | redeclared (kind : NameKind) (name : String) (line : UInt32)
  | unsupported (construct : String) (span : Span)
deriving DecidableEq

namespace Error

def disciplineMessage (detail : String) : String :=
  s!"stack discipline violated: {detail}"

def message : Error → String
  | .outOfRange fault =>
    s!"line {fault.line}: {fault.context} operand {fault.field.name} = {fault.value} " ++
      s!"is outside {fault.min}..={fault.max}"
  | .unresolved kind name => s!"unresolved {kind.name} '{name}'"
  | .discipline violation => disciplineMessage violation.text
  | .redeclared kind name line =>
    s!"line {line}: {kind.name} '{name}' is already declared in this scope"
  | .unsupported construct span => s!"at {span.text}: {construct} is not implemented"

def isUnsupported : Error → Bool
  | .unsupported .. => true
  | _ => false

end Error

end RegisterCode
