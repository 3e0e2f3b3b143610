import RegisterCode.Lowering.Operands

/-! Lowering of the construct tree. An expression is lowered into a given register,
or else to whatever operand it is already; a compound one takes a fresh register
then. All registers that are taken on the way are given back in reverse order. -/
namespace RegisterCode

def UnaryOp.opcode : UnaryOp → Opcode
  | .negate => .unm
  | .not => .not
  | .length => .len

inductive BinaryOp.Shape
  | arithmetic (op : Opcode)
  /-- True when the comparison gives `expected`. -/
  | comparison (op : Opcode) (expected swapped : Bool)
  | concatenation

/-- Inequality is a failed equality; greater is less with the sides exchanged. -/
def BinaryOp.shape : BinaryOp → BinaryOp.Shape
  | .add => .arithmetic .add
  | .sub => .arithmetic .sub
  | .mul => .arithmetic .mul
  | .div => .arithmetic .div
  | .idiv => .arithmetic .idiv
  | .mod => .arithmetic .mod
  | .pow => .arithmetic .pow
  | .band => .arithmetic .band
  | .bor => .arithmetic .bor
  | .bxor => .arithmetic .bxor
  | .shl => .arithmetic .shl
  | .shr => .arithmetic .shr
  | .concat => .concatenation
  | .eq => .comparison .eq true false
  | .ne => .comparison .eq false false
  | .lt => .comparison .lt true false
  | .le => .comparison .le true false
  | .gt => .comparison .lt true true
  | .ge => .comparison .le true true

def ExprForm.isLogical : ExprForm → Bool
  | .logical .. => true
  | _ => false

namespace Lower
open ChunkBuilder

def inPlace (compute : UInt8 → Lower Unit) (dest : Option UInt8) : Lower Operand := do
  let target ← place dest
  compute target
  return .register target

/-- Lower two operands from left to right and release them from right to left. -/
def shortPair (left right : Lower Operand) : Lower (Int × Int) := do
  let left ← shortened (← left)
  let right ← shortened (← right)
  free right
  free left
  return (← shortOf left, ← shortOf right)

/-- A comparison skips the jump behind it unless it gives `expected`; the jump goes
past the load of false. -/
def compare (op : Opcode) (expected : Bool) (b c : Int) (target : UInt8) : Lower Unit := do
  emit op expected.toNat b c
  let toTrue ← jump
  emit .loadBool target.toNat 0 1
  aimHere toTrue
  emit .loadBool target.toNat 1 0

/-- Store a value under a name and give the operand that then holds it. A
short-circuit goes through a register of its own: it writes its target before its
right side runs, which may still read the local. -/
def store (name : String) (isLogical : Bool) (value : Option UInt8 → Lower Operand) :
    Lower Operand := do
  match (← resolve name).operand with
  | .register target =>
    if isLogical then
      let stored ← inRegister (← value none)
      load stored target
      free stored
    else
      let _ ← value (some target)
    return .register target
  | .upvalue index =>
    let stored ← inRegister (← value none)
    let register ← registerOf stored
    emit .setUpval register.toNat index.toNat 0
    return stored
  | .global name =>
    let stored ← shortened (← value none)
    storeGlobal name stored
    return stored
  | found => throw (.discipline (.notAssignable name found))

/-- Call with the callee in the newest register, the arguments in those above it. -/
def call (base : UInt8) (callee : Lower Operand) (args : Lower (List UInt8))
    (results : Nat) : Lower Unit := do
  let _ ← callee
  let registers ← args
  emit .call base.toNat (registers.length + 1) (results + 1)
  registers.reverse.forM fun register => free (.register register)

def isFreshTop (target : UInt8) : Lower Bool := do
  let f := (← get).current
  return target.toNat + 1 == f.nextFree && !f.scopes.isNamed target

def unaryInto (op : UnaryOp) (value : Option UInt8 → Lower Operand) (target : UInt8) :
    Lower Unit := do
  let value ← inRegister (← value none)
  let register ← registerOf value
  free value
  emit op.opcode target.toNat register.toNat 0

def binaryInto (op : BinaryOp) (left right : Option UInt8 → Lower Operand) (target : UInt8) :
    Lower Unit :=
  match op.shape with
  | .concatenation => do
    let first ← allocate
    let _ ← left (some first)
    let second ← allocate
    let _ ← right (some second)
    free (.register second)
    free (.register first)
    emit .concat target.toNat first.toNat second.toNat
  | .arithmetic op => do
    let (b, c) ← shortPair (left none) (right none)
    emit op target.toNat b c
  | .comparison op expected swapped => do
    let (b, c) ← shortPair (left none) (right none)
    if swapped then compare op expected c b target
    else compare op expected b c target

def logicalInto (op : LogicalOp) (left right : Option UInt8 → Lower Operand) (target : UInt8) :
    Lower Unit := do
  let _ ← left (some target)
  emit .test target.toNat 0 (if op = .and then 0 else 1)
  let done ← jump
  let _ ← right (some target)
  aimHere done

def assignInto (name : String) (isLogical : Bool) (value : Option UInt8 → Lower Operand)
    (target : UInt8) : Lower Unit := do
  let stored ← store name isLogical value
  load stored target
  free stored

/-- The callee goes into the target itself if that is the newest register. -/
def callInto (callee : Option UInt8 → Lower Operand) (args : Lower (List UInt8))
    (target : UInt8) : Lower Unit := do
  if ← isFreshTop target then
    call target (callee (some target)) args 1
  else
    let base ← allocate
    call base (callee (some base)) args 1
    emit .move target.toNat base.toNat 0
    free (.register base)

def jumpUnless (condition : Lower Operand) : Lower Nat := do
  let value ← inRegister (← condition)
  let register ← registerOf value
  emit .test register.toNat 0 0
  let skip ← jump
  free value
  return skip

def inScope (name : String) (body : Lower Unit) : Lower Unit := do
  onCurrent (modify (FunctionBuilder.openScope name))
  body
  onCurrent FunctionBuilder.closeScope

def locateKnown (span : Span) : Lower Unit :=
  if span.isKnown then modify (locate span) else pure ()

/-- A local is bound after its value is known, so the value cannot see it; the
local gets the register that the value is in. -/
def declareLocal (name : String) (value : UInt8 → Lower Unit) : Lower Unit := do
  let register ← allocate
  value register
  free (.register register)
  let bound ← onCurrent (FunctionBuilder.bindLocal name)
  if bound ≠ register then
    throw (.discipline (.localMisplaced name bound.toNat register.toNat))

def callStatement (callee : Option UInt8 → Lower Operand) (args : Lower (List UInt8)) :
    Lower Unit := do
  let base ← allocate
  call base (callee (some base)) args 0
  free (.register base)

def discard (value : Lower Operand) : Lower Unit := do
  free (← value)

/-- A local function is bound before its body is lowered, which may call it. -/
def defineFunction (name : String) (closure : UInt8 → Lower Unit) : Lower Unit := do
  let register ← onCurrent (FunctionBuilder.bindLocal name)
  closure register

def returnNothing : Lower Unit :=
  emit .ret 0 1 0

def returnValue (value : Lower Operand) : Lower Unit := do
  let value ← inRegister (← value)
  let register ← registerOf value
  emit .ret register.toNat 2 0
  free value

/-- What cannot run is lowered for its faults only. -/
def deadBranch (body otherwise : Lower Unit) : Lower Unit := do
  onCurrent (modify FunctionBuilder.openSection)
  inScope "if" body
  let _ ← onCurrent FunctionBuilder.discardSection
  otherwise

def branch (condition : Lower Operand) (body : Lower Unit) : Lower Unit := do
  let skip ← jumpUnless condition
  inScope "if" body
  aimHere skip

def branchElse (condition : Lower Operand) (body otherwise : Lower Unit) : Lower Unit := do
  let skip ← jumpUnless condition
  inScope "if" body
  let done ← jump
  aimHere skip
  inScope "else" otherwise
  aimHere done

def whileLoop (condition : Lower Operand) (body : Lower Unit) : Lower Unit := do
  let head := (← get).current.pc
  onCurrent (modify (FunctionBuilder.openLoop (some head)))
  let done ← jumpUnless condition
  inScope "while" body
  let _ ← onCurrent (FunctionBuilder.jumpTo head)
  aimHere done
  onCurrent FunctionBuilder.closeLoop

def functionInto (params : List String) (body : Lower Unit) (name : String)
    (line lastLine : UInt32) (target : UInt8) : Lower Unit := do
  modify (openFunction name line)
  params.forM fun param => do
    let _ ← onCurrent (FunctionBuilder.bindParameter param)
  body
  returnNothing
  let index ← closeFunction lastLine
  emit .closure target.toNat index 0

mutual

def expr : Expr → Option UInt8 → Lower Operand
  | ⟨.nil, _, _, _⟩, dest => settle .nil dest
  | ⟨.boolean value, _, _, _⟩, dest => settle (.boolean value) dest
  | ⟨.integer value, _, _, _⟩, dest => do settle (← constant (.integer value)) dest
  | ⟨.number value, _, _, _⟩, dest => do settle (← constant (.number value)) dest
  | ⟨.string value, _, _, _⟩, dest => do settle (← constant (.string value)) dest
  | ⟨.name name, _, _, _⟩, dest => do settle (← resolve name).operand dest
  | ⟨.unary op operand, _, _, _⟩, dest => inPlace (unaryInto op (expr operand)) dest
  | ⟨.binary op left right, _, _, _⟩, dest =>
    inPlace (binaryInto op (expr left) (expr right)) dest
  | ⟨.logical op left right, _, _, _⟩, dest =>
    inPlace (logicalInto op (expr left) (expr right)) dest
  | ⟨.assign name value, _, _, _⟩, dest =>
    inPlace (assignInto name value.form.isLogical (expr value)) dest
  | ⟨.call callee args, _, _, _⟩, dest => inPlace (callInto (expr callee) (arguments args)) dest
  | ⟨.function f, span, _, _⟩, dest => inPlace (closure f "anonymous" span.line) dest
  | ⟨.tuple items, span, _, _⟩, _ => throw (.unsupported (ExprForm.tuple items).kind span)
  | ⟨.object fields, span, _, _⟩, _ => throw (.unsupported (ExprForm.object fields).kind span)

def arguments : List Expr → Lower (List UInt8)
  | [] => pure []
  | arg :: rest => do
    let register ← allocate
    let _ ← expr arg (some register)
    let registers ← arguments rest
    return register :: registers

def closure : FunctionLiteral → (name : String) → (line : UInt32) → (target : UInt8) → Lower Unit
  | ⟨params, body, endLine⟩, name, line, target =>
    functionInto params (statements body) name line
      (FunctionLiteral.lastLine ⟨params, body, endLine⟩ line) target

def statement : Stmt → Lower Unit
  | ⟨form, span⟩ => do
    locateKnown span
    statementForm span form

def statementForm (span : Span) : StmtForm → Lower Unit
  | .declare name none => declareLocal name fun register => emit .loadNil register.toNat 0 0
  | .declare name (some init) => declareLocal name fun register => do
    let _ ← expr init (some register)
  | .expr ⟨.call callee args, _, _, _⟩ => callStatement (expr callee) (arguments args)
  | .expr ⟨.assign name value, _, _, _⟩ => discard (store name value.form.isLogical (expr value))
  | .expr value => discard (expr value none)
  | .function name f => defineFunction name (closure f name span.line)
  | .ret none => returnNothing
  | .ret (some value) => returnValue (expr value none)
  | .branch ⟨.boolean false, _, _, _⟩ body none => deadBranch (statements body) (pure ())
  | .branch ⟨.boolean false, _, _, _⟩ body (some otherwise) =>
    deadBranch (statements body) (inScope "else" (statements otherwise))
  | .branch condition body none => branch (expr condition none) (statements body)
  | .branch condition body (some otherwise) =>
    branchElse (expr condition none) (statements body) (statements otherwise)
  | .whileLoop condition body => whileLoop (expr condition none) (statements body)
  | .breakLoop => onCurrent FunctionBuilder.breakLoop
  | .continueLoop => onCurrent FunctionBuilder.continueLoop
  | .block body => inScope "block" (statements body)
  | .classDecl name => throw (.unsupported (StmtForm.classDecl name).kind span)
  | .tryBlock body => throw (.unsupported (StmtForm.tryBlock body).kind span)

def statements : List Stmt → Lower Unit
  | [] => pure ()
  | stmt :: rest => do
    statement stmt
    statements rest

end

end Lower

end RegisterCode
