import RegisterCode.Binary64
import RegisterCode.Opcode
import RegisterCode.Span

/-! The checked construct tree that code is generated from. Every node knows its
place; an expression also carries what the checker found out about it. -/
namespace RegisterCode

inductive StaticType
  | boolean | number | string | null | tuple
  /-- An object type without a declared name. -/
  | anonymous
  | namedClass | function | unknown
deriving DecidableEq

def StaticType.name : StaticType → String
  | .boolean => "Boolean"
  | .number => "Number"
  | .string => "String"
  | .null => "Null"
  | .tuple => "Tuple"
  | .anonymous => "Anonymous"
  | .namedClass => "NamedClass"
  | .function => "Function"
  | .unknown => "Unknown"

inductive UnaryOp
  | negate | not | length
deriving DecidableEq

inductive BinaryOp
  | add | sub | mul | div | idiv | mod | pow
  | band | bor | bxor | shl | shr
  | concat
  | eq | ne | lt | le | gt | ge
deriving DecidableEq

def BinaryOp.isComparison : BinaryOp → Bool
  | .eq | .ne | .lt | .le | .gt | .ge => true
  | _ => false

inductive LogicalOp
  | and | or
deriving DecidableEq

mutual

structure Expr where
  form : ExprForm
  span : Span
  staticType : StaticType
  /-- The declaration that the checker found. -/
  symbol : Option UInt32

inductive ExprForm
  | nil
  | boolean (value : Bool)
  | integer (value : Int64)
  | number (value : Binary64)
  | string (value : String)
  | name (name : String)
  | unary (op : UnaryOp) (operand : Expr)
  | binary (op : BinaryOp) (left right : Expr)
  | logical (op : LogicalOp) (left right : Expr)
  | assign (name : String) (value : Expr)
  | call (callee : Expr) (args : List Expr)
  | function (function : FunctionLiteral)
  | tuple (items : List Expr)
  | object (fields : List (String × Expr))

structure FunctionLiteral where
  params : List String
  body : List Stmt
  /-- The line of the closing token, zero if it is not known. -/
  endLine : UInt32

structure Stmt where
  form : StmtForm
  span : Span

inductive StmtForm
  | declare (name : String) (init : Option Expr)
  | expr (value : Expr)
  /-- A function that is bound to a local of its name. -/
  | function (name : String) (function : FunctionLiteral)
  | ret (value : Option Expr)
  | branch (condition : Expr) (body : List Stmt) (otherwise : Option (List Stmt))
  | whileLoop (condition : Expr) (body : List Stmt)
  | breakLoop
  | continueLoop
  | block (body : List Stmt)
  | classDecl (name : String)
  | tryBlock (body : List Stmt)

end

namespace ExprForm

def staticType : ExprForm → StaticType
  | .nil => .null
  | .boolean _ | .logical .. => .boolean
  | .integer _ | .number _ => .number
  | .string _ => .string
  | .function _ => .function
  | .tuple _ => .tuple
  | .object _ => .anonymous
  | .binary op .. =>
    if op.isComparison then .boolean else if op = .concat then .string else .unknown
  | .name _ | .unary .. | .assign .. | .call .. => .unknown

def kind : ExprForm → String
  | .nil => "null literal"
  | .boolean _ => "boolean literal"
  | .integer _ | .number _ => "numeric literal"
  | .string _ => "string literal"
  | .name _ => "identifier"
  | .unary .. => "unary expression"
  | .binary .. => "binary expression"
  | .logical .. => "logical expression"
  | .assign .. => "assignment"
  | .call .. => "call expression"
  | .function _ => "function expression"
  | .tuple _ => "tuple expression"
  | .object _ => "object literal"

end ExprForm

def StmtForm.kind : StmtForm → String
  | .declare .. => "variable statement"
  | .expr _ => "expression statement"
  | .function .. => "function declaration"
  | .ret _ => "return statement"
  | .branch .. => "if statement"
  | .whileLoop .. => "while statement"
  | .breakLoop => "break statement"
  | .continueLoop => "continue statement"
  | .block _ => "block"
  | .classDecl _ => "class declaration"
  | .tryBlock _ => "try statement"

def Expr.of (form : ExprForm) : Expr :=
  ⟨form, {}, form.staticType, none⟩

def Stmt.of (form : StmtForm) : Stmt :=
  ⟨form, {}⟩

/-- The last line on which one of the statements starts, or `line` if that is
later. -/
def lastStartLine (line : UInt32) (body : List Stmt) : UInt32 :=
  body.foldl (fun line stmt => max line stmt.span.line) line

def FunctionLiteral.lastLine (f : FunctionLiteral) (line : UInt32) : UInt32 :=
  lastStartLine (max f.endLine line) f.body

structure Program where
  body : List Stmt
  endLine : UInt32

def Program.of (body : List Stmt) : Program :=
  ⟨body, lastStartLine 0 body⟩

end RegisterCode
