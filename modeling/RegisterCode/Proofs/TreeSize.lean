import RegisterCode.Tree

/-! The size of a construct tree: the number of its expressions and statements. -/
namespace RegisterCode

mutual

def Expr.nodes : Expr → Nat
  | ⟨form, _, _, _⟩ => form.nodes + 1

def ExprForm.nodes : ExprForm → Nat
  | .nil | .boolean _ | .integer _ | .number _ | .string _ | .name _ => 0
  | .unary _ operand => operand.nodes
  | .binary _ left right | .logical _ left right => left.nodes + right.nodes
  | .assign _ value => value.nodes
  | .call callee args => callee.nodes + Expr.listNodes args
  | .function f => f.nodes
  | .tuple items => Expr.listNodes items
  | .object fields => Expr.fieldNodes fields

def Expr.listNodes : List Expr → Nat
  | [] => 0
  | e :: rest => e.nodes + Expr.listNodes rest

def Expr.fieldNodes : List (String × Expr) → Nat
  | [] => 0
  | (_, e) :: rest => e.nodes + Expr.fieldNodes rest

def FunctionLiteral.nodes : FunctionLiteral → Nat
  | ⟨_, body, _⟩ => Stmt.listNodes body

def Stmt.nodes : Stmt → Nat
  | ⟨form, _⟩ => form.nodes + 1

def StmtForm.nodes : StmtForm → Nat
  | .declare _ none | .ret none | .breakLoop | .continueLoop | .classDecl _ => 0
  | .declare _ (some value) | .expr value | .ret (some value) => value.nodes
  | .function _ f => f.nodes
  | .branch condition body none | .whileLoop condition body =>
    condition.nodes + Stmt.listNodes body
  | .branch condition body (some otherwise) =>
    condition.nodes + Stmt.listNodes body + Stmt.listNodes otherwise
  | .block body | .tryBlock body => Stmt.listNodes body

def Stmt.listNodes : List Stmt → Nat
  | [] => 0
  | stmt :: rest => stmt.nodes + Stmt.listNodes rest

end

def Program.nodes (program : Program) : Nat :=
  Stmt.listNodes program.body

end RegisterCode
