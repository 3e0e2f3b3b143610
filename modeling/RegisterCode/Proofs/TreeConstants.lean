import RegisterCode.Constant
import RegisterCode.Proofs.TreeSize

/-! The constants that the code of a construct tree can need: its literals, and its names
in case they are global. There are no more of them than constructs. -/
namespace RegisterCode

mutual

def Expr.constants : Expr → List Constant
  | ⟨form, _, _, _⟩ => form.constants

def ExprForm.constants : ExprForm → List Constant
  | .nil | .boolean _ | .tuple _ | .object _ => []
  | .integer value => [.integer value]
  | .number value => [.number value]
  | .string value | .name value => [.string value]
  | .unary _ operand => operand.constants
  | .binary _ left right | .logical _ left right => left.constants ++ right.constants
  | .assign name value => .string name :: value.constants
  | .call callee args => callee.constants ++ Expr.listConstants args
  | .function f => f.constants

def Expr.listConstants : List Expr → List Constant
  | [] => []
  | e :: rest => e.constants ++ Expr.listConstants rest

def FunctionLiteral.constants : FunctionLiteral → List Constant
  | ⟨_, body, _⟩ => Stmt.listConstants body

def Stmt.constants : Stmt → List Constant
  | ⟨form, _⟩ => form.constants

def StmtForm.constants : StmtForm → List Constant
  | .declare _ none | .ret none | .breakLoop | .continueLoop | .classDecl _ | .tryBlock _ => []
  | .declare _ (some value) | .expr value | .ret (some value) => value.constants
  | .function _ f => f.constants
  | .branch condition body none | .whileLoop condition body =>
    condition.constants ++ Stmt.listConstants body
  | .branch condition body (some otherwise) =>
    condition.constants ++ (Stmt.listConstants body ++ Stmt.listConstants otherwise)
  | .block body => Stmt.listConstants body

def Stmt.listConstants : List Stmt → List Constant
  | [] => []
  | stmt :: rest => stmt.constants ++ Stmt.listConstants rest

end

mutual

theorem Expr.length_constants : (e : Expr) → e.constants.length ≤ e.nodes
  | ⟨form, _, _, _⟩ => by
    rw [Expr.constants, Expr.nodes]
    exact form.length_constants

theorem ExprForm.length_constants : (form : ExprForm) → form.constants.length ≤ form.nodes + 1
  | .nil | .boolean _ | .integer _ | .number _ | .string _ | .name _ | .tuple _ | .object _ => by
    simp [ExprForm.constants]
  | .unary _ operand => by
    have := operand.length_constants
    simp only [ExprForm.constants, ExprForm.nodes]
    omega
  | .binary _ left right | .logical _ left right => by
    have := left.length_constants
    have := right.length_constants
    simp only [ExprForm.constants, ExprForm.nodes, List.length_append]
    omega
  | .assign _ value => by
    have := value.length_constants
    simp only [ExprForm.constants, ExprForm.nodes, List.length_cons]
    omega
  | .call callee args => by
    have := callee.length_constants
    have := Expr.length_listConstants args
    simp only [ExprForm.constants, ExprForm.nodes, List.length_append]
    omega
  | .function f => by
    have := f.length_constants
    simp only [ExprForm.constants, ExprForm.nodes]
    omega

theorem Expr.length_listConstants : (items : List Expr) →
    (Expr.listConstants items).length ≤ Expr.listNodes items
  | [] => Nat.le_refl _
  | e :: rest => by
    have := e.length_constants
    have := Expr.length_listConstants rest
    simp only [Expr.listConstants, Expr.listNodes, List.length_append]
    omega

theorem FunctionLiteral.length_constants : (f : FunctionLiteral) → f.constants.length ≤ f.nodes
  | ⟨_, body, _⟩ => by
    rw [FunctionLiteral.constants, FunctionLiteral.nodes]
    exact Stmt.length_listConstants body

theorem Stmt.length_constants : (stmt : Stmt) → stmt.constants.length ≤ stmt.nodes
  | ⟨form, _⟩ => by
    rw [Stmt.constants, Stmt.nodes]
    exact Nat.le_succ_of_le form.length_constants

theorem StmtForm.length_constants : (form : StmtForm) → form.constants.length ≤ form.nodes
  | .declare _ none | .ret none | .breakLoop | .continueLoop | .classDecl _ | .tryBlock _ => by
    simp [StmtForm.constants]
  | .declare _ (some value) | .expr value | .ret (some value) => by
    rw [StmtForm.constants, StmtForm.nodes]
    exact value.length_constants
  | .function _ f => by
    rw [StmtForm.constants, StmtForm.nodes]
    exact f.length_constants
  | .branch condition body none | .whileLoop condition body => by
    have := condition.length_constants
    have := Stmt.length_listConstants body
    simp only [StmtForm.constants, StmtForm.nodes, List.length_append]
    omega
  | .branch condition body (some otherwise) => by
    have := condition.length_constants
    have := Stmt.length_listConstants body
    have := Stmt.length_listConstants otherwise
    simp only [StmtForm.constants, StmtForm.nodes, List.length_append]
    omega
  | .block body => by
    rw [StmtForm.constants, StmtForm.nodes]
    exact Stmt.length_listConstants body

theorem Stmt.length_listConstants : (body : List Stmt) →
    (Stmt.listConstants body).length ≤ Stmt.listNodes body
  | [] => Nat.le_refl _
  | stmt :: rest => by
    have := stmt.length_constants
    have := Stmt.length_listConstants rest
    simp only [Stmt.listConstants, Stmt.listNodes, List.length_append]
    omega

end

end RegisterCode
