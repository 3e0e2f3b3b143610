import RegisterCode.Proofs.LoweringForms

/-! Induction over lowering. What every way of putting lowered parts together preserves holds
of the lowering of every construct. The rules speak of the parts as actions that stand for
the constructs they were made from, so whoever proves them never opens the lowering itself. -/
namespace RegisterCode

namespace Lower
open ChunkBuilder

/-- Rules for expressions. A predicate relates a construct to what it is lowered to. -/
structure ExprRules (onExpr : Expr → (Option UInt8 → Lower Operand) → Prop)
    (onArgs : List Expr → Lower (List UInt8) → Prop)
    (onFunction : FunctionLiteral → (String → UInt32 → UInt8 → Lower Unit) → Prop) : Prop where
  nil {span type symbol} : onExpr ⟨.nil, span, type, symbol⟩ (settle .nil)
  boolean {span type symbol} (v : Bool) :
    onExpr ⟨.boolean v, span, type, symbol⟩ (settle (.boolean v))
  integer {span type symbol} (v : Int64) :
    onExpr ⟨.integer v, span, type, symbol⟩ fun dest => do settle (← constant (.integer v)) dest
  number {span type symbol} (v : Binary64) :
    onExpr ⟨.number v, span, type, symbol⟩ fun dest => do settle (← constant (.number v)) dest
  string {span type symbol} (v : String) :
    onExpr ⟨.string v, span, type, symbol⟩ fun dest => do settle (← constant (.string v)) dest
  name {span type symbol} (name : String) :
    onExpr ⟨.name name, span, type, symbol⟩ fun dest => do settle (← resolve name).operand dest
  unary {span type symbol operand lowered} (op : UnaryOp) : onExpr operand lowered →
    onExpr ⟨.unary op operand, span, type, symbol⟩ (inPlace (unaryInto op lowered))
  binary {span type symbol left right first second} (op : BinaryOp) : onExpr left first →
    onExpr right second →
    onExpr ⟨.binary op left right, span, type, symbol⟩ (inPlace (binaryInto op first second))
  logical {span type symbol left right first second} (op : LogicalOp) : onExpr left first →
    onExpr right second →
    onExpr ⟨.logical op left right, span, type, symbol⟩ (inPlace (logicalInto op first second))
  assign {span type symbol stored lowered} (name : String) : onExpr stored lowered →
    onExpr ⟨.assign name stored, span, type, symbol⟩
      (inPlace (assignInto name stored.form.isLogical lowered))
  call {span type symbol callee actuals lowered registers} : onExpr callee lowered →
    onArgs actuals registers →
    onExpr ⟨.call callee actuals, span, type, symbol⟩ (inPlace (callInto lowered registers))
  function {span type symbol f closure} : onFunction f closure →
    onExpr ⟨.function f, span, type, symbol⟩ (inPlace (closure "anonymous" span.line))
  tuple {span type symbol} (items : List Expr) :
    onExpr ⟨.tuple items, span, type, symbol⟩ fun _ =>
      throw (.unsupported (ExprForm.tuple items).kind span)
  object {span type symbol} (fields : List (String × Expr)) :
    onExpr ⟨.object fields, span, type, symbol⟩ fun _ =>
      throw (.unsupported (ExprForm.object fields).kind span)
  noArgs : onArgs [] (pure [])
  moreArgs {actual rest lowered registers} : onExpr actual lowered → onArgs rest registers →
    onArgs (actual :: rest) do
      let register ← allocate
      let _ ← lowered (some register)
      let registers ← registers
      return register :: registers

/-- Rules for statements. A branch that cannot run has a rule of its own. -/
structure StmtRules (onExpr : Expr → (Option UInt8 → Lower Operand) → Prop)
    (onArgs : List Expr → Lower (List UInt8) → Prop)
    (onFunction : FunctionLiteral → (String → UInt32 → UInt8 → Lower Unit) → Prop)
    (onForm : Span → StmtForm → Lower Unit → Prop) (onStmt : Stmt → Lower Unit → Prop)
    (onBody : List Stmt → Lower Unit → Prop) : Prop
    extends ExprRules onExpr onArgs onFunction where
  closure {inner lowered} (params : List String) (endLine : UInt32) : onBody inner lowered →
    onFunction ⟨params, inner, endLine⟩ fun name line =>
      functionInto params lowered name line (FunctionLiteral.lastLine ⟨params, inner, endLine⟩ line)
  declareNil {span} (name : String) :
    onForm span (.declare name none)
      (declareLocal name fun register => emit .loadNil register.toNat 0 0)
  declare {span init lowered} (name : String) : onExpr init lowered →
    onForm span (.declare name (some init)) (declareLocal name fun register => do
      let _ ← lowered (some register))
  callStatement {span place type symbol callee actuals lowered registers} :
    onExpr callee lowered → onArgs actuals registers →
    onForm span (.expr ⟨.call callee actuals, place, type, symbol⟩)
      (Lower.callStatement lowered registers)
  assignStatement {span place type symbol stored lowered} (name : String) : onExpr stored lowered →
    onForm span (.expr ⟨.assign name stored, place, type, symbol⟩)
      (discard (store name stored.form.isLogical lowered))
  discard {span e lowered} : (∀ callee actuals, e.form ≠ .call callee actuals) →
    (∀ name stored, e.form ≠ .assign name stored) → onExpr e lowered →
    onForm span (.expr e) (Lower.discard (lowered none))
  define {span f closure} (name : String) : onFunction f closure →
    onForm span (.function name f) (defineFunction name (closure name span.line))
  returnNothing {span} : onForm span (.ret none) Lower.returnNothing
  returnValue {span e lowered} : onExpr e lowered →
    onForm span (.ret (some e)) (Lower.returnValue (lowered none))
  deadBranch {span condition inner lowered} : condition.form = .boolean false →
    onBody inner lowered →
    onForm span (.branch condition inner none) (Lower.deadBranch lowered (pure ()))
  deadBranchElse {span condition inner other lowered otherwise} :
    condition.form = .boolean false → onBody inner lowered → onBody other otherwise →
    onForm span (.branch condition inner (some other))
      (Lower.deadBranch lowered (inScope "else" otherwise))
  branch {span condition inner test lowered} : condition.form ≠ .boolean false →
    onExpr condition test → onBody inner lowered →
    onForm span (.branch condition inner none) (Lower.branch (test none) lowered)
  branchElse {span condition inner other test lowered otherwise} :
    condition.form ≠ .boolean false → onExpr condition test → onBody inner lowered →
    onBody other otherwise →
    onForm span (.branch condition inner (some other))
      (Lower.branchElse (test none) lowered otherwise)
  whileLoop {span condition inner test lowered} : onExpr condition test → onBody inner lowered →
    onForm span (.whileLoop condition inner) (Lower.whileLoop (test none) lowered)
  breakLoop {span} : onForm span .breakLoop (onCurrent FunctionBuilder.breakLoop)
  continueLoop {span} : onForm span .continueLoop (onCurrent FunctionBuilder.continueLoop)
  block {span inner lowered} : onBody inner lowered →
    onForm span (.block inner) (inScope "block" lowered)
  classDecl {span} (name : String) :
    onForm span (.classDecl name) (throw (.unsupported (StmtForm.classDecl name).kind span))
  tryBlock {span} (inner : List Stmt) :
    onForm span (.tryBlock inner) (throw (.unsupported (StmtForm.tryBlock inner).kind span))
  located {span f lowered} : onForm span f lowered → onStmt ⟨f, span⟩ do
    locateKnown span
    lowered
  empty : onBody [] (pure ())
  sequence {first rest lowered others} : onStmt first lowered → onBody rest others →
    onBody (first :: rest) do
      lowered
      others

section Equations

variable {span : Span} {condition : Expr}

theorem statementForm_discard {e : Expr} (hcall : ∀ callee args, e.form ≠ .call callee args)
    (hassign : ∀ name stored, e.form ≠ .assign name stored) :
    statementForm span (.expr e) = discard (expr e none) := by
  rw [statementForm]
  · intro callee args span' type symbol he
    exact hcall callee args (by rw [he])
  · intro name stored span' type symbol he
    exact hassign name stored (by rw [he])

theorem statementForm_deadBranch (h : condition.form = .boolean false) (body : List Stmt) :
    statementForm span (.branch condition body none) = deadBranch (statements body) (pure ()) := by
  obtain ⟨form, place, type, symbol⟩ := condition
  have hform : form = .boolean false := h
  subst hform
  rw [statementForm]

theorem statementForm_deadBranchElse (h : condition.form = .boolean false)
    (body otherwise : List Stmt) :
    statementForm span (.branch condition body (some otherwise)) =
      deadBranch (statements body) (inScope "else" (statements otherwise)) := by
  obtain ⟨form, place, type, symbol⟩ := condition
  have hform : form = .boolean false := h
  subst hform
  rw [statementForm]

theorem statementForm_branch (h : condition.form ≠ .boolean false) (body : List Stmt) :
    statementForm span (.branch condition body none) =
      branch (expr condition none) (statements body) := by
  rw [statementForm]
  intro span' type symbol hcondition
  exact h (by rw [hcondition])

theorem statementForm_branchElse (h : condition.form ≠ .boolean false)
    (body otherwise : List Stmt) :
    statementForm span (.branch condition body (some otherwise)) =
      branchElse (expr condition none) (statements body) (statements otherwise) := by
  rw [statementForm]
  intro span' type symbol hcondition
  exact h (by rw [hcondition])

end Equations

variable {onExpr : Expr → (Option UInt8 → Lower Operand) → Prop}
  {onArgs : List Expr → Lower (List UInt8) → Prop}
  {onFunction : FunctionLiteral → (String → UInt32 → UInt8 → Lower Unit) → Prop}
  {onForm : Span → StmtForm → Lower Unit → Prop} {onStmt : Stmt → Lower Unit → Prop}
  {onBody : List Stmt → Lower Unit → Prop}

namespace ExprRules

mutual

theorem holds_expr (h : ExprRules onExpr onArgs onFunction)
    (hfunction : ∀ f, onFunction f (closure f)) : (e : Expr) → onExpr e (Lower.expr e)
  | ⟨.nil, _, _, _⟩ => h.nil
  | ⟨.boolean v, _, _, _⟩ => h.boolean v
  | ⟨.integer v, _, _, _⟩ => h.integer v
  | ⟨.number v, _, _, _⟩ => h.number v
  | ⟨.string v, _, _, _⟩ => h.string v
  | ⟨.name name, _, _, _⟩ => h.name name
  | ⟨.unary op operand, _, _, _⟩ => h.unary op (holds_expr h hfunction operand)
  | ⟨.binary op left right, _, _, _⟩ =>
    h.binary op (holds_expr h hfunction left) (holds_expr h hfunction right)
  | ⟨.logical op left right, _, _, _⟩ =>
    h.logical op (holds_expr h hfunction left) (holds_expr h hfunction right)
  | ⟨.assign name stored, _, _, _⟩ => h.assign name (holds_expr h hfunction stored)
  | ⟨.call callee actuals, _, _, _⟩ =>
    h.call (holds_expr h hfunction callee) (holds_arguments h hfunction actuals)
  | ⟨.function f, _, _, _⟩ => h.function (hfunction f)
  | ⟨.tuple items, _, _, _⟩ => h.tuple items
  | ⟨.object fields, _, _, _⟩ => h.object fields

theorem holds_arguments (h : ExprRules onExpr onArgs onFunction)
    (hfunction : ∀ f, onFunction f (closure f)) :
    (actuals : List Expr) → onArgs actuals (Lower.arguments actuals)
  | [] => h.noArgs
  | actual :: rest => h.moreArgs (holds_expr h hfunction actual) (holds_arguments h hfunction rest)

end

end ExprRules

namespace StmtRules

mutual

theorem holds_expr (h : StmtRules onExpr onArgs onFunction onForm onStmt onBody) :
    (e : Expr) → onExpr e (Lower.expr e)
  | ⟨.nil, _, _, _⟩ => h.nil
  | ⟨.boolean v, _, _, _⟩ => h.boolean v
  | ⟨.integer v, _, _, _⟩ => h.integer v
  | ⟨.number v, _, _, _⟩ => h.number v
  | ⟨.string v, _, _, _⟩ => h.string v
  | ⟨.name name, _, _, _⟩ => h.name name
  | ⟨.unary op operand, _, _, _⟩ => h.unary op (holds_expr h operand)
  | ⟨.binary op left right, _, _, _⟩ => h.binary op (holds_expr h left) (holds_expr h right)
  | ⟨.logical op left right, _, _, _⟩ => h.logical op (holds_expr h left) (holds_expr h right)
  | ⟨.assign name stored, _, _, _⟩ => h.assign name (holds_expr h stored)
  | ⟨.call callee actuals, _, _, _⟩ => h.call (holds_expr h callee) (holds_arguments h actuals)
  | ⟨.function f, _, _, _⟩ => h.function (holds_closure h f)
  | ⟨.tuple items, _, _, _⟩ => h.tuple items
  | ⟨.object fields, _, _, _⟩ => h.object fields

theorem holds_arguments (h : StmtRules onExpr onArgs onFunction onForm onStmt onBody) :
    (actuals : List Expr) → onArgs actuals (Lower.arguments actuals)
  | [] => h.noArgs
  | actual :: rest => h.moreArgs (holds_expr h actual) (holds_arguments h rest)

theorem holds_closure (h : StmtRules onExpr onArgs onFunction onForm onStmt onBody) :
    (f : FunctionLiteral) → onFunction f (Lower.closure f)
  | ⟨params, inner, endLine⟩ => h.closure params endLine (holds_statements h inner)

theorem holds_statement (h : StmtRules onExpr onArgs onFunction onForm onStmt onBody) :
    (stmt : Stmt) → onStmt stmt (Lower.statement stmt)
  | ⟨form, span⟩ => h.located (holds_form h span form)

theorem holds_form (h : StmtRules onExpr onArgs onFunction onForm onStmt onBody)
    (span : Span) : (form : StmtForm) → onForm span form (Lower.statementForm span form)
  | .declare name none => h.declareNil name
  | .declare name (some init) => h.declare name (holds_expr h init)
  | .expr ⟨.call callee actuals, _, _, _⟩ =>
    h.callStatement (holds_expr h callee) (holds_arguments h actuals)
  | .expr ⟨.assign name stored, _, _, _⟩ => h.assignStatement name (holds_expr h stored)
  | .expr ⟨.nil, s, t, u⟩ =>
    h.discard (by simp) (by simp) (holds_expr h ⟨.nil, s, t, u⟩)
  | .expr ⟨.boolean v, s, t, u⟩ =>
    h.discard (by simp) (by simp) (holds_expr h ⟨.boolean v, s, t, u⟩)
  | .expr ⟨.integer v, s, t, u⟩ =>
    h.discard (by simp) (by simp) (holds_expr h ⟨.integer v, s, t, u⟩)
  | .expr ⟨.number v, s, t, u⟩ =>
    h.discard (by simp) (by simp) (holds_expr h ⟨.number v, s, t, u⟩)
  | .expr ⟨.string v, s, t, u⟩ =>
    h.discard (by simp) (by simp) (holds_expr h ⟨.string v, s, t, u⟩)
  | .expr ⟨.name v, s, t, u⟩ =>
    h.discard (by simp) (by simp) (holds_expr h ⟨.name v, s, t, u⟩)
  | .expr ⟨.unary op x, s, t, u⟩ =>
    h.discard (by simp) (by simp) (holds_expr h ⟨.unary op x, s, t, u⟩)
  | .expr ⟨.binary op x y, s, t, u⟩ =>
    h.discard (by simp) (by simp) (holds_expr h ⟨.binary op x y, s, t, u⟩)
  | .expr ⟨.logical op x y, s, t, u⟩ =>
    h.discard (by simp) (by simp) (holds_expr h ⟨.logical op x y, s, t, u⟩)
  | .expr ⟨.function f, s, t, u⟩ =>
    h.discard (by simp) (by simp) (holds_expr h ⟨.function f, s, t, u⟩)
  | .expr ⟨.tuple xs, s, t, u⟩ =>
    h.discard (by simp) (by simp) (holds_expr h ⟨.tuple xs, s, t, u⟩)
  | .expr ⟨.object xs, s, t, u⟩ =>
    h.discard (by simp) (by simp) (holds_expr h ⟨.object xs, s, t, u⟩)
  | .function name f => h.define name (holds_closure h f)
  | .ret none => h.returnNothing
  | .ret (some e) => h.returnValue (holds_expr h e)
  | .branch condition inner none => by
    by_cases hdead : condition.form = .boolean false
    · rw [statementForm_deadBranch hdead]
      exact h.deadBranch hdead (holds_statements h inner)
    · rw [statementForm_branch hdead]
      exact h.branch hdead (holds_expr h condition) (holds_statements h inner)
  | .branch condition inner (some other) => by
    by_cases hdead : condition.form = .boolean false
    · rw [statementForm_deadBranchElse hdead]
      exact h.deadBranchElse hdead (holds_statements h inner) (holds_statements h other)
    · rw [statementForm_branchElse hdead]
      exact h.branchElse hdead (holds_expr h condition) (holds_statements h inner)
        (holds_statements h other)
  | .whileLoop condition inner => h.whileLoop (holds_expr h condition) (holds_statements h inner)
  | .breakLoop => h.breakLoop
  | .continueLoop => h.continueLoop
  | .block inner => h.block (holds_statements h inner)
  | .classDecl name => h.classDecl name
  | .tryBlock inner => h.tryBlock inner

theorem holds_statements (h : StmtRules onExpr onArgs onFunction onForm onStmt onBody) :
    (inner : List Stmt) → onBody inner (Lower.statements inner)
  | [] => h.empty
  | first :: rest => h.sequence (holds_statement h first) (holds_statements h rest)

end

end StmtRules

end Lower

end RegisterCode
