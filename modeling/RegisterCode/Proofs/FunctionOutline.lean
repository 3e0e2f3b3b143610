import RegisterCode.Prototype
import RegisterCode.Tree

/-! The functions of a construct tree, in their nesting and in the order in which they are
visited, and when a prototype has that shape. -/
namespace RegisterCode

structure Outline where
  paramCount : Nat
  firstLine : UInt32
  isVararg : Bool := false
  /-- Whether the code that makes closures of the function is kept. -/
  isReached : Bool := true
  nested : List Outline

/-- The function is there, but no closure of it is made. -/
def Outline.unreached (o : Outline) : Outline :=
  { o with isReached := false }

def Expr.isFalse (e : Expr) : Bool :=
  match e.form with
  | .boolean false => true
  | _ => false

theorem Expr.isFalse_of_dead {e : Expr} (h : e.form = .boolean false) : e.isFalse = true := by
  rw [Expr.isFalse, h]

theorem Expr.isFalse_of_live {e : Expr} (h : e.form ≠ .boolean false) : e.isFalse = false := by
  unfold Expr.isFalse
  split
  · next hform => exact absurd hform h
  · rfl

/-- The functions of a branch; the code behind a condition that is literally false is
discarded. -/
def Outline.behind (condition : Expr) (outlines : List Outline) : List Outline :=
  if condition.isFalse then outlines.map unreached else outlines

mutual

def Expr.outlines : Expr → List Outline
  | ⟨form, span, _, _⟩ => form.outlines span.line

def ExprForm.outlines (line : UInt32) : ExprForm → List Outline
  | .nil | .boolean _ | .integer _ | .number _ | .string _ | .name _ => []
  | .unary _ operand => operand.outlines
  | .binary _ left right | .logical _ left right => left.outlines ++ right.outlines
  | .assign _ value => value.outlines
  | .call callee args => callee.outlines ++ Expr.listOutlines args
  | .function f => [f.outline line]
  | .tuple items => Expr.listOutlines items
  | .object fields => Expr.fieldOutlines fields

def Expr.listOutlines : List Expr → List Outline
  | [] => []
  | e :: rest => e.outlines ++ Expr.listOutlines rest

def Expr.fieldOutlines : List (String × Expr) → List Outline
  | [] => []
  | (_, e) :: rest => e.outlines ++ Expr.fieldOutlines rest

def FunctionLiteral.outline (line : UInt32) : FunctionLiteral → Outline
  | ⟨params, body, _⟩ =>
    { paramCount := params.length, firstLine := line, nested := Stmt.listOutlines body }

def Stmt.outlines : Stmt → List Outline
  | ⟨form, span⟩ => form.outlines span.line

def StmtForm.outlines (line : UInt32) : StmtForm → List Outline
  | .declare _ none | .ret none | .breakLoop | .continueLoop | .classDecl _ => []
  | .declare _ (some value) | .expr value | .ret (some value) => value.outlines
  | .function _ f => [f.outline line]
  | .branch condition body none =>
    condition.outlines ++ Outline.behind condition (Stmt.listOutlines body)
  | .branch condition body (some otherwise) =>
    condition.outlines ++ (Outline.behind condition (Stmt.listOutlines body) ++
      Stmt.listOutlines otherwise)
  | .whileLoop condition body => condition.outlines ++ Stmt.listOutlines body
  | .block body | .tryBlock body => Stmt.listOutlines body

def Stmt.listOutlines : List Stmt → List Outline
  | [] => []
  | stmt :: rest => stmt.outlines ++ Stmt.listOutlines rest

end

/-- The main function takes any arguments and starts in front of all lines. -/
def Program.outline (program : Program) : Outline where
  paramCount := 0
  firstLine := 0
  isVararg := true
  nested := Stmt.listOutlines program.body

mutual

def Expr.functions : Expr → Nat
  | ⟨form, _, _, _⟩ => form.functions

def ExprForm.functions : ExprForm → Nat
  | .nil | .boolean _ | .integer _ | .number _ | .string _ | .name _ => 0
  | .unary _ operand => operand.functions
  | .binary _ left right | .logical _ left right => left.functions + right.functions
  | .assign _ value => value.functions
  | .call callee args => callee.functions + Expr.listFunctions args
  | .function f => f.functions
  | .tuple items => Expr.listFunctions items
  | .object fields => Expr.fieldFunctions fields

def Expr.listFunctions : List Expr → Nat
  | [] => 0
  | e :: rest => e.functions + Expr.listFunctions rest

def Expr.fieldFunctions : List (String × Expr) → Nat
  | [] => 0
  | (_, e) :: rest => e.functions + Expr.fieldFunctions rest

def FunctionLiteral.functions : FunctionLiteral → Nat
  | ⟨_, body, _⟩ => Stmt.listFunctions body + 1

def Stmt.functions : Stmt → Nat
  | ⟨form, _⟩ => form.functions

def StmtForm.functions : StmtForm → Nat
  | .declare _ none | .ret none | .breakLoop | .continueLoop | .classDecl _ => 0
  | .declare _ (some value) | .expr value | .ret (some value) => value.functions
  | .function _ f => f.functions
  | .branch condition body none | .whileLoop condition body =>
    condition.functions + Stmt.listFunctions body
  | .branch condition body (some otherwise) =>
    condition.functions + (Stmt.listFunctions body + Stmt.listFunctions otherwise)
  | .block body | .tryBlock body => Stmt.listFunctions body

def Stmt.listFunctions : List Stmt → Nat
  | [] => 0
  | stmt :: rest => stmt.functions + Stmt.listFunctions rest

end

def Program.functions (program : Program) : Nat :=
  Stmt.listFunctions program.body

def Instruction.child? (i : Instruction) : Option Nat :=
  if i.op = .closure then some i.b.toNat else none

def Prototype.closures (p : Prototype) : List Nat :=
  p.code.filterMap fun word => (Instruction.decode word).toOption.bind Instruction.child?

theorem Prototype.functionCount_eq_add (p : Prototype) :
    p.functionCount = 1 + functionCounts p.children := by
  cases p
  rw [functionCount]

namespace Outline

def isMade (nested : List Outline) (index : Nat) : Bool :=
  (nested[index]?.map isReached).getD false

mutual

/-- The prototype is that of such a function, down to the functions nested in it. Its code
makes a closure of each of them once, unless they are not reached. -/
def Describes : Outline → Prototype → Prop
  | ⟨paramCount, firstLine, isVararg, _, nested⟩, p =>
    p.paramCount.toNat = paramCount ∧ p.firstLine = firstLine ∧ p.isVararg = isVararg ∧
      (∀ index, p.closures.count index = if isMade nested index then 1 else 0) ∧
      DescribeAll nested p.children

def DescribeAll : List Outline → List Prototype → Prop
  | [], children => children = []
  | o :: rest, children =>
    ∃ child others, children = child :: others ∧ o.Describes child ∧ DescribeAll rest others

end

mutual

def size : Outline → Nat
  | ⟨_, _, _, _, nested⟩ => 1 + sizes nested

def sizes : List Outline → Nat
  | [] => 0
  | o :: rest => o.size + sizes rest

end

variable {outlines more : List Outline} {children others : List Prototype}

theorem DescribeAll.append (h : DescribeAll outlines children) (h' : DescribeAll more others) :
    DescribeAll (outlines ++ more) (children ++ others) := by
  induction outlines generalizing children with
  | nil =>
    rw [DescribeAll] at h
    subst h
    exact h'
  | cons o rest ih =>
    rw [DescribeAll] at h
    obtain ⟨child, siblings, rfl, hchild, hrest⟩ := h
    rw [List.cons_append, DescribeAll]
    exact ⟨child, siblings ++ others, rfl, hchild, ih hrest⟩

theorem DescribeAll.length_eq (h : DescribeAll outlines children) :
    children.length = outlines.length := by
  induction outlines generalizing children with
  | nil =>
    rw [DescribeAll] at h
    rw [h]
    rfl
  | cons o rest ih =>
    rw [DescribeAll] at h
    obtain ⟨child, siblings, rfl, -, hrest⟩ := h
    rw [List.length_cons, List.length_cons, ih hrest]

theorem describes_unreached (o : Outline) (p : Prototype) :
    o.unreached.Describes p ↔ o.Describes p := by
  obtain ⟨paramCount, firstLine, isVararg, isReached, nested⟩ := o
  rw [unreached, Describes, Describes]

theorem DescribeAll.unreached (h : DescribeAll outlines children) :
    DescribeAll (outlines.map Outline.unreached) children := by
  induction outlines generalizing children with
  | nil => exact h
  | cons o rest ih =>
    rw [DescribeAll] at h
    obtain ⟨child, siblings, rfl, hchild, hrest⟩ := h
    rw [List.map_cons, DescribeAll]
    exact ⟨child, siblings, rfl, (describes_unreached o child).mpr hchild, ih hrest⟩

mutual

theorem Describes.functionCount_eq : (o : Outline) → (p : Prototype) → o.Describes p →
    p.functionCount = o.size
  | ⟨_, _, _, _, nested⟩, p, h => by
    rw [Describes] at h
    obtain ⟨-, -, -, -, hnested⟩ := h
    rw [p.functionCount_eq_add, size, DescribeAll.functionCounts_eq nested p.children hnested]

theorem DescribeAll.functionCounts_eq : (outlines : List Outline) → (children : List Prototype) →
    DescribeAll outlines children → Prototype.functionCounts children = sizes outlines
  | [], children, h => by
    rw [DescribeAll] at h
    rw [h, Prototype.functionCounts, sizes]
  | o :: rest, children, h => by
    rw [DescribeAll] at h
    obtain ⟨child, siblings, rfl, hchild, hrest⟩ := h
    rw [Prototype.functionCounts, sizes, Describes.functionCount_eq o child hchild,
      DescribeAll.functionCounts_eq rest siblings hrest]

end

theorem sizes_append (outlines more : List Outline) :
    sizes (outlines ++ more) = sizes outlines + sizes more := by
  induction outlines with
  | nil => simp [sizes]
  | cons o rest ih => simp [sizes, ih, Nat.add_assoc]

theorem sizes_behind (condition : Expr) (outlines : List Outline) :
    sizes (behind condition outlines) = sizes outlines := by
  have hunreached : sizes (outlines.map unreached) = sizes outlines := by
    induction outlines with
    | nil => rfl
    | cons o rest ih =>
      obtain ⟨paramCount, firstLine, isVararg, isReached, nested⟩ := o
      rw [List.map_cons, sizes, sizes, ih, unreached, size, size]
  unfold behind
  split
  · exact hunreached
  · rfl

end Outline

open Outline

mutual

theorem Expr.sizes_outlines : (e : Expr) → sizes e.outlines = e.functions
  | ⟨form, span, _, _⟩ => by
    rw [Expr.outlines, Expr.functions, form.sizes_outlines]

theorem ExprForm.sizes_outlines (line : UInt32) : (form : ExprForm) →
    sizes (form.outlines line) = form.functions
  | .nil | .boolean _ | .integer _ | .number _ | .string _ | .name _ => by
    rw [ExprForm.outlines, ExprForm.functions, sizes]
  | .unary _ operand | .assign _ operand => by
    rw [ExprForm.outlines, ExprForm.functions, operand.sizes_outlines]
  | .binary _ left right | .logical _ left right => by
    rw [ExprForm.outlines, ExprForm.functions, sizes_append, left.sizes_outlines,
      right.sizes_outlines]
  | .call callee args => by
    rw [ExprForm.outlines, ExprForm.functions, sizes_append, callee.sizes_outlines,
      Expr.sizes_listOutlines args]
  | .function f => by
    rw [ExprForm.outlines, ExprForm.functions, sizes, sizes, f.size_outline, Nat.add_zero]
  | .tuple items => by
    rw [ExprForm.outlines, ExprForm.functions, Expr.sizes_listOutlines items]
  | .object fields => by
    rw [ExprForm.outlines, ExprForm.functions, Expr.sizes_fieldOutlines fields]

theorem Expr.sizes_listOutlines : (items : List Expr) →
    sizes (Expr.listOutlines items) = Expr.listFunctions items
  | [] => by rw [Expr.listOutlines, Expr.listFunctions, sizes]
  | e :: rest => by
    rw [Expr.listOutlines, Expr.listFunctions, sizes_append, e.sizes_outlines,
      Expr.sizes_listOutlines rest]

theorem Expr.sizes_fieldOutlines : (fields : List (String × Expr)) →
    sizes (Expr.fieldOutlines fields) = Expr.fieldFunctions fields
  | [] => by rw [Expr.fieldOutlines, Expr.fieldFunctions, sizes]
  | (_, e) :: rest => by
    rw [Expr.fieldOutlines, Expr.fieldFunctions, sizes_append, e.sizes_outlines,
      Expr.sizes_fieldOutlines rest]

theorem FunctionLiteral.size_outline (line : UInt32) : (f : FunctionLiteral) →
    (f.outline line).size = f.functions
  | ⟨_, body, _⟩ => by
    rw [FunctionLiteral.outline, FunctionLiteral.functions, size, Stmt.sizes_listOutlines body,
      Nat.add_comm]

theorem Stmt.sizes_outlines : (stmt : Stmt) → sizes stmt.outlines = stmt.functions
  | ⟨form, span⟩ => by
    rw [Stmt.outlines, Stmt.functions, form.sizes_outlines]

theorem StmtForm.sizes_outlines (line : UInt32) : (form : StmtForm) →
    sizes (form.outlines line) = form.functions
  | .declare _ none | .ret none | .breakLoop | .continueLoop | .classDecl _ => by
    rw [StmtForm.outlines, StmtForm.functions, sizes]
  | .declare _ (some value) | .expr value | .ret (some value) => by
    rw [StmtForm.outlines, StmtForm.functions, value.sizes_outlines]
  | .function _ f => by
    rw [StmtForm.outlines, StmtForm.functions, sizes, sizes, f.size_outline, Nat.add_zero]
  | .branch condition body none => by
    rw [StmtForm.outlines, StmtForm.functions, sizes_append, sizes_behind,
      condition.sizes_outlines, Stmt.sizes_listOutlines body]
  | .branch condition body (some otherwise) => by
    rw [StmtForm.outlines, StmtForm.functions, sizes_append, sizes_append, sizes_behind,
      condition.sizes_outlines, Stmt.sizes_listOutlines body, Stmt.sizes_listOutlines otherwise]
  | .whileLoop condition body => by
    rw [StmtForm.outlines, StmtForm.functions, sizes_append, condition.sizes_outlines,
      Stmt.sizes_listOutlines body]
  | .block body | .tryBlock body => by
    rw [StmtForm.outlines, StmtForm.functions, Stmt.sizes_listOutlines body]

theorem Stmt.sizes_listOutlines : (body : List Stmt) →
    sizes (Stmt.listOutlines body) = Stmt.listFunctions body
  | [] => by rw [Stmt.listOutlines, Stmt.listFunctions, sizes]
  | stmt :: rest => by
    rw [Stmt.listOutlines, Stmt.listFunctions, sizes_append, stmt.sizes_outlines,
      Stmt.sizes_listOutlines rest]

end

end RegisterCode
