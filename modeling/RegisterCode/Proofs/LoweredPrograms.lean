import Mathlib.Algebra.Group.Nat.Defs
import RegisterCode.Compile
import RegisterCode.Proofs.FinishedFunctions
import RegisterCode.Proofs.LoweringInduction
import RegisterCode.Proofs.TreeSize

/-! Lowering as a whole. Every construct keeps the invariant, so a program is never the
victim of the builders' rules, and what comes out of it is well formed. -/
namespace RegisterCode

open Action

namespace Lower
open ChunkBuilder

def Lowerable (e : Expr) : Prop :=
  Serving (16 * e.nodes) (expr e)

/-- Sixteen instructions and constants are enough for a node of the tree. -/
theorem sixteenfold : StmtRules (fun e => Serving (16 * e.nodes))
    (fun args => Stacking (16 * Expr.listNodes args))
    (fun f closure => ∀ name line target, Balancing (16 * (f.nodes + 1)) (closure name line target))
    (fun _ form => Advancing (16 * (form.nodes + 1))) (fun stmt => Advancing (16 * stmt.nodes))
    (fun body => Advancing (16 * Stmt.listNodes body)) where
  nil := (serving_immediate rfl).weaken (by rw [Expr.nodes]; omega)
  boolean v := (serving_immediate rfl).weaken (by rw [Expr.nodes]; omega)
  integer v := (serving_constant _).weaken (by rw [Expr.nodes]; omega)
  number v := (serving_constant _).weaken (by rw [Expr.nodes]; omega)
  string v := (serving_constant _).weaken (by rw [Expr.nodes]; omega)
  name name := (serving_name name).weaken (by rw [Expr.nodes]; omega)
  unary op hoperand := by
    rw [Expr.nodes, ExprForm.nodes]
    exact (inPlace_serving (unaryInto_balancing hoperand op)).weaken (by omega)
  binary op hleft hright := by
    rw [Expr.nodes, ExprForm.nodes]
    exact (inPlace_serving (binaryInto_balancing hleft hright op)).weaken (by omega)
  logical op hleft hright := by
    rw [Expr.nodes, ExprForm.nodes]
    exact (inPlace_serving (logicalInto_balancing hleft hright op)).weaken (by omega)
  assign name hstored := by
    rw [Expr.nodes, ExprForm.nodes]
    exact (inPlace_serving (assignInto_balancing hstored name _)).weaken (by omega)
  call hcallee hargs := by
    rw [Expr.nodes, ExprForm.nodes]
    exact (inPlace_serving (callInto_balancing hcallee hargs)).weaken (by omega)
  function hclosure := by
    rw [Expr.nodes, ExprForm.nodes]
    exact inPlace_serving (hclosure _ _)
  tuple _ := serving_throw trivial
  object _ := serving_throw trivial
  noArgs := stacking_nil
  moreArgs hactual hrest := by
    rw [Expr.listNodes, Nat.mul_add]
    exact stacking_cons hactual hrest
  closure params endLine hbody name line target := by
    rw [FunctionLiteral.nodes, Nat.mul_add]
    exact functionInto_balancing hbody params name line _ target
  declareNil name := by
    have hvalue : ∀ register : UInt8, Balancing 1 (emit .loadNil register.toNat 0 0) :=
      fun _ _ h _ => emit_balanced h (Instruction.isPlain_of_op rfl)
    exact (declareLocal_advancing hvalue name).weaken (by omega)
  declare name hinit := by
    rw [StmtForm.nodes]
    exact (declareLocal_advancing (fun register => (hinit (some register)).ignoring) name).weaken
      (by omega)
  callStatement hcallee hargs := by
    rw [StmtForm.nodes, Expr.nodes, ExprForm.nodes]
    exact (callStatement_advancing hcallee hargs).weaken (by omega)
  assignStatement name hstored := by
    rw [StmtForm.nodes, Expr.nodes, ExprForm.nodes]
    exact (discard_advancing (store_delivering name _ hstored)).weaken (by omega)
  discard _ _ hvalue := by
    rw [StmtForm.nodes]
    exact (discard_advancing (hvalue none)).weaken (by omega)
  define name hclosure := by
    rw [StmtForm.nodes]
    exact defineFunction_advancing (hclosure _ _) name
  returnNothing := returnNothing_advancing.weaken (by omega)
  returnValue hvalue := by
    rw [StmtForm.nodes]
    exact (returnValue_advancing (hvalue none)).weaken (by omega)
  deadBranch _ hbody := by
    rw [StmtForm.nodes]
    exact (deadBranch_advancing hbody skip_advancing).weaken (by omega)
  deadBranchElse _ hbody hotherwise := by
    rw [StmtForm.nodes]
    exact (deadBranch_advancing hbody (inScope_advancing hotherwise "else")).weaken (by omega)
  branch _ hcondition hbody := by
    rw [StmtForm.nodes]
    exact (branch_advancing (hcondition none) hbody).weaken (by omega)
  branchElse _ hcondition hbody hotherwise := by
    rw [StmtForm.nodes]
    exact (branchElse_advancing (hcondition none) hbody hotherwise).weaken (by omega)
  whileLoop hcondition hbody := by
    rw [StmtForm.nodes]
    exact (whileLoop_advancing (hcondition none) hbody).weaken (by omega)
  breakLoop := breakLoop_advancing.weaken (by omega)
  continueLoop := continueLoop_advancing.weaken (by omega)
  block hbody := by
    rw [StmtForm.nodes]
    exact (inScope_advancing hbody "block").weaken (by omega)
  classDecl _ := throw_advancing trivial
  tryBlock _ := throw_advancing trivial
  located hform := by
    rw [Stmt.nodes]
    exact (advancing_seq (locateKnown_advancing _) hform).weaken (by omega)
  empty := skip_advancing
  sequence hfirst hrest := by
    rw [Stmt.listNodes, Nat.mul_add]
    exact advancing_seq hfirst hrest

theorem lowerable (e : Expr) : Lowerable e :=
  sixteenfold.holds_expr e

theorem stacking_arguments (args : List Expr) :
    Stacking (16 * Expr.listNodes args) (arguments args) :=
  sixteenfold.holds_arguments args

theorem balancing_closure (f : FunctionLiteral) (name : String) (line : UInt32) (target : UInt8) :
    Balancing (16 * (f.nodes + 1)) (closure f name line target) :=
  sixteenfold.holds_closure f name line target

theorem advancing_statement (stmt : Stmt) : Advancing (16 * stmt.nodes) (statement stmt) :=
  sixteenfold.holds_statement stmt

theorem advancing_form (span : Span) (form : StmtForm) :
    Advancing (16 * (form.nodes + 1)) (statementForm span form) :=
  sixteenfold.holds_form span form

theorem advancing_statements (body : List Stmt) :
    Advancing (16 * Stmt.listNodes body) (statements body) :=
  sixteenfold.holds_statements body

end Lower

namespace Program
open ChunkBuilder

variable {program : Program} {options : Options} {map : Option SourceMap}

def lowering (program : Program) : Lower Unit := do
  Lower.statements program.body
  Lower.returnNothing

theorem build_eq (program : Program) (options : Options) (map : Option SourceMap) :
    program.build options map =
      match program.lowering (.start options map) with
      | .error error _ => .error error
      | .ok _ b => b.finish program.endLine >>= fun main => .ok (main, b.map) :=
  rfl

theorem ready_start : Ready (.start options map) where
  sound := (FunctionBuilder.fresh_root options.chunkName).sound
  environment := ⟨⟨FunctionBuilder.environmentName, true, 0⟩,
    by simp [start, FunctionBuilder.root], rfl⟩

theorem lowering_ensures (hsize : program.nodes < 2 ^ 24) :
    program.lowering.Ensures (.start options map) fun _ b =>
      b.Ready ∧ b.enclosing = [] ∧ b.current.Done := by
  have hfresh := FunctionBuilder.fresh_root options.chunkName
  have hle : 16 * Stmt.listNodes program.body + 1 ≤ FunctionBuilder.capacity := by
    unfold FunctionBuilder.capacity
    unfold nodes at hsize
    omega
  apply (Lower.body_ensures (Lower.advancing_statements program.body) ready_start hfresh hle).mono
  rintro _ b ⟨hb, haround, hdone⟩
  exact ⟨hb, List.forall₂_nil_left_iff.mp haround.enclosing, hdone⟩

theorem finish_lowered {b : ChunkBuilder} (h : b.Ready) (henclosing : b.enclosing = [])
    (hdone : b.current.Done) (lastLine : UInt32) :
    ∃ main, b.finish lastLine = .ok main ∧ ∀ p : Prototype, p.Within main → p.IsWellFormed := by
  obtain ⟨main, hmain, hwellFormed⟩ := FunctionBuilder.finish_wellFormed hdone h.sound lastLine
  refine ⟨{ main with source := some b.options.chunkName }, ?_, ?_⟩
  · rw [ChunkBuilder.finish, henclosing]
    simp only [hmain]
    rfl
  · intro p hp
    cases hp with
    | self => exact { hwellFormed main (.self main) with }
    | nested hchild hwithin => exact hwellFormed p (.nested hchild hwithin)

/-- Every function of a lowered program is well formed. -/
theorem isWellFormed_of_build (program : Program) (options : Options) (map : Option SourceMap)
    (hsize : program.nodes < 2 ^ 24) {main : Prototype} {map' : Option SourceMap}
    (hbuild : program.build options map = .ok (main, map')) {p : Prototype}
    (hwithin : p.Within main) : p.IsWellFormed := by
  rw [build_eq] at hbuild
  split at hbuild
  · simp at hbuild
  · next b hrun =>
    obtain ⟨hready, henclosing, hdone⟩ := (lowering_ensures hsize).of_ok hrun
    obtain ⟨main', hfinish, hwellFormed⟩ := finish_lowered hready henclosing hdone program.endLine
    obtain ⟨_, hmain, hpair⟩ := except_bind_eq_ok.mp hbuild
    rw [hfinish] at hmain
    injection hmain with hmain
    injection hpair with hpair
    injection hpair with hsame
    rw [← hsame, ← hmain] at hwithin
    exact hwellFormed p hwithin

/-- A local function with a loop that is left by one branch, gone on with by the other, and
that has a dead branch in front of both. -/
def loopInFunction : Program :=
  .of [.of (.declare "x" none), .of (.function "f" ⟨["y"], [.of (.whileLoop (.of (.name "y"))
    [.of (.branch (.of (.boolean false)) [.of .breakLoop] (some [.of .continueLoop])),
      .of (.branch (.of (.binary .eq (.of (.name "x")) (.of (.name "y"))))
        [.of .breakLoop] (some [.of .continueLoop]))])], 0⟩)]

theorem isWellFormed_of_build_loop :
    ∃ main map, loopInFunction.build {} none = .ok (main, map) ∧ main.children.length = 1 ∧
      ∀ p : Prototype, p.Within main → p.IsWellFormed := by
  have hok : (match loopInFunction.build {} none with
      | .ok (main, _) => main.children.length == 1
      | .error _ => false) = true := by decide +kernel
  split at hok
  · next main map hbuild =>
    exact ⟨main, map, hbuild, by simpa using hok, fun _ hwithin =>
      isWellFormed_of_build loopInFunction {} none (by decide) hbuild hwithin⟩
  · simp at hok

end Program

end RegisterCode
