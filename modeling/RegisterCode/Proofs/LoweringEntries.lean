import Mathlib.Algebra.Group.Nat.Defs
import Mathlib.Logic.Relation
import RegisterCode.Proofs.LoweredPrograms

/-! Where a translation stands. Lowering a construct comes to its parts, each in the state
that the code before it has led to. What lowering needs is there whenever it comes to a
construct, however deep inside a program. -/
namespace RegisterCode

open Action Relation

namespace Lower
open ChunkBuilder

inductive Construct
  | expr (e : Expr) (dest : Option UInt8)
  | arguments (args : List Expr)
  | closure (f : FunctionLiteral) (name : String) (line : UInt32) (target : UInt8)
  | statement (stmt : Stmt)
  /-- A statement whose position is known already. -/
  | form (span : Span) (form : StmtForm)
  | statements (body : List Stmt)

namespace Construct

def nodes : Construct → Nat
  | .expr e _ => e.nodes
  | .arguments args => Expr.listNodes args
  | .closure f _ _ _ => f.nodes + 1
  | .statement stmt => stmt.nodes
  | .form _ shape => shape.nodes + 1
  | .statements body => Stmt.listNodes body

def isBetween : Construct → Bool
  | .statement _ | .form _ _ | .statements _ => true
  | _ => false

end Construct

/-- Where the value of an assignment goes at once. -/
def storeDest : Variable → (isLogical : Bool) → Option UInt8
  | .register target, false => some target
  | _, _ => none

def callBase (dest : Option UInt8) : Lower UInt8 := do
  let target ← place dest
  if ← isFreshTop target then return target else allocate

/-- The lowering of a construct comes to one of its parts. -/
inductive Enters : Construct → ChunkBuilder → Construct → ChunkBuilder → Prop
  | operand {op operand span type symbol dest target b b'} :
    place dest b = .ok target b' →
    Enters (.expr ⟨.unary op operand, span, type, symbol⟩ dest) b (.expr operand none) b'
  | left {op left right span type symbol dest target b b'} :
    op.shape ≠ .concatenation → place dest b = .ok target b' →
    Enters (.expr ⟨.binary op left right, span, type, symbol⟩ dest) b (.expr left none) b'
  | right {op left right span type symbol dest short b b'} :
    op.shape ≠ .concatenation →
    (do
      let _ ← place dest
      shortened (← expr left none)) b = .ok short b' →
    Enters (.expr ⟨.binary op left right, span, type, symbol⟩ dest) b (.expr right none) b'
  | concatLeft {op left right span type symbol dest first b b'} :
    op.shape = .concatenation →
    (do
      let _ ← place dest
      allocate) b = .ok first b' →
    Enters (.expr ⟨.binary op left right, span, type, symbol⟩ dest) b
      (.expr left (some first)) b'
  | concatRight {op left right span type symbol dest second b b'} :
    op.shape = .concatenation →
    (do
      let _ ← place dest
      let first ← allocate
      let _ ← expr left (some first)
      allocate) b = .ok second b' →
    Enters (.expr ⟨.binary op left right, span, type, symbol⟩ dest) b
      (.expr right (some second)) b'
  | logicalLeft {op left right span type symbol dest target b b'} :
    place dest b = .ok target b' →
    Enters (.expr ⟨.logical op left right, span, type, symbol⟩ dest) b
      (.expr left (some target)) b'
  | logicalRight {op : LogicalOp} {left right span type symbol dest target b b'} :
    (do
      let target ← place dest
      let _ ← expr left (some target)
      emit .test target.toNat 0 (if op = LogicalOp.and then 0 else 1)
      let _ ← jump
      return target) b = .ok target b' →
    Enters (.expr ⟨.logical op left right, span, type, symbol⟩ dest) b
      (.expr right (some target)) b'
  | assigned {name value span type symbol dest found b b'} :
    (do
      let _ ← place dest
      resolve name) b = .ok found b' →
    Enters (.expr ⟨.assign name value, span, type, symbol⟩ dest) b
      (.expr value (storeDest found value.form.isLogical)) b'
  | callee {callee args span type symbol dest base b b'} :
    callBase dest b = .ok base b' →
    Enters (.expr ⟨.call callee args, span, type, symbol⟩ dest) b (.expr callee (some base)) b'
  | calleeArguments {callee args span type symbol dest value b b'} :
    (do
      let base ← callBase dest
      expr callee (some base)) b = .ok value b' →
    Enters (.expr ⟨.call callee args, span, type, symbol⟩ dest) b (.arguments args) b'
  | function {f span type symbol dest target b b'} :
    place dest b = .ok target b' →
    Enters (.expr ⟨.function f, span, type, symbol⟩ dest) b
      (.closure f "anonymous" span.line target) b'
  | firstArgument {arg rest register b b'} :
    allocate b = .ok register b' →
    Enters (.arguments (arg :: rest)) b (.expr arg (some register)) b'
  | otherArguments {arg rest value b b'} :
    (do
      let register ← allocate
      expr arg (some register)) b = .ok value b' →
    Enters (.arguments (arg :: rest)) b (.arguments rest) b'
  | functionBody {params body endLine name line target b b'} :
    (do
      modify (openFunction name line)
      params.forM fun param => do
        let _ ← onCurrent (FunctionBuilder.bindParameter param)) b = .ok () b' →
    Enters (.closure ⟨params, body, endLine⟩ name line target) b (.statements body) b'
  | located {form span b b'} :
    locateKnown span b = .ok () b' → Enters (.statement ⟨form, span⟩) b (.form span form) b'
  | initial {span name init register b b'} :
    allocate b = .ok register b' →
    Enters (.form span (.declare name (some init))) b (.expr init (some register)) b'
  | calledCallee {span callee args span' type symbol base b b'} :
    allocate b = .ok base b' →
    Enters (.form span (.expr ⟨.call callee args, span', type, symbol⟩)) b
      (.expr callee (some base)) b'
  | calledArguments {span callee args span' type symbol value b b'} :
    (do
      let base ← allocate
      expr callee (some base)) b = .ok value b' →
    Enters (.form span (.expr ⟨.call callee args, span', type, symbol⟩)) b (.arguments args) b'
  | stored {span name value span' type symbol found b b'} :
    resolve name b = .ok found b' →
    Enters (.form span (.expr ⟨.assign name value, span', type, symbol⟩)) b
      (.expr value (storeDest found value.form.isLogical)) b'
  | discarded {span value b} :
    (∀ callee args, value.form ≠ .call callee args) →
    (∀ name stored, value.form ≠ .assign name stored) →
    Enters (.form span (.expr value)) b (.expr value none) b
  | localFunction {span name f register b b'} :
    onCurrent (FunctionBuilder.bindLocal name) b = .ok register b' →
    Enters (.form span (.function name f)) b (.closure f name span.line register) b'
  | returned {span value b} :
    Enters (.form span (.ret (some value))) b (.expr value none) b
  | deadBody {span condition body otherwise b b'} :
    condition.form = .boolean false →
    (do
      onCurrent (modify FunctionBuilder.openSection)
      onCurrent (modify (FunctionBuilder.openScope "if"))) b = .ok () b' →
    Enters (.form span (.branch condition body otherwise)) b (.statements body) b'
  | deadElse {span condition body otherwise b b'} :
    condition.form = .boolean false →
    (do
      onCurrent (modify FunctionBuilder.openSection)
      inScope "if" (statements body)
      let _ ← onCurrent FunctionBuilder.discardSection
      onCurrent (modify (FunctionBuilder.openScope "else"))) b = .ok () b' →
    Enters (.form span (.branch condition body (some otherwise))) b (.statements otherwise) b'
  | condition {span condition body otherwise b} :
    condition.form ≠ .boolean false →
    Enters (.form span (.branch condition body otherwise)) b (.expr condition none) b
  | branchBody {span condition body otherwise b b'} :
    condition.form ≠ .boolean false →
    (do
      let _ ← jumpUnless (expr condition none)
      onCurrent (modify (FunctionBuilder.openScope "if"))) b = .ok () b' →
    Enters (.form span (.branch condition body otherwise)) b (.statements body) b'
  | branchElse {span condition body otherwise b b'} :
    condition.form ≠ .boolean false →
    (do
      let skip ← jumpUnless (expr condition none)
      inScope "if" (statements body)
      let _ ← jump
      aimHere skip
      onCurrent (modify (FunctionBuilder.openScope "else"))) b = .ok () b' →
    Enters (.form span (.branch condition body (some otherwise))) b (.statements otherwise) b'
  | loopCondition {span condition body b b'} :
    onCurrent (modify (FunctionBuilder.openLoop (some b.current.pc))) b = .ok () b' →
    Enters (.form span (.whileLoop condition body)) b (.expr condition none) b'
  | loopBody {span condition body b b'} :
    (do
      onCurrent (modify (FunctionBuilder.openLoop (some b.current.pc)))
      let _ ← jumpUnless (expr condition none)
      onCurrent (modify (FunctionBuilder.openScope "while"))) b = .ok () b' →
    Enters (.form span (.whileLoop condition body)) b (.statements body) b'
  | block {span body b b'} :
    onCurrent (modify (FunctionBuilder.openScope "block")) b = .ok () b' →
    Enters (.form span (.block body)) b (.statements body) b'
  | first {stmt rest b} : Enters (.statements (stmt :: rest)) b (.statement stmt) b
  | rest {stmt rest b b'} :
    statement stmt b = .ok () b' → Enters (.statements (stmt :: rest)) b (.statements rest) b'

/-- What lowering needs when it comes to a construct, with some room left over. -/
structure Construct.Fits (slack : Nat) (c : Construct) (b : ChunkBuilder) : Prop where
  ready : b.Ready
  room : b.current.Room (16 * c.nodes + slack)
  atRest : c.isBetween = true → b.current.AtRest

def Spends {α : Type} (cost : Nat) (action : Lower α) : Prop :=
  ∀ (b : ChunkBuilder) (left : Nat), b.Ready → b.current.Room (cost + left) →
    action.Ensures b fun _ b' => b'.Ready ∧ b'.current.Room left

variable {α β : Type} {cost cost' : Nat} {b b' : ChunkBuilder}

theorem Spends.bind {action : Lower α} {next : α → Lower β} (h : Spends cost action)
    (hnext : ∀ value, Spends cost' (next value)) : Spends (cost + cost') (action >>= next) := by
  intro b left hb hroom
  apply (h b (cost' + left) hb (by rwa [← Nat.add_assoc])).bind
  rintro value b₁ ⟨hready, hroom₁⟩
  exact hnext value b₁ left hready hroom₁

theorem spends_pure (value : α) : Spends 0 (pure value) :=
  fun _ _ hb hroom => ensures_pure ⟨hb, hroom.weaken (by omega)⟩

theorem spends_of_grows {action : Lower α}
    (h : ∀ b : ChunkBuilder, b.Ready → b.current.Room cost →
      action.Ensures b fun _ b' => b.Grows cost b') : Spends cost action := by
  intro b left hb hroom
  apply (h b hb (hroom.weaken (by omega))).mono
  intro _ b' hgrows
  exact ⟨hgrows.ready hb, hroom.after hgrows.current (by omega)⟩

theorem spends_allocate : Spends 0 allocate :=
  spends_of_grows fun _ hb _ => (allocate_ensures hb).mono fun _ _ hpost => hpost.1

theorem spends_place (dest : Option UInt8) : Spends 0 (place dest) :=
  spends_of_grows fun _ hb _ => (place_delivers hb dest).mono fun _ _ hpost => hpost.grows

theorem spends_resolve (name : String) : Spends 0 (resolve name) :=
  spends_of_grows fun _ hb _ => (resolve_balanced hb name).mono fun _ _ hpost => hpost.1.toGrows

theorem spends_expr (e : Expr) (dest : Option UInt8) : Spends (16 * e.nodes) (expr e dest) :=
  spends_of_grows fun b hb hroom => (lowerable e dest b hb hroom).mono fun _ _ hpost =>
    hpost.grows

theorem spends_shortened (e : Expr) :
    Spends (16 * e.nodes + 4) (do shortened (← expr e none)) := by
  apply spends_of_grows
  intro b hb hroom
  apply (lowerable e none b hb (hroom.weaken (by omega))).bind
  intro operand b₁ hlowered
  rw [shortened_eq]
  apply (toShort_yields hb hlowered).bind
  intro short b₂ hshort
  exact ensures_pure hshort.toGrows

theorem spends_callBase (dest : Option UInt8) : Spends 0 (callBase dest) := by
  change Spends (0 + (0 + 0)) (callBase dest)
  refine (spends_place dest).bind fun target => ?_
  have hfresh : Spends 0 (isFreshTop target) :=
    fun _ _ hb hroom => ensures_of_eq_ok rfl ⟨hb, hroom.weaken (by omega)⟩
  refine hfresh.bind fun fresh => ?_
  cases fresh with
  | true => exact spends_pure target
  | false => exact spends_allocate

theorem spends_test_jump (target : UInt8) (expected : Int) :
    Spends 2 (do
      emit .test target.toNat 0 expected
      let _ ← jump
      return target) := by
  intro b left hb hroom
  rw [← bind_assoc]
  apply (test_jump_awaits hb target expected).bind
  intro _ b' hwaiting
  exact ensures_pure ⟨hwaiting.ready hb, hroom.after hwaiting.current (by omega)⟩

def Rests {α : Type} (cost : Nat) (action : Lower α) : Prop :=
  ∀ (b : ChunkBuilder) (left : Nat), b.Ready → b.current.AtRest →
    b.current.Room (cost + left) →
    action.Ensures b fun _ b' => b'.Ready ∧ b'.current.AtRest ∧ b'.current.Room left

theorem Rests.bind {action : Lower α} {next : α → Lower β} (h : Rests cost action)
    (hnext : ∀ value, Rests cost' (next value)) : Rests (cost + cost') (action >>= next) := by
  intro b left hb hrest hroom
  apply (h b (cost' + left) hb hrest (by rwa [← Nat.add_assoc])).bind
  rintro value b₁ ⟨hready, hrest₁, hroom₁⟩
  exact hnext value b₁ left hready hrest₁ hroom₁

theorem rests_of_advances {pending : List Nat} {left : Nat} (h : b.Advances pending cost b')
    (hb : b.Ready) (hroom : b.current.Room (cost + left)) :
    b'.Ready ∧ b'.current.AtRest ∧ b'.current.Room left :=
  ⟨h.ready hb, h.current.atRest, h.current.room hroom (Nat.le_refl _)⟩

theorem rests_of_advancing {action : Lower Unit} (h : Advancing cost action) :
    Rests cost action := by
  intro b left hb hrest hroom
  apply (h b hb hrest (hroom.weaken (by omega))).mono
  intro _ b' hadvances
  exact rests_of_advances hadvances hb hroom

theorem rests_openScope (name : String) :
    Rests 0 (onCurrent (modify (FunctionBuilder.openScope name))) := by
  intro b left hb hrest hroom
  apply ensures_of_eq_ok (onCurrent_modify_eq_ok.mpr rfl)
  exact ⟨hb.withCurrent (FunctionBuilder.sound_openScope hb.sound name) List.prefix_rfl,
    FunctionBuilder.atRest_openScope hrest name, hroom.weaken (by omega)⟩

theorem rests_openSection : Rests 0 (onCurrent (modify FunctionBuilder.openSection)) := by
  intro b left hb hrest hroom
  apply ensures_of_eq_ok (onCurrent_modify_eq_ok.mpr rfl)
  exact ⟨hb.withCurrent { hb.sound with } List.prefix_rfl, hrest, hroom.weaken (by omega)⟩

theorem rests_bindLocal (name : String) :
    Rests 0 (onCurrent (FunctionBuilder.bindLocal name)) := by
  intro b left hb hrest hroom
  have hcapacity : b.current.pc ≤ FunctionBuilder.capacity :=
    Nat.le_trans (Nat.le_add_right _ _) hroom.1
  apply (onCurrent_ensures
    (FunctionBuilder.bindLocal_ensures hb.sound hrest hcapacity name)).mono
  rintro register _ ⟨f, ⟨-, hlocal⟩, rfl⟩
  exact rests_of_advances (advances_withCurrent hlocal) hb hroom

theorem rests_jumpUnless (condition : Expr) :
    Rests (16 * condition.nodes + 6) (jumpUnless (expr condition none)) := by
  intro b left hb hrest hroom
  apply (jumpUnless_awaits (lowerable condition none) hb (hroom.weaken (by omega))).mono
  intro skip b' hwaiting
  exact rests_of_advances (hwaiting.advances hrest) hb hroom

theorem ready_openLoop (h : b.Ready) :
    Ready { b with current := b.current.openLoop (some b.current.pc) } :=
  h.withCurrent (FunctionBuilder.sound_openLoop h.sound) List.prefix_rfl

theorem rests_deadBranch (body : List Stmt) :
    Rests (16 * Stmt.listNodes body) (do
      onCurrent (modify FunctionBuilder.openSection)
      inScope "if" (statements body)
      let _ ← onCurrent FunctionBuilder.discardSection
      onCurrent (modify (FunctionBuilder.openScope "else"))) := by
  have hgone := deadBranch_advancing (advancing_statements body) skip_advancing
  have hopened := (rests_of_advancing hgone).bind fun _ => rests_openScope "else"
  simpa only [deadBranch, bind_assoc, pure_bind, Nat.add_zero] using hopened

theorem rests_branch (condition : Expr) (body : List Stmt) :
    Rests (16 * condition.nodes + 16 * Stmt.listNodes body + 7) (do
      let skip ← jumpUnless (expr condition none)
      inScope "if" (statements body)
      let _ ← jump
      aimHere skip
      onCurrent (modify (FunctionBuilder.openScope "else"))) := by
  intro b left hb hrest hroom
  apply (jumpUnless_awaits (lowerable condition none) hb (hroom.weaken (by omega))).bind
  intro skip b₁ hwaiting
  have htested := hwaiting.advances hrest
  apply (inScope_advancing (advancing_statements body) "if" b₁ (htested.ready hb)
    htested.current.atRest (htested.current.room hroom (by omega))).bind
  intro _ b₂ hinside
  have hthen := htested.trans hinside
  apply (jump_awaits (hthen.ready hb)).bind
  intro done b₃ hwaiting'
  have hboth := hthen.trans (hwaiting'.advances hthen.current.atRest)
  have hroom₃ : b₃.current.Room 0 := hboth.current.room hroom (by omega)
  apply (aimHere_advances hboth hroom₃.1 (by simp)
    (show ∀ q ∈ [skip] ++ [] ++ [done], q = skip ∨ q ∈ [done] by simp) (by simp)).bind
  intro _ b₄ haimed
  exact rests_openScope "else" b₄ left (haimed.ready hb) haimed.current.atRest
    (haimed.current.room hroom (by omega))

namespace Construct.Fits

variable {slack : Nat} {c inner : Construct}

theorem nodes_branch_ge (condition : Expr) (body : List Stmt) (otherwise : Option (List Stmt)) :
    condition.nodes + Stmt.listNodes body ≤ (StmtForm.branch condition body otherwise).nodes := by
  cases otherwise with
  | none => exact Nat.le_of_eq (by rw [StmtForm.nodes])
  | some otherwise =>
    rw [StmtForm.nodes]
    omega

theorem inside {before : Lower α} {value : α} (h : c.Fits slack b) (hspends : Spends cost before)
    (hrun : before b = .ok value b') (hcount : cost + 16 * inner.nodes ≤ 16 * c.nodes)
    (hexpr : inner.isBetween = false) : inner.Fits slack b' := by
  have hroom : b.current.Room (cost + (16 * inner.nodes + slack)) := h.room.weaken (by omega)
  obtain ⟨hready, hroom'⟩ := (hspends b _ h.ready hroom).of_ok hrun
  exact ⟨hready, hroom', by simp [hexpr]⟩

theorem between {before : Lower α} {value : α} (h : c.Fits slack b)
    (hbetween : c.isBetween = true) (hrests : Rests cost before) (hrun : before b = .ok value b')
    (hcount : cost + 16 * inner.nodes ≤ 16 * c.nodes) : inner.Fits slack b' := by
  have hroom : b.current.Room (cost + (16 * inner.nodes + slack)) := h.room.weaken (by omega)
  obtain ⟨hready, hrest, hroom'⟩ := (hrests b _ h.ready (h.atRest hbetween) hroom).of_ok hrun
  exact ⟨hready, hroom', fun _ => hrest⟩

theorem functionBody {params : List String} {body : List Stmt} {endLine line : UInt32}
    {name : String} {target : UInt8}
    (h : (Construct.closure ⟨params, body, endLine⟩ name line target).Fits slack b)
    (hrun : (do
      modify (openFunction name line)
      params.forM fun param => do
        let _ ← onCurrent (FunctionBuilder.bindParameter param)) b = .ok () b') :
    (Construct.statements body).Fits slack b' := by
  have hfresh := FunctionBuilder.fresh_start name (some b.level) line b.current.line
  have hopened : (do
      modify (openFunction name line)
      params.forM fun param => do
        let _ ← onCurrent (FunctionBuilder.bindParameter param)).Ensures b fun _ b' =>
      (Construct.statements body).Fits slack b' := by
    apply ensures_modify_bind
    apply (parameters_ensures params hfresh).mono
    rintro _ _ ⟨f, hstarted, rfl⟩
    have hroom := h.room.1
    rw [Construct.nodes, FunctionLiteral.nodes] at hroom
    exact ⟨⟨hstarted.sound, h.ready.environment⟩,
      hstarted.room (by rw [Construct.nodes]; omega), fun _ => hstarted.atRest⟩
  exact hopened.of_ok hrun

theorem enters (h : c.Fits slack b) (henters : Enters c b inner b') : inner.Fits slack b' := by
  cases henters with
  | operand hrun | left _ hrun | logicalLeft hrun | function hrun =>
    refine h.inside (spends_place _) hrun ?_ rfl
    simp only [nodes, Expr.nodes, ExprForm.nodes]
    omega
  | right _ hrun =>
    refine h.inside ((spends_place _).bind fun _ => spends_shortened _) hrun ?_ rfl
    simp only [nodes, Expr.nodes, ExprForm.nodes]
    omega
  | concatLeft _ hrun =>
    refine h.inside ((spends_place _).bind fun _ => spends_allocate) hrun ?_ rfl
    simp only [nodes, Expr.nodes, ExprForm.nodes]
    omega
  | concatRight _ hrun =>
    refine h.inside ((spends_place _).bind fun _ => spends_allocate.bind fun _ =>
      (spends_expr _ _).bind fun _ => spends_allocate) hrun ?_ rfl
    simp only [nodes, Expr.nodes, ExprForm.nodes]
    omega
  | logicalRight hrun =>
    refine h.inside ((spends_place _).bind fun target => (spends_expr _ _).bind fun _ =>
      spends_test_jump target _) hrun ?_ rfl
    simp only [nodes, Expr.nodes, ExprForm.nodes]
    omega
  | assigned hrun =>
    refine h.inside ((spends_place _).bind fun _ => spends_resolve _) hrun ?_ rfl
    simp only [nodes, Expr.nodes, ExprForm.nodes]
    omega
  | callee hrun =>
    refine h.inside (spends_callBase _) hrun ?_ rfl
    simp only [nodes, Expr.nodes, ExprForm.nodes]
    omega
  | calleeArguments hrun =>
    refine h.inside ((spends_callBase _).bind fun _ => spends_expr _ _) hrun ?_ rfl
    simp only [nodes, Expr.nodes, ExprForm.nodes]
    omega
  | firstArgument hrun | initial hrun | calledCallee hrun =>
    refine h.inside spends_allocate hrun ?_ rfl
    simp only [nodes, Expr.listNodes, StmtForm.nodes, Expr.nodes, ExprForm.nodes]
    omega
  | otherArguments hrun | calledArguments hrun =>
    refine h.inside (spends_allocate.bind fun _ => spends_expr _ _) hrun ?_ rfl
    simp only [nodes, Expr.listNodes, StmtForm.nodes, Expr.nodes, ExprForm.nodes]
    omega
  | functionBody hrun => exact h.functionBody hrun
  | located hrun =>
    refine h.between rfl (rests_of_advancing (locateKnown_advancing _)) hrun ?_
    simp only [nodes, Stmt.nodes]
    omega
  | stored hrun =>
    refine h.inside (spends_resolve _) hrun ?_ rfl
    simp only [nodes, StmtForm.nodes, Expr.nodes, ExprForm.nodes]
    omega
  | discarded _ _ | returned =>
    refine h.inside (spends_pure ()) rfl ?_ rfl
    simp only [nodes, StmtForm.nodes]
    omega
  | localFunction hrun =>
    refine h.between rfl (rests_bindLocal _) hrun ?_
    simp only [nodes, StmtForm.nodes]
    omega
  | @deadBody _ condition body otherwise _ _ _ hrun =>
    have hnodes := nodes_branch_ge condition body otherwise
    refine h.between rfl (rests_openSection.bind fun _ => rests_openScope _) hrun ?_
    simp only [nodes] at hnodes ⊢
    omega
  | deadElse _ hrun =>
    refine h.between rfl (rests_deadBranch _) hrun ?_
    simp only [nodes, StmtForm.nodes]
    omega
  | @condition _ condition body otherwise _ _ =>
    have hnodes := nodes_branch_ge condition body otherwise
    refine h.inside (spends_pure ()) rfl ?_ rfl
    simp only [nodes] at hnodes ⊢
    omega
  | @branchBody _ condition body otherwise _ _ _ hrun =>
    have hnodes := nodes_branch_ge condition body otherwise
    refine h.between rfl ((rests_jumpUnless _).bind fun _ => rests_openScope _) hrun ?_
    simp only [nodes] at hnodes ⊢
    omega
  | branchElse _ hrun =>
    refine h.between rfl (rests_branch _ _) hrun ?_
    simp only [nodes, StmtForm.nodes]
    omega
  | loopCondition hrun =>
    cases onCurrent_modify_eq_ok.mp hrun
    have hroom := h.room
    simp only [nodes, StmtForm.nodes] at hroom
    exact ⟨ready_openLoop h.ready, hroom.weaken (by simp only [nodes]; omega), by simp [isBetween]⟩
  | @loopBody _ condition body _ _ hrun =>
    obtain ⟨_, _, hopened, hrun⟩ := bind_eq_ok.mp hrun
    cases onCurrent_modify_eq_ok.mp hopened
    have hroom := h.room
    simp only [nodes, StmtForm.nodes] at hroom
    have htested := (rests_jumpUnless condition).bind fun _ => rests_openScope "while"
    obtain ⟨hready, hrest, hroom'⟩ := (htested _ (16 * Stmt.listNodes body + slack)
      (ready_openLoop h.ready) (h.atRest rfl) (hroom.weaken (by omega))).of_ok hrun
    exact ⟨hready, hroom', fun _ => hrest⟩
  | block hrun =>
    refine h.between rfl (rests_openScope _) hrun ?_
    simp only [nodes, StmtForm.nodes]
    omega
  | first =>
    refine h.between rfl (rests_of_advancing skip_advancing) rfl ?_
    simp only [nodes, Stmt.listNodes]
    omega
  | rest hrun =>
    refine h.between rfl (rests_of_advancing (advancing_statement _)) hrun ?_
    simp only [nodes, Stmt.listNodes]
    omega

end Construct.Fits

/-- The lowering of a program comes to a construct in this state. -/
def Reaches (program : Program) (options : Options) (map : Option SourceMap) (c : Construct)
    (b : ChunkBuilder) : Prop :=
  ReflTransGen (fun (here there : Construct × ChunkBuilder) =>
    Enters here.1 here.2 there.1 there.2) (.statements program.body, .start options map) (c, b)

variable {program : Program} {options : Options} {map : Option SourceMap} {c : Construct}

theorem Reaches.start : Reaches program options map (.statements program.body)
    (.start options map) :=
  .refl

theorem Reaches.step {inner : Construct} (h : Reaches program options map c b)
    (henters : Enters c b inner b') : Reaches program options map inner b' :=
  h.tail henters

theorem Reaches.fits (h : Reaches program options map c b) (hsize : program.nodes < 2 ^ 24) :
    c.Fits (2 ^ 28) b := by
  have hstart : (Construct.statements program.body).Fits (2 ^ 28) (.start options map) := by
    have hfresh := FunctionBuilder.fresh_root options.chunkName
    refine ⟨Program.ready_start, hfresh.room ?_, fun _ => hfresh.atRest⟩
    unfold FunctionBuilder.capacity
    unfold Program.nodes at hsize
    rw [Construct.nodes]
    omega
  unfold Reaches at h
  generalize hthere : (c, b) = there at h
  have hfits : there.1.Fits (2 ^ 28) there.2 := by
    clear hthere
    induction h with
    | refl => exact hstart
    | tail _ hstep ih => exact ih.enters hstep
  rwa [← hthere] at hfits

end Lower

end RegisterCode
