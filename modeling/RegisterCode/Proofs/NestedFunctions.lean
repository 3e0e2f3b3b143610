import RegisterCode.Proofs.ClosedFunctions
import RegisterCode.Proofs.LoweredPrograms
import RegisterCode.Proofs.NestingSteps
import RegisterCode.Proofs.TrackedPrograms

/-! Lowering keeps the nesting of functions. Each construct takes in the functions of its
parts from left to right, so that the prototypes of a program have its outline. -/
namespace RegisterCode

open Action

theorem Instruction.child?_kept (i : Instruction) : i.kept.child? = i.child? := by
  obtain ⟨op, a, b, c, line⟩ := i
  cases op <;> rfl

theorem Prototype.closures_of_mapM_encode {code : List Instruction} {words : List UInt32}
    (h : code.mapM Instruction.encode = .ok words) {p : Prototype} (hcode : p.code = words) :
    p.closures = code.filterMap Instruction.child? := by
  unfold closures
  rw [hcode]
  refine Instruction.filterMap_of_mapM_encode (fun i word hword => ?_) h
  rw [Instruction.decode_encode hword, ← i.child?_kept]
  rfl

namespace FunctionBuilder

variable {f f' f'' : FunctionBuilder} {outlines : List Outline}

theorem Nests.describes (h : f.Nests outlines f') (hchildren : f.children = #[])
    (hlisting : f.listing = []) {lastLine : UInt32} {p : Prototype}
    (hfinish : f'.finish lastLine = .ok p) (isReached : Bool) :
    Outline.Describes ⟨f.paramCount.toNat, f.firstLine, f.isVararg, isReached, outlines⟩ p := by
  obtain ⟨words, hwords, -, rfl⟩ := prototype_of_finish hfinish
  obtain ⟨added, hadded, hall⟩ := h.children
  obtain ⟨code, hcode, hreached⟩ := h.makes
  have hhead := h.head
  simp only [FunctionBuilder.head, Prod.mk.injEq] at hhead
  obtain ⟨hparams, hline, hvararg, -⟩ := hhead
  rw [Outline.Describes]
  refine ⟨congrArg UInt8.toNat hparams, hline, hvararg, ?_, ?_⟩
  · intro index
    have hclosures :=
      Prototype.closures_of_mapM_encode hwords (p := f'.prototype words lastLine) rfl
    have hmakes : f'.makes = code := by
      have hempty : f.makes = [] := by rw [FunctionBuilder.makes, hlisting, List.map_nil]
      rwa [hempty, List.nil_append] at hcode
    have hmade : f'.listing.filterMap Instruction.child? = Outline.reachedFrom 0 outlines := by
      rw [hchildren, ← hmakes, FunctionBuilder.makes, List.filterMap_map] at hreached
      exact hreached
    have hcount := Outline.count_reachedFrom 0 index outlines
    rw [Nat.zero_add] at hcount
    rw [hclosures, hmade, hcount]
  · rw [hchildren] at hadded
    have hsame : f'.children.toList = added := hadded
    rwa [prototype, hsame]

theorem Nests.discarded (h : f.openSection.Nests outlines f') {removed : Nat}
    (hrun : discardSection f' = .ok removed f'') :
    f.Nests (outlines.map Outline.unreached) f'' := by
  obtain ⟨added, hadded, hall⟩ := h.children
  obtain ⟨code, hcode, -⟩ := h.makes
  have hhead := h.head
  simp only [FunctionBuilder.head, openSection, Prod.mk.injEq] at hhead
  obtain ⟨hparams, hline, hvararg, hsections⟩ := hhead
  have hmakes : f'.makes = f.makes ++ code := hcode
  have hlength : ∀ g : FunctionBuilder, g.makes.length = g.pc := by
    intro g
    rw [FunctionBuilder.makes, List.length_map, length_listing]
  have hle : f.pc ≤ f'.pc := by
    rw [← hlength f', hmakes, List.length_append, hlength f]
    exact Nat.le_add_right _ _
  obtain rfl := (discardSection_ensures hsections hle).of_ok hrun
  have hcut : (f'.cutTo f.code.size f.code.sections).makes = f.makes := by
    have htake : (f'.cutTo f.code.size f.code.sections).listing = f'.listing.take f.pc := by
      simp [cutTo, listing, pc]
    rw [FunctionBuilder.makes, htake, List.map_take]
    change f'.makes.take f.pc = f.makes
    rw [hmakes]
    exact List.take_left' (hlength f)
  refine ⟨⟨added, hadded, hall.unreached⟩, ⟨[], ?_, ?_⟩, ?_⟩
  · rw [List.append_nil]
    exact hcut
  · rw [Outline.reachedFrom_unreached]
    rfl
  · simp only [FunctionBuilder.head, cutTo, hparams, hline, hvararg]

structure Opened (count : Nat) (line : UInt32) (f : FunctionBuilder) : Prop where
  children : f.children = #[]
  listing : f.listing = []
  params : f.paramCount.toNat = count
  firstLine : f.firstLine = line
  isVararg : f.isVararg = false
  /-- Each parameter has a register. -/
  nextFree : f.nextFree = count

theorem opened_start (name : String) (outerLevel : Option Nat) (firstLine line : UInt32) :
    ((start name outerLevel firstLine).setLine line).Opened 0 firstLine :=
  ⟨rfl, rfl, rfl, rfl, rfl, rfl⟩

theorem Opened.bindParameter {count : Nat} {line : UInt32} (h : f.Opened count line)
    {name : String} {register : UInt8} (hrun : bindParameter name f = .ok register f') :
    f'.Opened (count + 1) line := by
  obtain ⟨_, _, hget, hrun⟩ := bind_eq_ok.mp hrun
  obtain ⟨rfl, rfl⟩ := get_eq_ok.mp hget
  obtain ⟨register, f₁, hbind, hrun⟩ := bind_eq_ok.mp hrun
  cases hrun
  rw [bindName_apply] at hbind
  split at hbind
  · cases hbind
  split at hbind
  · cases hbind
  · next register' g hallocate =>
    cases hbind
    obtain ⟨hlt, -, rfl⟩ := (allocate_ensures f).of_ok hallocate
    have hfits : count + 1 < 256 := by
      rw [h.nextFree] at hlt
      exact Nat.succ_lt_succ hlt
    have hparams : (f.paramCount + 1).toNat = count + 1 := by
      rw [UInt8.toNat_add, h.params]
      exact Nat.mod_eq_of_lt hfits
    exact ⟨h.children, h.listing, hparams, h.firstLine, h.isVararg, congrArg (· + 1) h.nextFree⟩

end FunctionBuilder

namespace Lower
open ChunkBuilder

variable {α β : Type} {outlines more : List Outline}

theorem adds_shortPair {left right : Lower Operand} (hleft : Adds outlines left)
    (hright : Adds more right) : Adds (outlines ++ more) (shortPair left right) := by
  rw [shortPair_eq]
  exact hleft.bind fun _ => (adds_toShort _).before fun _ => hright.followed fun _ =>
    (adds_toShort _).before fun _ => (adds_free _).before fun _ => (adds_free _).before fun _ =>
      adds_pure _

theorem adds_compare {op : Opcode} (hop : op ≠ .closure) (expected : Bool) (x y : Int)
    (target : UInt8) : Adds [] (compare op expected x y target) :=
  (adds_emit hop _ _ _).before fun _ => adds_jump.before fun toTrue =>
    (adds_emit (by decide) _ _ _).before fun _ => (adds_aimHere toTrue).before fun _ =>
      adds_emit (by decide) _ _ _

theorem shape_op_ne (op : BinaryOp) :
    (∀ opcode, op.shape = .arithmetic opcode → opcode ≠ .closure) ∧
      ∀ opcode expected swapped, op.shape = .comparison opcode expected swapped →
        opcode ≠ .closure := by
  cases op <;> simp [BinaryOp.shape]

theorem adds_store (name : String) (isLogical : Bool) {value : Option UInt8 → Lower Operand}
    (hvalue : ∀ dest, Adds outlines (value dest)) : Adds outlines (store name isLogical value) := by
  rw [store_eq]
  refine (adds_resolve name).before fun found => ?_
  cases found with
  | register target =>
    cases isLogical with
    | true =>
      exact (hvalue none).followed fun _ => (adds_toRegister _).before fun _ =>
        (adds_load _ _).before fun _ => (adds_free _).before fun _ => adds_pure _
    | false => exact (hvalue (some target)).followed fun _ => adds_pure _
  | upvalue index =>
    exact (hvalue none).followed fun _ => (adds_toRegister _).before fun _ =>
      (adds_emit (by decide) _ _ _).before fun _ => adds_pure _
  | global name =>
    exact (hvalue none).followed fun _ => (adds_toShort _).before fun short =>
      (adds_storeGlobal name short).before fun _ => adds_pure _

theorem adds_freeAll (registers : List UInt8) :
    Adds [] (registers.forM fun register => free (.register register)) := by
  induction registers with
  | nil => exact adds_pure _
  | cons register rest ih =>
    rw [List.forM_eq_forM, List.forM_cons]
    exact (adds_free _).before fun _ => ih

theorem adds_call (base : UInt8) {callee : Lower Operand} {args : Lower (List UInt8)}
    (results : Nat) (hcallee : Adds outlines callee) (hargs : Adds more args) :
    Adds (outlines ++ more) (call base callee args results) :=
  hcallee.bind fun _ => hargs.followed fun registers =>
    (adds_emit (by decide) _ _ _).before fun _ => adds_freeAll registers.reverse

theorem adds_jumpUnless {condition : Lower Operand} (h : Adds outlines condition) :
    Adds outlines (jumpUnless condition) := by
  rw [jumpUnless_eq]
  exact h.followed fun _ => (adds_toRegister _).before fun _ => (adds_emit (by decide) _ _ _).before
    fun _ => adds_jump.before fun _ => (adds_free _).before fun _ => adds_pure _

theorem adds_inScope (name : String) {body : Lower Unit} (h : Adds outlines body) :
    Adds outlines (inScope name body) := by
  have hopen : FunctionBuilder.Plain (modify (FunctionBuilder.openScope name)) :=
    FunctionBuilder.plain_modify fun _ => FunctionBuilder.nests_same rfl rfl rfl
  exact (adds_onCurrent hopen).before fun _ => h.followed fun _ =>
    adds_onCurrent FunctionBuilder.plain_closeScope

theorem parameters_opened {count : Nat} {line : UInt32} (params : List String) {b : ChunkBuilder}
    (h : b.current.Opened count line) :
    (params.forM fun param => do
      let _ ← onCurrent (FunctionBuilder.bindParameter param)).Promises b fun _ b' =>
        ∃ f : FunctionBuilder, f.Opened (count + params.length) line ∧
          b' = { b with current := f } := by
  induction params generalizing b count with
  | nil => exact promises_pure ⟨b.current, h, rfl⟩
  | cons param rest ih =>
    rw [List.forM_eq_forM, List.forM_cons, bind_assoc]
    refine ⟨fun {_ b'} hrun => ?_⟩
    obtain ⟨_, b₁, hbind, hrun⟩ := bind_eq_ok.mp hrun
    obtain ⟨f, hbound, rfl⟩ := onCurrent_eq_ok.mp hbind
    have hopened : FunctionBuilder.Opened (count + 1) line f := h.bindParameter hbound
    obtain ⟨f', hopened', rfl⟩ := (ih hopened).of_ok hrun
    rw [List.length_cons, ← Nat.add_assoc, Nat.add_right_comm]
    exact ⟨f', hopened', rfl⟩

theorem nests_closed {b inner b' : ChunkBuilder} {o : Outline} (hreached : o.isReached = true)
    {lastLine : UInt32} {target : UInt8}
    (henclosing : List.Forall₂ FunctionBuilder.Captures (b.current :: b.enclosing) inner.enclosing)
    (hoptions : inner.options = b.options)
    (hdescribes : ∀ child, inner.current.finish lastLine = .ok child → o.Describes child)
    (hrun : (do
      let index ← closeFunction lastLine
      emit .closure target.toNat index 0) inner = .ok () b') : b.Nests [o] b' := by
  obtain ⟨outer, rest, houter, hrest, hsplit⟩ := List.forall₂_cons_left_iff.mp henclosing
  obtain ⟨index, b₁, hclose, hemit⟩ := bind_eq_ok.mp hrun
  obtain ⟨child, hfinish, rfl, rfl⟩ := closeFunction_eq hsplit hclose
  obtain ⟨-, rfl⟩ := (emit_ensures _ _ _ _ _).of_ok hemit
  obtain ⟨captured, rfl⟩ : ∃ captured,
    outer = { b.current with upvalues := b.current.upvalues ++ captured } := houter
  refine ⟨⟨⟨[child], ?_, ?_⟩, ⟨[some b.current.children.size], ?_, ?_⟩, rfl⟩, hoptions, hrest⟩
  · exact Array.toList_push
  · rw [Outline.DescribeAll]
    exact ⟨child, [], rfl, hdescribes child hfinish, rfl⟩
  · exact FunctionBuilder.makes_placed _ _
  · rw [Outline.reachedFrom, if_pos hreached]
    rfl

theorem functionInto_eq_ok {params : List String} {body : Lower Unit} {line lastLine : UInt32}
    {name : String} {target : UInt8} {b b' : ChunkBuilder} (hbody : Adds outlines body)
    (hrun : functionInto params body name line lastLine target b = .ok () b') :
    ∃ (f : FunctionBuilder) (inner : ChunkBuilder), f.Opened params.length line ∧
      Nests outlines { openFunction name line b with current := f } inner ∧
      (do
        let index ← closeFunction lastLine
        emit .closure target.toNat index 0) inner = .ok () b' := by
  obtain ⟨_, b₀, hopen, hrun⟩ := bind_eq_ok.mp hrun
  cases hopen
  obtain ⟨_, b₁, hparams, hrun⟩ := bind_eq_ok.mp hrun
  have hstart := FunctionBuilder.opened_start name (some b.level) line b.current.line
  obtain ⟨f, hopened, rfl⟩ := (parameters_opened params hstart).of_ok hparams
  rw [Nat.zero_add] at hopened
  rw [← bind_assoc] at hrun
  obtain ⟨_, inner, hlowered, hrun⟩ := bind_eq_ok.mp hrun
  exact ⟨f, inner, hopened, (hbody.followed (fun _ => adds_returnNothing) _).of_ok hlowered, hrun⟩

theorem adds_functionInto {body : Lower Unit} (hbody : Adds outlines body) (params : List String)
    (name : String) (line lastLine : UInt32) (target : UInt8) :
    Adds [{ paramCount := params.length, firstLine := line, nested := outlines }]
      (functionInto params body name line lastLine target) := by
  refine fun b => ⟨fun {_ b'} hrun => ?_⟩
  obtain ⟨f, inner, hopened, hnests, hclosed⟩ := functionInto_eq_ok hbody hrun
  refine nests_closed rfl hnests.around.enclosing hnests.around.options ?_ hclosed
  intro child hfinish
  have hdescribes := hnests.current.describes hopened.children hopened.listing hfinish true
  rwa [hopened.params, hopened.firstLine, hopened.isVararg] at hdescribes

theorem adds_deadBranch {body otherwise : Lower Unit} (hbody : Adds outlines body)
    (hotherwise : Adds more otherwise) :
    Adds (outlines.map Outline.unreached ++ more) (deadBranch body otherwise) := by
  refine fun b => ⟨fun {_ b'} hrun => ?_⟩
  obtain ⟨_, b₁, hopen, hrun⟩ := bind_eq_ok.mp hrun
  obtain rfl := onCurrent_modify_eq_ok.mp hopen
  obtain ⟨_, b₂, hlowered, hrun⟩ := bind_eq_ok.mp hrun
  obtain ⟨removed, b₃, hdiscard, hrun⟩ := bind_eq_ok.mp hrun
  obtain ⟨f, hcut, rfl⟩ := onCurrent_eq_ok.mp hdiscard
  have hnests := (adds_inScope "if" hbody _).of_ok hlowered
  have hdead : b.Nests (outlines.map Outline.unreached) { b₂ with current := f } :=
    ⟨hnests.current.discarded hcut, hnests.around.options, hnests.around.enclosing⟩
  exact hdead.trans ((hotherwise _).of_ok hrun)

theorem adds_branch {condition : Lower Operand} {body : Lower Unit}
    (hcondition : Adds outlines condition) (hbody : Adds more body) :
    Adds (outlines ++ more) (branch condition body) :=
  (adds_jumpUnless hcondition).bind fun skip => (adds_inScope "if" hbody).followed fun _ =>
    adds_aimHere skip

theorem adds_branchElse {condition : Lower Operand} {body otherwise : Lower Unit}
    {others : List Outline} (hcondition : Adds outlines condition) (hbody : Adds more body)
    (hotherwise : Adds others otherwise) :
    Adds (outlines ++ (more ++ others)) (branchElse condition body otherwise) :=
  (adds_jumpUnless hcondition).bind fun skip => (adds_inScope "if" hbody).bind fun _ =>
    adds_jump.before fun done => (adds_aimHere skip).before fun _ =>
      (adds_inScope "else" hotherwise).followed fun _ => adds_aimHere done

theorem adds_whileLoop {condition : Lower Operand} {body : Lower Unit}
    (hcondition : Adds outlines condition) (hbody : Adds more body) :
    Adds (outlines ++ more) (whileLoop condition body) := by
  have hopen : ∀ head, FunctionBuilder.Plain (modify (FunctionBuilder.openLoop (some head))) :=
    fun _ => FunctionBuilder.plain_modify fun _ => FunctionBuilder.nests_same rfl rfl rfl
  exact adds_get_bind fun b => (adds_onCurrent (hopen b.current.pc)).before fun _ =>
    (adds_jumpUnless hcondition).bind fun done => (adds_inScope "while" hbody).followed fun _ =>
      (adds_onCurrent (FunctionBuilder.plain_jumpTo _)).before fun _ =>
        (adds_aimHere done).before fun _ => adds_onCurrent FunctionBuilder.plain_closeLoop

theorem adds_inPlace {compute : UInt8 → Lower Unit} (h : ∀ target, Adds outlines (compute target))
    (dest : Option UInt8) : Adds outlines (inPlace compute dest) :=
  (adds_place dest).before fun target => (h target).followed fun _ => adds_pure _

theorem adds_unaryInto {value : Option UInt8 → Lower Operand}
    (hvalue : ∀ dest, Adds outlines (value dest)) (op : UnaryOp) (target : UInt8) :
    Adds outlines (unaryInto op value target) := by
  have hop : op.opcode ≠ .closure := by cases op <;> decide
  rw [unaryInto_eq]
  exact (hvalue none).followed fun _ => (adds_toRegister _).before fun _ =>
    (adds_free _).before fun _ => adds_emit hop _ _ _

theorem adds_binaryInto {left right : Option UInt8 → Lower Operand}
    (hleft : ∀ dest, Adds outlines (left dest)) (hright : ∀ dest, Adds more (right dest))
    (op : BinaryOp) (target : UInt8) :
    Adds (outlines ++ more) (binaryInto op left right target) := by
  obtain ⟨harithmetic, hcomparison⟩ := shape_op_ne op
  unfold binaryInto
  split
  · exact adds_allocate.before fun first => (hleft (some first)).bind fun _ =>
      adds_allocate.before fun second => (hright (some second)).followed fun _ =>
        (adds_free _).before fun _ => (adds_free _).before fun _ => adds_emit (by decide) _ _ _
  · next opcode hshape =>
    exact (adds_shortPair (hleft none) (hright none)).followed fun _ =>
      adds_emit (harithmetic opcode hshape) _ _ _
  · next opcode expected swapped hshape =>
    refine (adds_shortPair (hleft none) (hright none)).followed fun fields => ?_
    have hop := hcomparison opcode expected swapped hshape
    dsimp only
    split
    · exact adds_compare hop expected _ _ target
    · exact adds_compare hop expected _ _ target

theorem adds_logicalInto {left right : Option UInt8 → Lower Operand}
    (hleft : ∀ dest, Adds outlines (left dest)) (hright : ∀ dest, Adds more (right dest))
    (op : LogicalOp) (target : UInt8) :
    Adds (outlines ++ more) (logicalInto op left right target) :=
  (hleft (some target)).bind fun _ => (adds_emit (by decide) _ _ _).before fun _ =>
    adds_jump.before fun done => (hright (some target)).followed fun _ => adds_aimHere done

theorem adds_assignInto {value : Option UInt8 → Lower Operand}
    (hvalue : ∀ dest, Adds outlines (value dest)) (name : String) (isLogical : Bool)
    (target : UInt8) : Adds outlines (assignInto name isLogical value target) :=
  (adds_store name isLogical hvalue).followed fun stored =>
    (adds_load stored target).before fun _ => adds_free stored

theorem adds_callInto {callee : Option UInt8 → Lower Operand} {args : Lower (List UInt8)}
    (hcallee : ∀ dest, Adds outlines (callee dest)) (hargs : Adds more args) (target : UInt8) :
    Adds (outlines ++ more) (callInto callee args target) := by
  refine (adds_isFreshTop target).before fun fresh => ?_
  split
  · exact adds_call target 1 (hcallee (some target)) hargs
  · exact adds_allocate.before fun base => (adds_call base 1 (hcallee (some base)) hargs).followed
      fun _ => (adds_emit (by decide) _ _ _).before fun _ => adds_free _

theorem behind_of_dead {condition : Expr} (h : condition.form = .boolean false)
    (outlines : List Outline) :
    condition.outlines ++ Outline.behind condition outlines =
      outlines.map Outline.unreached := by
  obtain ⟨form, span, type, symbol⟩ := condition
  have hform : form = .boolean false := h
  subst hform
  rw [Expr.outlines, ExprForm.outlines]
  rfl

theorem behind_of_live {condition : Expr} (h : condition.form ≠ .boolean false)
    (outlines : List Outline) : Outline.behind condition outlines = outlines := by
  rw [Outline.behind, Expr.isFalse_of_live h]
  rfl

theorem outlined : StmtRules (fun e value => ∀ dest, Adds e.outlines (value dest))
    (fun args => Adds (Expr.listOutlines args))
    (fun f closure => ∀ name line target, Adds [f.outline line] (closure name line target))
    (fun span form => Adds (form.outlines span.line)) (fun stmt => Adds stmt.outlines)
    (fun body => Adds (Stmt.listOutlines body)) where
  nil := adds_settle .nil
  boolean v := adds_settle (.boolean v)
  integer v dest := (adds_constant _).before fun _ => adds_settle _ dest
  number v dest := (adds_constant _).before fun _ => adds_settle _ dest
  string v dest := (adds_constant _).before fun _ => adds_settle _ dest
  name name dest := (adds_resolve name).before fun _ => adds_settle _ dest
  unary op hoperand := by
    rw [Expr.outlines, ExprForm.outlines]
    exact adds_inPlace (adds_unaryInto hoperand op)
  binary op hleft hright := by
    rw [Expr.outlines, ExprForm.outlines]
    exact adds_inPlace (adds_binaryInto hleft hright op)
  logical op hleft hright := by
    rw [Expr.outlines, ExprForm.outlines]
    exact adds_inPlace (adds_logicalInto hleft hright op)
  assign name hstored := by
    rw [Expr.outlines, ExprForm.outlines]
    exact adds_inPlace (adds_assignInto hstored name _)
  call hcallee hargs := by
    rw [Expr.outlines, ExprForm.outlines]
    exact adds_inPlace (adds_callInto hcallee hargs)
  function hclosure := by
    rw [Expr.outlines, ExprForm.outlines]
    exact adds_inPlace (hclosure _ _)
  tuple _ _ := adds_throw _
  object _ _ := adds_throw _
  noArgs := adds_pure _
  moreArgs hactual hrest := by
    rw [Expr.listOutlines]
    exact adds_allocate.before fun register => (hactual (some register)).bind fun _ =>
      hrest.followed fun _ => adds_pure _
  closure params endLine hbody name line target := by
    rw [FunctionLiteral.outline]
    exact adds_functionInto hbody params name line _ target
  declareNil name := adds_declareLocal (fun _ => adds_emit (by decide) _ _ _) name
  declare name hinit := by
    rw [StmtForm.outlines]
    exact adds_declareLocal (fun register => (hinit (some register)).followed fun _ =>
      adds_pure _) name
  callStatement hcallee hargs := by
    rw [StmtForm.outlines, Expr.outlines, ExprForm.outlines]
    exact adds_allocate.before fun base => (adds_call base 0 (hcallee (some base))
      hargs).followed fun _ => adds_free _
  assignStatement name hstored := by
    rw [StmtForm.outlines, Expr.outlines, ExprForm.outlines]
    exact (adds_store name _ hstored).followed adds_free
  discard _ _ hvalue := by
    rw [StmtForm.outlines]
    exact (hvalue none).followed adds_free
  define name hclosure := by
    rw [StmtForm.outlines]
    exact (adds_onCurrent (FunctionBuilder.plain_bindLocal name)).before fun register =>
      hclosure _ _ register
  returnNothing := adds_returnNothing
  returnValue hvalue := by
    rw [StmtForm.outlines, returnValue_eq]
    exact (hvalue none).followed fun _ => (adds_toRegister _).before fun _ =>
      (adds_emit (by decide) _ _ _).before fun _ => adds_free _
  deadBranch hdead hbody := by
    rw [StmtForm.outlines, behind_of_dead hdead, ← List.append_nil (List.map _ _)]
    exact adds_deadBranch hbody (adds_pure _)
  deadBranchElse hdead hbody hotherwise := by
    rw [StmtForm.outlines, ← List.append_assoc, behind_of_dead hdead]
    exact adds_deadBranch hbody (adds_inScope "else" hotherwise)
  branch hlive hcondition hbody := by
    rw [StmtForm.outlines, behind_of_live hlive]
    exact adds_branch (hcondition none) hbody
  branchElse hlive hcondition hbody hotherwise := by
    rw [StmtForm.outlines, behind_of_live hlive]
    exact adds_branchElse (hcondition none) hbody hotherwise
  whileLoop hcondition hbody := by
    rw [StmtForm.outlines]
    exact adds_whileLoop (hcondition none) hbody
  breakLoop := adds_onCurrent FunctionBuilder.plain_breakLoop
  continueLoop := adds_onCurrent FunctionBuilder.plain_continueLoop
  block hbody := by
    rw [StmtForm.outlines]
    exact adds_inScope "block" hbody
  classDecl _ := adds_throw _
  tryBlock _ := adds_throw _
  located hform := by
    rw [Stmt.outlines]
    exact (adds_locateKnown _).before fun _ => hform
  empty := adds_pure _
  sequence hfirst hrest := by
    rw [Stmt.listOutlines]
    exact hfirst.bind fun _ => hrest

end Lower

namespace Program
open ChunkBuilder

variable {options : Options} {map map' : Option SourceMap} {main : Prototype}

theorem adds_lowering (program : Program) : Lower.Adds program.outline.nested program.lowering :=
  (Lower.outlined.holds_statements program.body).followed fun _ => Lower.adds_returnNothing

/-- The prototypes of a program that is lowered are nested like its functions. There is one
for each, in the place and in the order of the literals, with the parameters and the line of
its literal. The code around a function makes one closure of it, or none if it stands behind
a condition that is literally false. -/
theorem outline_describes_of_build (program : Program)
    (hbuild : program.build options map = .ok (main, map')) :
    program.outline.Describes main ∧ main.functionCount = 1 + program.functions := by
  have hdescribes : program.outline.Describes main := by
    rw [build_eq] at hbuild
    split at hbuild
    · cases hbuild
    next b hrun =>
    obtain ⟨_, hfinish, hpair⟩ := except_bind_eq_ok.mp hbuild
    cases hpair
    unfold ChunkBuilder.finish at hfinish
    split at hfinish
    · obtain ⟨inner, hinner, hmain⟩ := except_bind_eq_ok.mp hfinish
      cases hmain
      have hnests := (adds_lowering program (.start options map)).of_ok hrun
      have houtline := hnests.current.describes rfl rfl hinner true
      rw [outline, Outline.Describes]
      rwa [Outline.Describes] at houtline
    · cases hfinish
  refine ⟨hdescribes, ?_⟩
  rw [hdescribes.functionCount_eq, outline, Outline.size, Stmt.sizes_listOutlines, functions]

/-- A function with a dead branch, which declares a function that has one of its own, and
with a function that it returns. -/
def layered : Program :=
  .of [⟨.function "outer" ⟨["x", "y"],
    [⟨.branch (.of (.boolean false)) [⟨.function "dead" ⟨[],
        [.of (.expr ⟨.function ⟨[], [], 0⟩, ⟨4, 1⟩, .function, none⟩)], 0⟩, ⟨3, 1⟩⟩] none, ⟨2, 1⟩⟩,
      .of (.ret (some ⟨.function ⟨["z"], [], 0⟩, ⟨5, 1⟩, .function, none⟩))], 0⟩, ⟨1, 1⟩⟩]

theorem outline_describes_of_build_layered :
    ∃ main map outer dead, layered.build {} none = .ok (main, map) ∧ main.functionCount = 5 ∧
      main.children.head? = some outer ∧ main.closures.count 0 = 1 ∧ outer.paramCount.toNat = 2 ∧
      outer.firstLine = 1 ∧ outer.children.head? = some dead ∧ outer.closures.count 0 = 0 ∧
      outer.closures.count 1 = 1 ∧ dead.firstLine = 3 ∧ dead.closures.count 0 = 1 := by
  have hok : (layered.build {} none).isOk = true := by decide +kernel
  cases hbuild : layered.build {} none with
  | error error => simp [hbuild, Except.isOk, Except.toBool] at hok
  | ok result =>
    obtain ⟨main, map⟩ := result
    obtain ⟨hdescribes, hcount⟩ := outline_describes_of_build layered hbuild
    have houtline : layered.outline = ⟨0, 0, true, true, [⟨2, 1, false, true,
      [⟨0, 3, false, false, [⟨0, 4, false, true, []⟩]⟩, ⟨1, 5, false, true, []⟩]⟩]⟩ := rfl
    rw [houtline] at hdescribes
    simp only [Outline.Describes, Outline.DescribeAll] at hdescribes
    obtain ⟨-, -, -, hmade, outer, _, hchildren, ⟨hparams, hline, -, hmade', dead, _, hchildren',
      ⟨-, hdeadLine, -, hmade'', -⟩, -⟩, -⟩ := hdescribes
    exact ⟨main, map, outer, dead, rfl, hcount, by rw [hchildren]; rfl, hmade 0, hparams, hline,
      by rw [hchildren']; rfl, hmade' 0, hmade' 1, hdeadLine, hmade'' 0⟩

end Program

end RegisterCode
