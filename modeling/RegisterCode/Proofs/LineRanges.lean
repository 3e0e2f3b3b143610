import RegisterCode.Proofs.LoweredPrograms
import RegisterCode.Proofs.StampedLines
import RegisterCode.Proofs.TrackedPrograms

/-! The range of lines that a prototype names, and the lines of its code. The range ends
at the last statement that stands in the body itself, so it covers the statements inside
those only if they do not start later. -/
namespace RegisterCode

open Action

namespace Stmt

def listTrail (body : List Stmt) : Trail where
  noted := listLines body
  marks line := listMarks line body
  sites entry := listSites entry body

def trail (stmt : Stmt) : Trail where
  noted := stmt.lines
  marks line := stmt.marks line
  sites entry := stmt.sites entry

end Stmt

def StmtForm.trail (line : UInt32) (form : StmtForm) : Trail where
  noted := form.lines
  marks entry := form.marks entry
  sites entry := form.sites line entry

def Expr.trail (placed : Bool) (e : Expr) : Trail :=
  .still (e.leaves placed) fun entry => e.sites entry

/-- Code that is discarded leaves no instructions, but the line stays where it is. -/
def Trail.discarded (t : Trail) : Trail :=
  { t with marks := fun _ => [] }

namespace Expr

variable {condition : Expr}

theorem sites_of_dead (h : condition.form = .boolean false) (entry : UInt32) :
    condition.sites entry = [] := by
  obtain ⟨form, span, type, symbol⟩ := condition
  obtain rfl : form = .boolean false := h
  rw [Expr.sites, ExprForm.sites]

theorem trail_of_isLogical {value : Expr} (h : value.form.isLogical = true) (placed : Bool) :
    value.trail placed = value.trail true := by
  obtain ⟨form, span, type, symbol⟩ := value
  cases form with
  | logical op left right => rfl
  | _ => cases h

end Expr

namespace StmtForm

variable {condition : Expr} {line : UInt32}

theorem trail_of_deadBranch (h : condition.form = .boolean false) (body : List Stmt) :
    trail line (.branch condition body none) = (Stmt.listTrail body).discarded := by
  simp [trail, lines, marks, sites, Expr.isFalse_of_dead h, Expr.sites_of_dead h, Trail.discarded,
    Stmt.listTrail]

theorem trail_of_deadBranchElse (h : condition.form = .boolean false)
    (body otherwise : List Stmt) :
    trail line (.branch condition body (some otherwise)) =
      (Stmt.listTrail body).discarded.append (Stmt.listTrail otherwise) := by
  simp [trail, lines, marks, sites, Expr.isFalse_of_dead h, Expr.sites_of_dead h, Trail.discarded,
    Trail.append, Stmt.listTrail]

theorem trail_of_branch (h : condition.form ≠ .boolean false) (body : List Stmt) :
    trail line (.branch condition body none) =
      (Trail.still true fun entry => condition.sites entry).append (Stmt.listTrail body) := by
  simp [trail, lines, marks, sites, Expr.isFalse_of_live h, Trail.still, Trail.append,
    Stmt.listTrail]

theorem trail_of_branchElse (h : condition.form ≠ .boolean false) (body otherwise : List Stmt) :
    trail line (.branch condition body (some otherwise)) =
      (Trail.still true fun entry => condition.sites entry).append
        ((Stmt.listTrail body).append (Stmt.listTrail otherwise)) := by
  simp [trail, lines, marks, sites, Expr.isFalse_of_live h, Trail.still, Trail.append,
    Stmt.listTrail]

end StmtForm

namespace FunctionBuilder

variable {f f' f'' : FunctionBuilder}

theorem Stamps.yields (literal : FunctionLiteral) {p : Prototype}
    (h : f.Stamps (Stmt.listTrail literal.body) f') (hcode : f.code.lines = [])
    (hchildren : f.children = #[])
    (hfinish : f'.finish (literal.lastLine f.firstLine) = .ok p) :
    FunctionSite.Yields ⟨literal, f.firstLine, f.line⟩ p := by
  obtain ⟨words, -, -, rfl⟩ := prototype_of_finish hfinish
  obtain ⟨added, hadded, honly, hmarks⟩ := h.lines
  obtain ⟨nested, hnested, hyields⟩ := h.children
  have hlines : f'.code.lines = added := by rw [hadded, hcode, List.nil_append]
  have hsame : f'.children.toList = nested := by rw [hnested, hchildren, List.nil_append]
  refine .intro h.firstLine rfl ?_ ?_ ?_
  · intro line hline
    rw [prototype, hlines] at hline
    exact List.mem_cons.mp (honly line hline)
  · intro line hline
    rw [prototype, hlines]
    exact hmarks line hline
  · rw [prototype, hsame]
    exact hyields

theorem Stamps.discarded {t : Trail} (h : f.openSection.Stamps t f') {removed : Nat}
    (hrun : discardSection f' = .ok removed f'') : f.Stamps t.discarded f'' := by
  obtain ⟨added, hadded, -, -⟩ := h.lines
  have hlines : f'.code.lines = f.code.lines ++ added := hadded
  have hlength : ∀ g : FunctionBuilder, g.code.lines.length = g.pc := by
    intro g
    rw [Code.lines, List.length_map, Array.length_toList, pc, Code.size]
  have hle : f.pc ≤ f'.pc := by
    rw [← hlength f', hlines, List.length_append, hlength f]
    exact Nat.le_add_right _ _
  obtain rfl := (discardSection_ensures h.sections hle).of_ok hrun
  have hcut : (f'.cutTo f.code.size f.code.sections).code.lines = f.code.lines := by
    have htake : (f'.cutTo f.code.size f.code.sections).code.lines = f'.code.lines.take f.pc := by
      simp [cutTo, Code.lines, pc, List.map_take]
    rw [htake, hlines]
    exact List.take_left' (hlength f)
  exact ⟨⟨[], hcut.trans (List.append_nil _).symm, by simp, by simp [Trail.discarded]⟩, h.line,
    h.children, h.firstLine, rfl⟩

end FunctionBuilder

namespace Lower
open ChunkBuilder

variable {α β : Type} {t u : Trail} {leaves : Bool} {sites more : UInt32 → List FunctionSite}

theorem stamps_shortPair {left right : Lower Operand} (hleft : Stamps (.still false sites) left)
    (hright : Stamps (.still false more) right) :
    Stamps (.still false fun line => sites line ++ more line) (shortPair left right) := by
  rw [shortPair_eq]
  exact hleft.bind_still fun _ => (stamps_toShort _).before fun _ => hright.followed fun _ =>
    (stamps_toShort _).before fun _ => (stamps_free _).before fun _ =>
      (stamps_free _).before fun _ => stamps_pure _

theorem stamps_compare (op : Opcode) (expected : Bool) (x y : Int) (target : UInt8) :
    Stamps (.plain true) (compare op expected x y target) :=
  (stamps_emit _ _ _ _).before fun _ => stamps_jump.before fun toTrue =>
    (stamps_emit _ _ _ _).before fun _ => (stamps_aimHere toTrue).before fun _ =>
      stamps_emit _ _ _ _

theorem stamps_store (name : String) (isLogical : Bool) {value : Option UInt8 → Lower Operand}
    (hvalue : Stamps (.still false sites) (value none))
    (hplaced : ∀ target, Stamps (.still leaves sites) (value (some target)))
    (hlogical : isLogical = true → Stamps (.still leaves sites) (value none)) :
    Stamps (.still leaves sites) (store name isLogical value) := by
  rw [store_eq]
  refine (stamps_resolve name).before fun found => ?_
  cases found with
  | register target =>
    cases isLogical with
    | true =>
      exact (hlogical rfl).closed fun _ => (stamps_toRegister _).before fun _ =>
        (stamps_load _ _).before fun _ => (stamps_free _).before fun _ => stamps_pure _
    | false => exact (hplaced target).closed fun _ => stamps_pure _
  | upvalue index =>
    exact (hvalue.finished fun _ => (stamps_toRegister _).before fun _ =>
      (stamps_emit _ _ _ _).before fun _ => stamps_pure _).sure
  | global name =>
    exact (hvalue.finished fun _ => (stamps_toShort _).before fun short =>
      (stamps_storeGlobal name short).before fun _ => stamps_pure _).sure

theorem stamps_assigned {e : Expr} {value : Option UInt8 → Lower Operand}
    (h : ∀ dest, Stamps (e.trail dest.isSome) (value dest)) (name : String) :
    Stamps (e.trail true) (store name e.form.isLogical value) := by
  refine stamps_store name _ (h none).quiet (fun target => h (some target)) fun hlogical => ?_
  have hnone := h none
  rwa [Expr.trail_of_isLogical hlogical] at hnone

theorem stamps_freeAll (registers : List UInt8) :
    Stamps (.plain false) (registers.forM fun register => free (.register register)) := by
  induction registers with
  | nil => exact stamps_pure _
  | cons register rest ih =>
    rw [List.forM_eq_forM, List.forM_cons]
    exact (stamps_free _).before fun _ => ih

theorem stamps_call (base : UInt8) {callee : Lower Operand} {args : Lower (List UInt8)}
    (results : Nat) (hcallee : Stamps (.still false sites) callee)
    (hargs : Stamps (.still false more) args) :
    Stamps (.still true fun line => sites line ++ more line) (call base callee args results) :=
  hcallee.bind_still fun _ => hargs.finished fun registers =>
    (stamps_emit _ _ _ _).before fun _ => stamps_freeAll registers.reverse

theorem stamps_jumpUnless {condition : Lower Operand} (h : Stamps (.still leaves sites) condition) :
    Stamps (.still true sites) (jumpUnless condition) := by
  rw [jumpUnless_eq]
  exact h.finished fun _ => (stamps_toRegister _).before fun _ =>
    (stamps_emit _ _ _ _).before fun _ => stamps_jump.before fun _ => (stamps_free _).before fun _ => stamps_pure _

theorem stamps_inScope (name : String) {body : Lower Unit} (h : Stamps t body) :
    Stamps t (inScope name body) := by
  have hopen : FunctionBuilder.Stamping false (modify (FunctionBuilder.openScope name)) :=
    FunctionBuilder.stamping_modify fun _ => FunctionBuilder.stamps_same rfl rfl rfl
  exact (stamps_onCurrent hopen).behind fun _ => h.closed fun _ =>
    stamps_onCurrent FunctionBuilder.stamping_closeScope

theorem stamps_parameters (params : List String) :
    Stamps (.plain false) (params.forM fun param => do
      let _ ← onCurrent (FunctionBuilder.bindParameter param)) := by
  induction params with
  | nil => exact stamps_pure _
  | cons param rest ih =>
    rw [List.forM_eq_forM, List.forM_cons]
    exact ((stamps_onCurrent (FunctionBuilder.stamping_bindParameter param)).before fun _ =>
      stamps_pure _).before fun _ => ih

theorem stamps_closed {b inner b' : ChunkBuilder} {site : FunctionSite} {lastLine : UInt32}
    {target : UInt8}
    (henclosing : List.Forall₂ FunctionBuilder.Captures (b.current :: b.enclosing) inner.enclosing)
    (hoptions : inner.options = b.options) (hmap : inner.map = none)
    (hentry : site.entryLine = b.current.line)
    (hyields : ∀ child, inner.current.finish lastLine = .ok child → site.Yields child)
    (hrun : (do
      let index ← closeFunction lastLine
      emit .closure target.toNat index 0) inner = .ok () b') :
    b.Stamps (.still true fun entry => [{ site with entryLine := entry }]) b' := by
  obtain ⟨outer, rest, houter, hrest, hsplit⟩ := List.forall₂_cons_left_iff.mp henclosing
  obtain ⟨index, b₁, hclose, hemit⟩ := bind_eq_ok.mp hrun
  obtain ⟨child, hfinish, -, rfl⟩ := closeFunction_eq hsplit hclose
  have hline : outer.line = site.entryLine := houter.stamps.line.trans hentry.symm
  have hpushed : outer.Stamps (.still false fun entry => [{ site with entryLine := entry }])
      { outer with children := outer.children.push child } := by
    refine ⟨⟨[], (List.append_nil _).symm, by simp, by simp [Trail.still]⟩, rfl,
      ⟨[child], Array.toList_push, ?_⟩, rfl, rfl⟩
    rw [hline]
    exact .cons (hyields child hfinish) .nil
  have htaken : b.Stamps (.still false fun entry => [{ site with entryLine := entry }])
      { inner with
        current := { outer with children := outer.children.push child }, enclosing := rest } :=
    ⟨houter.stamps.trans hpushed, ⟨hoptions, hrest⟩, hmap⟩
  exact htaken.trans ((stamps_emit _ _ _ _ _ htaken.map).of_ok hemit)

theorem stamps_functionInto {params : List String} {body : List Stmt} {lowered : Lower Unit}
    (hbody : Stamps (Stmt.listTrail body) lowered) (endLine : UInt32) (name : String)
    (line : UInt32) (target : UInt8) :
    Stamps (.still true fun entry => [⟨⟨params, body, endLine⟩, line, entry⟩])
      (functionInto params lowered name line
        (FunctionLiteral.lastLine ⟨params, body, endLine⟩ line) target) := by
  have hinside : Stamps (Stmt.listTrail body) (do
      params.forM fun param => do
        let _ ← onCurrent (FunctionBuilder.bindParameter param)
      lowered
      returnNothing) :=
    (stamps_parameters params).behind fun _ => hbody.closed fun _ => stamps_returnNothing.quiet
  refine fun b hmap => ⟨fun {_ b'} hrun => ?_⟩
  obtain ⟨_, b₀, hopen, hrun⟩ := bind_eq_ok.mp hrun
  cases hopen
  rw [← bind_assoc, ← bind_assoc] at hrun
  obtain ⟨_, inner, hlowered, hrun⟩ := bind_eq_ok.mp hrun
  rw [bind_assoc] at hlowered
  have hstamps := (hinside (openFunction name line b) hmap).of_ok hlowered
  have hyields : ∀ child,
      inner.current.finish (FunctionLiteral.lastLine ⟨params, body, endLine⟩ line) = .ok child →
        FunctionSite.Yields ⟨⟨params, body, endLine⟩, line, b.current.line⟩ child := by
    intro child hfinish
    exact hstamps.current.yields ⟨params, body, endLine⟩ rfl rfl hfinish
  exact stamps_closed hstamps.around.enclosing hstamps.around.options hstamps.map rfl hyields hrun

theorem stamps_deadBranch {body otherwise : Lower Unit} (hbody : Stamps t body)
    (hotherwise : Stamps u otherwise) :
    Stamps (t.discarded.append u) (deadBranch body otherwise) := by
  refine fun b hmap => ⟨fun {_ b'} hrun => ?_⟩
  obtain ⟨_, b₁, hopen, hrun⟩ := bind_eq_ok.mp hrun
  obtain rfl := onCurrent_modify_eq_ok.mp hopen
  obtain ⟨_, b₂, hlowered, hrun⟩ := bind_eq_ok.mp hrun
  obtain ⟨removed, b₃, hdiscard, hrun⟩ := bind_eq_ok.mp hrun
  obtain ⟨f, hcut, rfl⟩ := onCurrent_eq_ok.mp hdiscard
  have hstamps :=
    (stamps_inScope "if" hbody { b with current := b.current.openSection } hmap).of_ok hlowered
  have hdead : b.Stamps t.discarded { b₂ with current := f } :=
    ⟨hstamps.current.discarded hcut, ⟨hstamps.around.options, hstamps.around.enclosing⟩,
      hstamps.map⟩
  exact hdead.trans ((hotherwise _ hdead.map).of_ok hrun)

theorem stamps_branch {condition : Lower Operand} {body : Lower Unit}
    (hcondition : Stamps (.still leaves sites) condition) (hbody : Stamps t body) :
    Stamps ((Trail.still true sites).append t) (branch condition body) :=
  (stamps_jumpUnless hcondition).bind fun skip => (stamps_inScope "if" hbody).closed fun _ =>
    stamps_aimHere skip

theorem stamps_branchElse {condition : Lower Operand} {body otherwise : Lower Unit}
    (hcondition : Stamps (.still leaves sites) condition) (hbody : Stamps t body)
    (hotherwise : Stamps u otherwise) :
    Stamps ((Trail.still true sites).append (t.append u)) (branchElse condition body otherwise) :=
  (stamps_jumpUnless hcondition).bind fun skip => (stamps_inScope "if" hbody).bind fun _ =>
    stamps_jump.quiet.behind fun done => (stamps_aimHere skip).behind fun _ =>
      (stamps_inScope "else" hotherwise).closed fun _ => stamps_aimHere done

theorem stamps_whileLoop {condition : Lower Operand} {body : Lower Unit}
    (hcondition : Stamps (.still leaves sites) condition) (hbody : Stamps t body) :
    Stamps ((Trail.still true sites).append t) (whileLoop condition body) := by
  have hopen : ∀ head,
      FunctionBuilder.Stamping false (modify (FunctionBuilder.openLoop (some head))) :=
    fun _ => FunctionBuilder.stamping_modify fun _ => FunctionBuilder.stamps_same rfl rfl rfl
  exact stamps_get_bind fun b => (stamps_onCurrent (hopen b.current.pc)).behind fun _ =>
    (stamps_jumpUnless hcondition).bind fun done => (stamps_inScope "while" hbody).closed fun _ =>
      ((stamps_onCurrent (FunctionBuilder.stamping_jumpTo _)).before fun _ =>
        (stamps_aimHere done).before fun _ =>
          stamps_onCurrent FunctionBuilder.stamping_closeLoop).quiet

theorem stamps_inPlace {compute : UInt8 → Lower Unit} (h : ∀ target, Stamps t (compute target))
    (dest : Option UInt8) : Stamps t (inPlace compute dest) :=
  (stamps_place dest).behind fun target => (h target).closed fun _ => stamps_pure _

theorem stamps_unaryInto {value : Option UInt8 → Lower Operand}
    (hvalue : Stamps (.still leaves sites) (value none)) (op : UnaryOp) (target : UInt8) :
    Stamps (.still true sites) (unaryInto op value target) := by
  rw [unaryInto_eq]
  exact hvalue.finished fun _ => (stamps_toRegister _).before fun _ => (stamps_free _).before
    fun _ => stamps_emit _ _ _ _

theorem stamps_binaryInto {left right : Option UInt8 → Lower Operand}
    (hleft : ∀ dest, Stamps (.still false sites) (left dest))
    (hright : ∀ dest, Stamps (.still false more) (right dest)) (op : BinaryOp) (target : UInt8) :
    Stamps (.still true fun line => sites line ++ more line) (binaryInto op left right target) := by
  have hpair := stamps_shortPair (hleft none) (hright none)
  unfold binaryInto
  split
  · exact stamps_allocate.before fun first => (hleft (some first)).bind_still fun _ =>
      stamps_allocate.before fun second => (hright (some second)).finished fun _ =>
        (stamps_free _).before fun _ => (stamps_free _).before fun _ => stamps_emit _ _ _ _
  · exact hpair.finished fun _ => stamps_emit _ _ _ _
  · refine hpair.finished fun fields => ?_
    dsimp only
    split
    · exact stamps_compare _ _ _ _ _
    · exact stamps_compare _ _ _ _ _

theorem stamps_logicalInto {left right : Option UInt8 → Lower Operand}
    (hleft : ∀ dest, Stamps (.still false sites) (left dest))
    (hright : ∀ dest, Stamps (.still false more) (right dest)) (op : LogicalOp) (target : UInt8) :
    Stamps (.still true fun line => sites line ++ more line)
      (logicalInto op left right target) :=
  (hleft (some target)).bind_still fun _ => (stamps_emit _ _ _ _).before fun _ =>
    stamps_jump.before fun done => (hright (some target)).followed fun _ => stamps_aimHere done

theorem stamps_callInto {callee : Option UInt8 → Lower Operand} {args : Lower (List UInt8)}
    (hcallee : ∀ dest, Stamps (.still false sites) (callee dest))
    (hargs : Stamps (.still false more) args) (target : UInt8) :
    Stamps (.still true fun line => sites line ++ more line) (callInto callee args target) := by
  refine (stamps_isFreshTop target).before fun fresh => ?_
  cases fresh
  · exact stamps_allocate.before fun base => (stamps_call base 1 (hcallee (some base))
      hargs).followed fun _ => (stamps_emit _ _ _ _).before fun _ => stamps_free _
  · exact stamps_call target 1 (hcallee (some target)) hargs

theorem trailed : StmtRules (fun e value => ∀ dest, Stamps (e.trail dest.isSome) (value dest))
    (fun args => Stamps (.still false fun entry => Expr.listSites entry args))
    (fun f closure => ∀ name line target,
      Stamps (.still true fun entry => [⟨f, line, entry⟩]) (closure name line target))
    (fun span form => Stamps (form.trail span.line)) (fun stmt => Stamps stmt.trail)
    (fun body => Stamps (Stmt.listTrail body)) where
  nil := stamps_settle_of_ne (by simp)
  boolean v := stamps_settle_of_ne (by simp)
  integer v := stamps_constant _
  number v := stamps_constant _
  string v := stamps_constant _
  name name dest := (stamps_resolve name).before fun _ => stamps_settle _ dest
  unary op hoperand := stamps_inPlace (stamps_unaryInto (hoperand none) op)
  binary op hleft hright := stamps_inPlace
    (stamps_binaryInto (fun dest => (hleft dest).quiet) (fun dest => (hright dest).quiet) op)
  logical op hleft hright := stamps_inPlace
    (stamps_logicalInto (fun dest => (hleft dest).quiet) (fun dest => (hright dest).quiet) op)
  assign name hstored := stamps_inPlace fun target => (stamps_assigned hstored name).closed
    fun stored => (stamps_load stored target).before fun _ => stamps_free stored
  call hcallee hargs := stamps_inPlace (stamps_callInto (fun dest => (hcallee dest).quiet) hargs)
  function hclosure := stamps_inPlace (hclosure _ _)
  tuple _ _ := stamps_throw _
  object _ _ := stamps_throw _
  noArgs := stamps_pure _
  moreArgs hactual hrest := stamps_allocate.before fun register =>
    (hactual (some register)).quiet.bind_still fun _ => hrest.followed fun _ => stamps_pure _
  closure params endLine hbody name line := stamps_functionInto hbody endLine name line
  declareNil name := stamps_declareLocal (fun _ => stamps_emit _ _ _ _) name
  declare name hinit := stamps_declareLocal (fun register =>
    (hinit (some register)).closed fun _ => stamps_pure _) name
  callStatement hcallee hargs := stamps_allocate.before fun base =>
    (stamps_call base 0 (hcallee (some base)).quiet hargs).followed fun _ => stamps_free _
  assignStatement name hstored := (stamps_assigned hstored name).closed stamps_free
  discard _ _ hvalue := (hvalue none).closed stamps_free
  define name hclosure := (stamps_onCurrent (FunctionBuilder.stamping_bindLocal name)).before
    fun register => hclosure _ _ register
  returnNothing := stamps_returnNothing
  returnValue hvalue := by
    rw [returnValue_eq]
    exact (hvalue none).finished fun _ => (stamps_toRegister _).before fun _ =>
      (stamps_emit _ _ _ _).before fun _ => stamps_free _
  deadBranch hdead hbody := by
    rw [StmtForm.trail_of_deadBranch hdead, ← Trail.append_plain (Trail.discarded _)]
    exact stamps_deadBranch hbody (stamps_pure _)
  deadBranchElse hdead hbody hotherwise := by
    rw [StmtForm.trail_of_deadBranchElse hdead]
    exact stamps_deadBranch hbody (stamps_inScope "else" hotherwise)
  branch hlive hcondition hbody := by
    rw [StmtForm.trail_of_branch hlive]
    exact stamps_branch (hcondition none) hbody
  branchElse hlive hcondition hbody hotherwise := by
    rw [StmtForm.trail_of_branchElse hlive]
    exact stamps_branchElse (hcondition none) hbody hotherwise
  whileLoop hcondition hbody := stamps_whileLoop (hcondition none) hbody
  breakLoop := stamps_onCurrent FunctionBuilder.stamping_breakLoop
  continueLoop := stamps_onCurrent FunctionBuilder.stamping_continueLoop
  block hbody := stamps_inScope "block" hbody
  classDecl _ := stamps_throw _
  tryBlock _ := stamps_throw _
  located hform := (stamps_locateKnown _).bind fun _ => hform
  empty := stamps_pure _
  sequence hfirst hrest := hfirst.bind fun _ => hrest

end Lower

theorem Stmt.mem_listLines {line : UInt32} {body : List Stmt} :
    line ∈ Stmt.listLines body ↔
      ∃ stmt ∈ body, line ∈ stmt.span.noted ∨ line ∈ stmt.form.lines := by
  induction body with
  | nil => simp [Stmt.listLines]
  | cons stmt rest ih =>
    obtain ⟨form, span⟩ := stmt
    rw [Stmt.listLines, List.mem_append, ih, Stmt.lines, List.mem_append]
    simp

theorem Span.le_of_mem_noted {span : Span} {line : UInt32} (h : line ∈ span.noted) :
    line ≤ span.line := by
  unfold Span.noted at h
  split at h
  · rw [List.mem_singleton.mp h]
    exact UInt32.le_refl _
  · cases h

theorem le_max_line_iff {line first second : UInt32} :
    line ≤ max first second ↔ line ≤ first ∨ line ≤ second := by
  simp only [max, UInt32.le_iff_toNat_le]
  grind

theorem le_lastStartLine_iff {line start : UInt32} {body : List Stmt} :
    line ≤ lastStartLine start body ↔ line ≤ start ∨ ∃ stmt ∈ body, line ≤ stmt.span.line := by
  unfold lastStartLine
  induction body generalizing start with
  | nil => simp
  | cons stmt rest ih =>
    rw [List.foldl_cons, ih, le_max_line_iff]
    simp [or_assoc]

/-- The range of a function reaches as far as its first line, its end and the statements
that stand in its body itself. -/
theorem FunctionLiteral.le_lastLine_iff {f : FunctionLiteral} {line start : UInt32} :
    line ≤ f.lastLine start ↔
      line ≤ start ∨ line ≤ f.endLine ∨ ∃ stmt ∈ f.body, line ≤ stmt.span.line := by
  rw [lastLine, le_lastStartLine_iff, le_max_line_iff, or_assoc, or_left_comm]

namespace FunctionSite

variable {site : FunctionSite} {p : Prototype}

/-- No instruction of a statement of the function stands behind its range. -/
def Covers (site : FunctionSite) (p : Prototype) : Prop :=
  ∀ line ∈ p.lines, line ∈ Stmt.listLines site.literal.body → line ≤ p.lastLine

theorem Yields.le_lastLine_iff (h : site.Yields p) {line : UInt32} :
    line ≤ p.lastLine ↔ line ≤ site.line ∨ line ≤ site.literal.endLine ∨
      ∃ stmt ∈ site.literal.body, line ≤ stmt.span.line := by
  obtain ⟨-, hlast, -, -, -⟩ := h
  rw [hlast, FunctionLiteral.le_lastLine_iff]

theorem Yields.eq_or_mem_of_mem_lines (h : site.Yields p) {line : UInt32} (hline : line ∈ p.lines) :
    line = site.entryLine ∨ line ∈ Stmt.listLines site.literal.body := by
  obtain ⟨-, -, hstamped, -, -⟩ := h
  exact hstamped line hline

theorem Yields.mem_lines_of_mem_marks (h : site.Yields p) {line : UInt32}
    (hline : line ∈ Stmt.listMarks site.entryLine site.literal.body) : line ∈ p.lines := by
  obtain ⟨-, -, -, hmarked, -⟩ := h
  exact hmarked line hline

theorem Yields.le_lastLine_or_inside (h : site.Yields p) {line : UInt32}
    (hline : line ∈ Stmt.listLines site.literal.body) :
    line ≤ p.lastLine ∨ ∃ stmt ∈ site.literal.body, line ∈ stmt.form.lines := by
  obtain ⟨stmt, hstmt, hown | hinside⟩ := Stmt.mem_listLines.mp hline
  · exact .inl (h.le_lastLine_iff.mpr (.inr (.inr ⟨stmt, hstmt, Span.le_of_mem_noted hown⟩)))
  · exact .inr ⟨stmt, hstmt, hinside⟩

theorem Yields.covers (h : site.Yields p)
    (hinside : ∀ stmt ∈ site.literal.body, ∀ line ∈ stmt.form.lines, line ≤ p.lastLine) :
    site.Covers p := by
  intro line _ hline
  rcases h.le_lastLine_or_inside hline with hle | ⟨stmt, hstmt, hlate⟩
  · exact hle
  · exact hinside stmt hstmt line hlate

end FunctionSite

namespace Program
open ChunkBuilder

variable {options : Options} {map : Option SourceMap} {main outer p : Prototype}
  {program : Program} {sites : List FunctionSite}

inductive HasSite (program : Program) : FunctionSite → Prop
  | top {site : FunctionSite} : site ∈ Stmt.listSites 0 program.body → HasSite program site
  | nested {site outer : FunctionSite} : HasSite program outer →
    site ∈ Stmt.listSites outer.entryLine outer.literal.body → HasSite program site

theorem stamps_lowering (program : Program) :
    Lower.Stamps (Stmt.listTrail program.body) program.lowering :=
  (Lower.trailed.holds_statements program.body).closed fun _ => Lower.stamps_returnNothing.quiet

theorem yields_of_build (hbuild : program.build options none = .ok (main, map)) :
    List.Forall₂ FunctionSite.Yields (Stmt.listSites 0 program.body) main.children := by
  rw [build_eq] at hbuild
  split at hbuild
  · cases hbuild
  next b hrun =>
  obtain ⟨_, hfinish, hpair⟩ := except_bind_eq_ok.mp hbuild
  cases hpair
  unfold ChunkBuilder.finish at hfinish
  split at hfinish
  · obtain ⟨inner, hinner, hmain⟩ := except_bind_eq_ok.mp hfinish
    cases hmain
    obtain ⟨words, -, -, rfl⟩ := FunctionBuilder.prototype_of_finish hinner
    have hstamps := (stamps_lowering program (.start options none) rfl).of_ok hrun
    obtain ⟨nested, hnested, hyields⟩ := hstamps.current.children
    have hsame : b.current.children.toList = nested := hnested
    change List.Forall₂ _ _ b.current.children.toList
    rw [hsame]
    exact hyields
  · cases hfinish

theorem exists_site_of_mem (h : List.Forall₂ FunctionSite.Yields sites outer.children)
    (hp : p ∈ outer.children) : ∃ site ∈ sites, site.Yields p := by
  obtain ⟨index, hindex, rfl⟩ := List.getElem_of_mem hp
  have hlength := h.length_eq
  exact ⟨sites[index], List.getElem_mem _, h.get (hlength ▸ hindex) hindex⟩

theorem exists_sites_of_within (houter : outer.Within main)
    (h : List.Forall₂ FunctionSite.Yields sites main.children)
    (hsites : ∀ site ∈ sites, program.HasSite site) :
    ∃ sites', List.Forall₂ FunctionSite.Yields sites' outer.children ∧
      ∀ site ∈ sites', program.HasSite site := by
  induction houter generalizing sites with
  | self => exact ⟨sites, h, hsites⟩
  | nested hchild hwithin ih =>
    obtain ⟨site, hsite, hyields⟩ := exists_site_of_mem h hchild
    obtain ⟨-, -, -, -, hchildren⟩ := hyields
    exact ih hchildren fun inner hinner => .nested (hsites site hsite) hinner

/-- Each function of a program that is lowered without a map has the range of its literal:
it ends at the line of the literal, at its end or at the last statement that stands in the
body itself, whichever is last. The lines of its code are those of its statements at any
depth, or the line of the code around it. So only statements inside other statements can
stand behind the range. It covers the function if none of them starts later, and it does
not if one of those that leave an instruction does. -/
theorem lineRange_covers_unless_inside (program : Program)
    (hbuild : program.build options none = .ok (main, map)) :
    List.Forall₂ FunctionSite.Yields (Stmt.listSites 0 program.body) main.children ∧
      ∀ outer p : Prototype, outer.Within main → p ∈ outer.children →
        ∃ site : FunctionSite, program.HasSite site ∧ site.Yields p ∧
          (∀ line, line ≤ p.lastLine ↔ line ≤ site.line ∨ line ≤ site.literal.endLine ∨
            ∃ stmt ∈ site.literal.body, line ≤ stmt.span.line) ∧
          (∀ line ∈ p.lines, line ≤ p.lastLine ∨ line = site.entryLine ∨
            ∃ stmt ∈ site.literal.body, line ∈ stmt.form.lines) ∧
          ((∀ stmt ∈ site.literal.body, ∀ line ∈ stmt.form.lines, line ≤ p.lastLine) →
            site.Covers p) ∧
          (site.Covers p → ∀ line ∈ Stmt.listMarks site.entryLine site.literal.body,
            line ∈ Stmt.listLines site.literal.body → line ≤ p.lastLine) := by
  have htop := yields_of_build hbuild
  refine ⟨htop, fun outer p houter hp => ?_⟩
  obtain ⟨sites, hall, hsites⟩ := exists_sites_of_within houter htop fun _ => HasSite.top
  obtain ⟨site, hsite, hyields⟩ := exists_site_of_mem hall hp
  refine ⟨site, hsites site hsite, hyields, fun _ => hyields.le_lastLine_iff, ?_,
    hyields.covers, ?_⟩
  · intro line hline
    rcases hyields.eq_or_mem_of_mem_lines hline with rfl | hown
    · exact .inr (.inl rfl)
    · exact (hyields.le_lastLine_or_inside hown).imp_right .inr
  · intro hcovers line hline
    exact hcovers line (hyields.mem_lines_of_mem_marks hline)

/-- A function with a known end, and one whose last statement stands inside another. -/
def layeredRanges : Program :=
  .of [⟨.function "whole" ⟨[], [⟨.block [⟨.ret none, ⟨5, 1⟩⟩], ⟨2, 1⟩⟩], 6⟩, ⟨1, 1⟩⟩,
    ⟨.function "cut" ⟨[], [⟨.whileLoop (.of .nil) [⟨.declare "x" (some (.of .nil)), ⟨9, 1⟩⟩],
      ⟨8, 1⟩⟩], 0⟩, ⟨7, 1⟩⟩]

theorem lineRange_covers_unless_inside_layered :
    ∃ main map whole cut, layeredRanges.build {} none = .ok (main, map) ∧
      main.children = [whole, cut] ∧ whole.firstLine = 1 ∧ whole.lastLine = 6 ∧
      (∀ line ∈ whole.lines, line ≤ 6) ∧ cut.firstLine = 7 ∧ cut.lastLine = 8 ∧
      9 ∈ cut.lines := by
  have hok : (layeredRanges.build {} none).isOk = true := by decide +kernel
  cases hbuild : layeredRanges.build {} none with
  | error error => simp [hbuild, Except.isOk, Except.toBool] at hok
  | ok result =>
    obtain ⟨main, map⟩ := result
    obtain ⟨hall, -⟩ := lineRange_covers_unless_inside layeredRanges hbuild
    generalize hchildren : main.children = children at hall
    cases hall with
    | cons hwhole hall =>
    cases hall with
    | cons hcut hall =>
    cases hall
    obtain ⟨hfirst, hlast, hstamped, -, -⟩ := hwhole
    obtain ⟨hfirst', hlast', -, hmarked, -⟩ := hcut
    refine ⟨main, map, _, _, rfl, hchildren, hfirst, hlast, ?_, hfirst', hlast', ?_⟩
    · intro line hline
      have hown : line ∈ [1, 2, 5] := List.mem_cons.mpr (hstamped line hline)
      have hle : [1, 2, 5].all (fun own => decide (own ≤ (6 : UInt32))) = true := rfl
      exact of_decide_eq_true (List.all_eq_true.mp hle line hown)
    · exact hmarked 9 (by decide)

/-- A function whose only statement is a block at line 2, with a return at line 5. -/
def lateReturn : FunctionLiteral :=
  ⟨[], [⟨.block [⟨.ret none, ⟨5, 1⟩⟩], ⟨2, 1⟩⟩], 0⟩

/-- The range of a function can end in front of its code. -/
theorem not_covers_lateReturn :
    ∃ main map p, (Program.of [⟨.function "f" lateReturn, ⟨1, 1⟩⟩]).build {} none =
        .ok (main, map) ∧ main.children = [p] ∧ p.lastLine = 2 ∧ p.lines = [5, 5] ∧
      ¬ FunctionSite.Covers ⟨lateReturn, 1, 1⟩ p := by
  have hrun : ((Program.of [⟨.function "f" lateReturn, ⟨1, 1⟩⟩]).build {} none).map
      (fun result => result.1.children.map fun p => (p.lastLine, p.lines)) =
        .ok [(2, [5, 5])] := by
    decide +kernel
  cases hbuild : (Program.of [⟨.function "f" lateReturn, ⟨1, 1⟩⟩]).build {} none with
  | error error => simp [hbuild, Except.map] at hrun
  | ok result =>
    obtain ⟨main, map⟩ := result
    rw [hbuild] at hrun
    obtain ⟨p, hmain, hp⟩ := List.map_eq_singleton_iff.mp (Except.ok.inj hrun)
    obtain ⟨hlast, hlines⟩ := Prod.mk.inj hp
    refine ⟨main, map, p, rfl, hmain, hlast, hlines, ?_⟩
    intro hcovers
    have hle := hcovers 5 (by rw [hlines]; decide) (by decide)
    rw [hlast] at hle
    exact absurd hle (by decide)

end Program

end RegisterCode
