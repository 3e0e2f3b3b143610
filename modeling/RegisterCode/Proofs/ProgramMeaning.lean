import RegisterCode.Proofs.ControlMeaning

/-! Lowering keeps the meaning of a program: where the program ends, the code of its main
function ends in the same way and in no other. -/
namespace RegisterCode

open Action

theorem Runs.of_nil {Value Fault : Type} {I : Interpretation Value Fault}
    {env : Environment Value} {outcome : Outcome Value Fault} (h : Runs I env [] outcome) :
    outcome = .next env := by
  cases h
  rfl

namespace Evaluates

variable {Value Fault : Type} {I : Interpretation Value Fault} {env : Environment Value}
  {e : Expr} {result : Except Fault Value}

theorem eq_false (h : Evaluates I env e result) (hform : e.form = .boolean false) :
    result = .ok (I.literal (.boolean false)) := by
  obtain ⟨form, span, type, symbol⟩ := e
  obtain rfl : form = .boolean false := hform
  cases h with
  | literal hliteral =>
    cases hliteral
    rfl

theorem form_ne_call (h : Evaluates I env e result) (callee : Expr) (args : List Expr) :
    e.form ≠ .call callee args := by
  obtain ⟨form, span, type, symbol⟩ := e
  intro hform
  obtain rfl : form = .call callee args := hform
  cases h with
  | literal hliteral => cases hliteral

theorem form_ne_assign (h : Evaluates I env e result) (name : String) (value : Expr) :
    e.form ≠ .assign name value := by
  obtain ⟨form, span, type, symbol⟩ := e
  intro hform
  obtain rfl : form = .assign name value := hform
  cases h with
  | literal hliteral => cases hliteral

end Evaluates

namespace Lower
open ChunkBuilder

variable {Value Fault : Type} {M : Machine Value Fault} {env env' : Environment Value}
  {outcome : Outcome Value Fault} {result : Except Fault Value} {span : Span} {stmt : Stmt}
  {condition : Expr} {body rest : List Stmt} {otherwise : Option (List Stmt)}

/-- The statements have an outcome, and their code has it too. A statement alone is taken
without the record of its place, as a loop comes back to where that is already made. -/
def Followed (M : Machine Value Fault) (env : Environment Value)
    (outcome : Outcome Value Fault) : List Stmt → Prop
  | [stmt] =>
    Simulates M (statementForm stmt.span stmt.form) (16 * (stmt.form.nodes + 1)) env outcome
  | body => Simulates M (statements body) (16 * Stmt.listNodes body) env outcome

theorem Followed.simulates (h : Followed M env outcome body) :
    Simulates M (statements body) (16 * Stmt.listNodes body) env outcome := by
  match body with
  | [] => exact h
  | [⟨form, span⟩] => exact simulates_alone h
  | _ :: _ :: _ => exact h

theorem statements_singleton (stmt : Stmt) : statements [stmt] = statement stmt := by
  rw [statements, statements, bind_pure_unit]

theorem Followed.first (h : Followed M env outcome [stmt]) :
    Simulates M (statement stmt) (16 * stmt.nodes) env outcome := by
  have hsimulates := h.simulates
  rwa [statements_singleton, Stmt.listNodes, Stmt.listNodes, Nat.add_zero] at hsimulates

theorem Followed.step (h : Followed M env (.next env') [stmt])
    (hruns : Runs M.meaning env' rest outcome) (h' : Followed M env' outcome rest) :
    Followed M env outcome (stmt :: rest) := by
  cases rest with
  | nil =>
    rw [hruns.of_nil]
    exact h
  | cons next rest =>
    change Simulates M (statements (stmt :: next :: rest)) _ env outcome
    rw [statements, Stmt.listNodes, Nat.mul_add]
    exact simulates_step (advancing_statement stmt) (advancing_statements (next :: rest)) h.first
      h'.simulates

theorem Followed.stop (h : Followed M env outcome [stmt]) (hstop : outcome.isNext = false) :
    Followed M env outcome (stmt :: rest) := by
  cases rest with
  | nil => exact h
  | cons next rest =>
    change Simulates M (statements (stmt :: next :: rest)) _ env outcome
    rw [statements, Stmt.listNodes, Nat.mul_add]
    exact simulates_stop (advancing_statement stmt) (advancing_statements (next :: rest)) h.first
      hstop

def FollowedElse (M : Machine Value Fault) (env : Environment Value)
    (outcome : Outcome Value Fault) : Option (List Stmt) → Prop
  | none => outcome = .next env
  | some otherwise =>
    Simulates M (inScope "else" (statements otherwise)) (16 * Stmt.listNodes otherwise) env outcome

theorem followed_branch (he : Evaluates M.meaning env condition result)
    (hraised : ∀ fault, result = .error fault → outcome = .ended (.raised fault))
    (htrue : ∀ v, result = .ok v → M.meaning.truthy v = true →
      Simulates M (inScope "if" (statements body)) (16 * Stmt.listNodes body) env outcome)
    (hfalse : ∀ v, result = .ok v → M.meaning.truthy v = false →
      FollowedElse M env outcome otherwise) :
    Followed M env outcome [⟨.branch condition body otherwise, span⟩] := by
  have hcomputes := computes_of_evaluates he
  have hbody := advancing_statements body
  change Simulates M (statementForm span (.branch condition body otherwise)) _ env outcome
  by_cases hdead : condition.form = .boolean false
  · have hchosen := hfalse _ (he.eq_false hdead) M.meaning.truthy_false
    cases otherwise with
    | none =>
      obtain rfl : outcome = .next env := hchosen
      rw [statementForm_deadBranch hdead, StmtForm.nodes]
      exact (simulates_deadBranch hbody simulates_done).weaken (by omega)
    | some otherwise =>
      rw [statementForm_deadBranchElse hdead, StmtForm.nodes]
      exact (simulates_deadBranch hbody hchosen).weaken (by omega)
  · cases otherwise with
    | none =>
      rw [statementForm_branch hdead, StmtForm.nodes]
      exact (simulates_branch hcomputes hbody hraised htrue hfalse).weaken (by omega)
    | some otherwise =>
      rw [statementForm_branchElse hdead, StmtForm.nodes]
      exact (simulates_branchElse hcomputes hbody (advancing_statements otherwise) hraised htrue
        hfalse).weaken (by omega)

theorem followed_loop (he : Evaluates M.meaning env condition result)
    (hraised : ∀ fault, result = .error fault → outcome = .ended (.raised fault))
    (hdone : ∀ v, result = .ok v → M.meaning.truthy v = false → outcome = .next env)
    (hround : ∀ v, result = .ok v → M.meaning.truthy v = true → ∃ inner,
      Followed M env.enter inner body ∧
      AfterRound M (statementForm span (.whileLoop condition body))
        (16 * (StmtForm.nodes (.whileLoop condition body) + 1)) outcome inner) :
    Followed M env outcome [⟨.whileLoop condition body, span⟩] := by
  change Simulates M (whileLoop (expr condition none) (statements body)) _ env outcome
  refine simulates_whileLoop (computes_of_evaluates he) (advancing_statements body) hraised hdone
    ?_ (by rw [StmtForm.nodes]; omega)
  intro v hv htruth
  obtain ⟨inner, hbody, hafter⟩ := hround v hv htruth
  exact ⟨inner, hbody.simulates, hafter⟩

theorem followed_of_runs (h : Runs M.meaning env body outcome) : Followed M env outcome body := by
  induction h with
  | done => exact simulates_done
  | step _ hrest ih ih' => exact ih.step hrest ih'
  | stop _ hstop ih => exact ih.stop hstop
  | declareNil => exact (simulates_declareNil _).weaken (by omega)
  | @declare _ init _ _ _ he =>
    change Simulates M (statementForm _ (.declare _ (some _))) _ _ _
    rw [statementForm, StmtForm.nodes]
    have hvalue := fun register => (lowerable init (some register)).ignoring
    refine (simulates_declareLocal hvalue ?_ _).weaken (by omega)
    intro b b₁ b₂ register registers hready hroom hallocate hrun hcovers hview
    obtain ⟨operand, _, hinit, hreturn⟩ := bind_eq_ok.mp hrun
    obtain ⟨-, rfl⟩ := pure_eq_ok.mp hreturn
    exact fresh_gives (computes_of_evaluates he) hready hroom hallocate hinit hcovers
      (Nat.le_refl _) hview
  | expr he =>
    change Simulates M (statementForm _ (.expr _)) _ _ _
    rw [statementForm_discard he.form_ne_call he.form_ne_assign, StmtForm.nodes]
    exact (simulates_discard (computes_of_evaluates he)).weaken (by omega)
  | assign hname he =>
    change Simulates M (statementForm _ (.expr _)) _ _ _
    rw [statementForm, StmtForm.nodes, Expr.nodes, ExprForm.nodes]
    exact (simulates_assign hname (computes_of_evaluates he)).weaken (by omega)
  | returnNothing =>
    change Simulates M (statementForm _ (.ret none)) _ _ _
    rw [statementForm]
    exact simulates_returnNothing.weaken (by omega)
  | returnValue he =>
    change Simulates M (statementForm _ (.ret (some _))) _ _ _
    rw [statementForm, StmtForm.nodes]
    exact simulates_returnValue (computes_of_evaluates he)
  | breakLoop =>
    change Simulates M (statementForm _ .breakLoop) _ _ _
    rw [statementForm]
    exact simulates_breakLoop.weaken (by omega)
  | continueLoop =>
    change Simulates M (statementForm _ .continueLoop) _ _ _
    rw [statementForm]
    exact simulates_continueLoop.weaken (by omega)
  | block _ ih =>
    change Simulates M (statementForm _ (.block _)) _ _ _
    rw [statementForm, StmtForm.nodes]
    exact (simulates_inScope (advancing_statements _) ih.simulates "block").weaken (by omega)
  | @branch _ _ _ _ _ otherwise _ he hruns ih =>
    refine followed_branch he (by rintro _ ⟨⟩) ?_ ?_
    · rintro _ ⟨⟩ htrue
      rw [if_pos htrue] at ih
      exact simulates_inScope (advancing_statements _) ih.simulates "if"
    · rintro _ ⟨⟩ hfalse
      rw [hfalse, if_neg Bool.false_ne_true] at hruns ih
      cases otherwise with
      | none => exact congrArg Outcome.leave hruns.of_nil
      | some otherwise =>
        exact simulates_inScope (advancing_statements otherwise) ih.simulates "else"
  | branchRaised he =>
    exact followed_branch he (by rintro _ ⟨⟩; rfl) (by rintro _ ⟨⟩) (by rintro _ ⟨⟩)
  | loopDone he hfalse =>
    refine followed_loop he (by rintro _ ⟨⟩) (fun _ _ _ => rfl) ?_
    rintro _ ⟨⟩ htrue
    simp [hfalse] at htrue
  | @loopAgain _ _ _ _ inner _ _ _ he htrue _ hagain _ ih ih' =>
    refine followed_loop he (by rintro _ ⟨⟩) ?_ ?_
    · rintro _ ⟨⟩ hfalse
      simp [htrue] at hfalse
    · rintro _ ⟨⟩ _
      refine ⟨inner, ih, ?_⟩
      cases inner with
      | next env' =>
        cases hagain
        exact ih'
      | continued env' =>
        cases hagain
        exact ih'
      | broke env' => cases hagain
      | ended ending => cases hagain
  | loopBroke he htrue _ ih =>
    refine followed_loop he (by rintro _ ⟨⟩) ?_ fun _ _ _ => ⟨_, ih, rfl⟩
    rintro _ ⟨⟩ hfalse
    simp [htrue] at hfalse
  | loopEnded he htrue _ ih =>
    refine followed_loop he (by rintro _ ⟨⟩) ?_ fun _ _ _ => ⟨_, ih, rfl⟩
    rintro _ ⟨⟩ hfalse
    simp [htrue] at hfalse
  | loopRaised he => exact followed_loop he (by rintro _ ⟨⟩; rfl) (by rintro _ ⟨⟩) (by rintro _ ⟨⟩)

end Lower

namespace Program
open ChunkBuilder

variable {Value Fault : Type} {I : Interpretation Value Fault} {program : Program}
  {options : Options} {map : Option SourceMap} {b : ChunkBuilder} {ending : Ending Value Fault}

def machine (I : Interpretation Value Fault) (f : FunctionBuilder) : Machine Value Fault :=
  ⟨I, f.listing.map Instruction.kept, f.constants.toList⟩

theorem covers_machine (I : Interpretation Value Fault) (f : FunctionBuilder) :
    (machine I f).Covers 0 [] f where
  code := by
    intro p i _ _ hat
    rw [machine, List.getElem?_map, hat]
    rfl
  constants := List.prefix_rfl

theorem ends_of_lowering (hsize : program.nodes < 2 ^ 24)
    (hrun : program.lowering (.start options map) = .ok () b) (hends : program.Ends I ending)
    (registers : Nat → Value) : (machine I b.current).Ends ⟨0, registers⟩ ending := by
  obtain ⟨-, -, hdone⟩ := (lowering_ensures hsize).of_ok hrun
  have hfresh := FunctionBuilder.fresh_root options.chunkName
  have hroom : (FunctionBuilder.root options.chunkName).Room
      (16 * Stmt.listNodes program.body) := hfresh.room (by
    unfold nodes at hsize
    unfold FunctionBuilder.capacity
    omega)
  obtain ⟨_, b₁, hbody, hreturn⟩ := bind_eq_ok.mp hrun
  have hcovers := covers_machine I b.current
  have hbreaks : b₁.current.loops.breaks = [] := by
    obtain ⟨-, rfl⟩ := (Lower.emit_ensures _ _ _ _ b₁).of_ok hreturn
    have hloops : b₁.current.loops.stack = [] := hdone.loops
    simp [Loops.breaks, hloops]
  have hsettled : (machine I b.current).Settled 0 0 [] b₁.current := by
    refine ⟨?_, by simp [hbreaks]⟩
    rw [hbreaks]
    exact hcovers.of_appends (Lower.emit_appends hreturn) (Nat.le_refl _)
  have hfollows : ∀ {outcome}, Runs I .empty program.body outcome →
      (machine I b.current).Follows 0 (FunctionBuilder.root options.chunkName) b₁.current
        ⟨0, registers⟩ outcome := by
    intro outcome hruns
    have hfollowed : Lower.Followed (machine I b.current) .empty outcome program.body :=
      Lower.followed_of_runs hruns
    exact hfollowed.simulates.follows ⟨ready_start, hfresh.atRest, hroom, hbody, hsettled, rfl⟩
  cases hends with
  | inside hruns => exact hfollows hruns
  | behind hruns =>
    obtain ⟨registers', hreaches, -⟩ := hfollows hruns
    have hat := (Lower.emit_covered hreturn hcovers (Nat.zero_le _) (by simp)).1
    exact hreaches.ends (Machine.ends_of_perform hat rfl)

/-- Lowering keeps the meaning of a program. Whatever values and operators are, and whatever
the registers hold at first: if the program ends, the code of its main function ends in the
same way, and in no other. -/
theorem ends_iff_of_build (I : Interpretation Value Fault) (program : Program) (options : Options)
    (map : Option SourceMap) (hsize : program.nodes < 2 ^ 24) {main : Prototype}
    {map' : Option SourceMap} (hbuild : program.build options map = .ok (main, map'))
    {ending : Ending Value Fault} (hends : program.Ends I ending) (registers : Nat → Value)
    (other : Ending Value Fault) : main.Ends I registers other ↔ other = ending := by
  rw [build_eq] at hbuild
  split at hbuild
  · simp at hbuild
  · next b hrun =>
    obtain ⟨hready, henclosing, hdone⟩ := (lowering_ensures hsize).of_ok hrun
    obtain ⟨words, hwords, hdecoded, -⟩ :=
      Instruction.mapM_encode b.current.listing hready.sound.encodes
    have hfinish := FunctionBuilder.finish_eq_ok hdone hready.sound hwords program.endLine
    obtain ⟨main', hmain, hpair⟩ := except_bind_eq_ok.mp hbuild
    rw [ChunkBuilder.finish, henclosing] at hmain
    simp only [hfinish] at hmain
    cases hmain
    cases hpair
    have hmachine := ends_of_lowering hsize hrun hends registers
    constructor
    · rintro ⟨code, hcode, hother⟩
      obtain rfl : b.current.listing.map Instruction.kept = code :=
        Except.ok.inj (hdecoded.symm.trans hcode)
      exact hother.unique hmachine
    · rintro rfl
      exact ⟨_, hdecoded, hmachine⟩

/-- Values that are constants and know nothing but negation. -/
def plainConstants : Interpretation Constant Unit where
  literal c := c
  truthy c := c ≠ .nil && c ≠ .boolean false
  unary
    | .not, c => .ok (.boolean (c = .nil || c = .boolean false))
    | _, _ => .error ()
  compute _ _ _ := .error ()
  eq _ _ := .error ()
  lt _ _ := .error ()
  le _ _ := .error ()
  truthy_nil := rfl
  truthy_false := rfl

def setTrue : Stmt :=
  .of (.expr (.of (.assign "x" (.of (.logical .or (.of (.name "x")) (.of (.boolean true)))))))

/-- A loop that goes on until its variable is true, with a dead branch in it. -/
def untilTrue : Program :=
  .of [.of (.declare "x" none),
    .of (.whileLoop (.of (.unary .not (.of (.name "x"))))
      [.of (.branch (.of (.boolean false)) [.of .breakLoop] (some [setTrue])), .of .continueLoop]),
    .of (.ret (some (.of (.name "x"))))]

theorem ends_untilTrue : untilTrue.Ends plainConstants (.returned [.boolean true]) := by
  let before : Environment Constant := Environment.empty.declare "x" .nil
  let after : Environment Constant := before.assign "x" (.boolean true)
  have hset : Runs plainConstants before.enter.enter [setTrue] (.next after.enter.enter) :=
    .assign rfl (.undecided (.name rfl) rfl (.literal rfl))
  have hbranch : Runs plainConstants before.enter
      [.of (.branch (.of (.boolean false)) [.of .breakLoop] (some [setTrue]))]
      (Outcome.next after.enter.enter).leave := by
    apply Runs.branch (v := .boolean false)
    · exact .literal rfl
    · exact hset
  have hnot : ∀ {env : Environment Constant} {c : Constant}, env.lookup "x" = some c →
      Evaluates plainConstants env (.of (.unary .not (.of (.name "x"))))
        (plainConstants.unary .not c) := fun hname => .unary (.name hname)
  have hloop : Runs plainConstants before [.of (.whileLoop (.of (.unary .not (.of (.name "x"))))
      [.of (.branch (.of (.boolean false)) [.of .breakLoop] (some [setTrue])), .of .continueLoop])]
      (.next after) := by
    apply Runs.loopAgain (hnot (c := .nil) rfl) rfl (.step hbranch .continueLoop) rfl
    exact .loopDone (hnot (c := .boolean true) rfl) rfl
  apply Ends.inside
  exact .step .declareNil (.step hloop (.returnValue (.name rfl)))

theorem ends_iff_of_build_untilTrue :
    ∃ main map, untilTrue.build {} none = .ok (main, map) ∧
      untilTrue.Ends plainConstants (.returned [.boolean true]) ∧
      ∀ registers other, main.Ends plainConstants registers other ↔
        other = .returned [.boolean true] := by
  have hok : (match untilTrue.build {} none with
      | .ok _ => true
      | .error _ => false) = true := by decide +kernel
  split at hok
  · next result hbuild =>
    exact ⟨result.1, result.2, hbuild, ends_untilTrue,
      ends_iff_of_build plainConstants untilTrue {} none (by decide) hbuild ends_untilTrue⟩
  · simp at hok

end Program

end RegisterCode
