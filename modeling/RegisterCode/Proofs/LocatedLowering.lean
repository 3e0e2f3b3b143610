import RegisterCode.Proofs.LineRenaming
import RegisterCode.Proofs.StatementForms
import RegisterCode.Proofs.TreeSize

/-! Lowering with and without a map. The run without a map sees the state of the other
run with every generated line replaced by the line that the map has for it, and the
two runs never part. -/
namespace RegisterCode

open Action

namespace ChunkBuilder

variable {α β : Type}

/-- The chunk with its lines renamed and all else that lines come from replaced. -/
def seen (rename : UInt32 → UInt32) (options : Options) (map : Option SourceMap) (line : UInt32)
    (b : ChunkBuilder) : ChunkBuilder where
  options
  current := b.current.relined rename
  enclosing := b.enclosing.map (FunctionBuilder.relined rename)
  map
  generatedLine := line

/-- The operation does not look at lines, options and map. -/
def Steady (action : Action ChunkBuilder α) : Prop :=
  ∀ rename options map line, action.Commutes (seen rename options map line)

theorem Steady.bind {action : Action ChunkBuilder α} {next : α → Action ChunkBuilder β}
    (h : Steady action) (hnext : ∀ value, Steady (next value)) : Steady (action >>= next) :=
  fun rename options map line =>
    (h rename options map line).bind fun value => hnext value rename options map line

theorem steady_pure (value : α) : Steady (pure value) :=
  fun _ _ _ _ => commutes_pure value

theorem steady_throw (error : Error) : Steady (throw error : Action ChunkBuilder α) :=
  fun _ _ _ _ => commutes_throw error

theorem onCurrent_result? (action : Build α) (b : ChunkBuilder) :
    (onCurrent action).result? b =
      (action.result? b.current).map fun (value, current) => (value, { b with current }) := by
  unfold result?
  rw [onCurrent_apply]
  cases action b.current <;> rfl

theorem steady_onCurrent {action : Build α}
    (h : ∀ rename, action.Commutes (FunctionBuilder.relined rename)) :
    Steady (onCurrent action) := by
  intro rename options map line b
  have hcurrent : (b.seen rename options map line).current = b.current.relined rename := rfl
  rw [onCurrent_result?, onCurrent_result?, hcurrent, h rename b.current]
  cases action.result? b.current <;> rfl

theorem openFunction_steady (name : String) (firstLine : UInt32) :
    Steady (modify (openFunction name firstLine)) := by
  intro rename options map line
  apply commutes_modify
  intro b
  simp [openFunction, seen, level, FunctionBuilder.setLine, FunctionBuilder.relined, Code.relined,
    FunctionBuilder.start, FunctionBuilder.line]

section Search

variable (rename : UInt32 → UInt32)

def search (name : String) : Action (FunctionBuilder × List FunctionBuilder) (Option UInt8) :=
  fun functions => captureFrom name functions.1 functions.2

def relinedAll (functions : FunctionBuilder × List FunctionBuilder) :
    FunctionBuilder × List FunctionBuilder :=
  (functions.1.relined rename, functions.2.map (FunctionBuilder.relined rename))

theorem addCapture_commutes (up : Capture) :
    Commutes (relinedAll rename)
      (fun functions => captureFrom.addCapture up functions.1 functions.2 :
        Action (FunctionBuilder × List FunctionBuilder) (Option UInt8)) := by
  rintro ⟨f, enclosing⟩
  have happend : (FunctionBuilder.appendUpvalue up).Commutes (FunctionBuilder.relined rename) :=
    FunctionBuilder.appendUpvalue_commutes up
  rcases cases_of_result?_eq (happend f) with ⟨_, _, _, _, hold, hnew⟩ | ⟨_, _, hold, hnew⟩
  all_goals simp only [result?, captureFrom.addCapture, relinedAll, hold, hnew]
  all_goals rfl

theorem search_commutes (name : String) : (search name).Commutes (relinedAll rename) := by
  rintro ⟨f, enclosing⟩
  induction enclosing generalizing f with
  | nil => rfl
  | cons outer rest ih =>
    have hown : (f.relined rename).upvalue? name = f.upvalue? name := rfl
    have houter : (outer.relined rename).scopes.register? name = outer.scopes.register? name := rfl
    have hadd := fun up rest => addCapture_commutes rename up (f, rest)
    simp only [result?, relinedAll] at hadd
    have hsearch := cases_of_result?_eq (ih outer)
    simp only [search, relinedAll] at hsearch
    simp only [result?, search, relinedAll, List.map_cons, captureFrom, hown, houter]
    cases f.upvalue? name with
    | some index => rfl
    | none =>
      cases outer.scopes.register? name with
      | some register => exact hadd ⟨name, true, register⟩ (outer :: rest)
      | none =>
        rcases hsearch with ⟨_, _, _, _, hold, hnew⟩ | ⟨value, after, hold, hnew⟩
        · simp only [hold, hnew]
          rfl
        · simp only [hold, hnew]
          cases value with
          | none => rfl
          | some index => exact hadd ⟨name, false, index⟩ (after.1 :: after.2)

end Search

theorem resolve_steady (name : String) : Steady (resolve name) := by
  intro rename options map line b
  have hown : (b.current.relined rename).scopes.register? name =
      b.current.scopes.register? name := rfl
  have hsearch := cases_of_result?_eq (search_commutes rename name (b.current, b.enclosing))
  simp only [search, relinedAll] at hsearch
  simp only [result?, resolve, seen, hown]
  cases b.current.scopes.register? name with
  | some register => rfl
  | none =>
    rcases hsearch with ⟨_, _, _, _, hold, hnew⟩ | ⟨value, after, hold, hnew⟩
    · simp only [hold, hnew]
      rfl
    · simp only [hold, hnew]
      cases value <;> rfl

theorem closeFunction_result? (lastLine : UInt32) {b : ChunkBuilder} {outer : FunctionBuilder}
    {enclosing : List FunctionBuilder} (henclosing : b.enclosing = outer :: enclosing) :
    (closeFunction lastLine).result? b =
      (b.current.finish lastLine).toOption.bind fun child =>
        ((FunctionBuilder.addChild child).result? outer).map fun (index, current) =>
          (index, { b with current, enclosing }) := by
  simp only [result?, closeFunction, henclosing]
  cases b.current.finish lastLine with
  | error error => rfl
  | ok child =>
    exact onCurrent_result? (FunctionBuilder.addChild child)
      { b with current := outer, enclosing }

theorem closeFunction_steady (lastLine : UInt32) : Steady (closeFunction lastLine) := by
  intro rename options map line b
  cases henclosing : b.enclosing with
  | nil => simp [result?, closeFunction, seen, henclosing]
  | cons outer enclosing =>
    have hseen : (b.seen rename options map line).enclosing =
        outer.relined rename :: enclosing.map (FunctionBuilder.relined rename) := by
      simp [seen, henclosing]
    have hcurrent : (b.seen rename options map line).current = b.current.relined rename := rfl
    rw [closeFunction_result? lastLine henclosing, closeFunction_result? lastLine hseen, hcurrent,
      FunctionBuilder.finish_relined]
    cases (b.current.finish lastLine).toOption with
    | none => rfl
    | some child =>
      simp only [Option.map_some, Option.bind_some, FunctionBuilder.addChild_commutes]
      cases (FunctionBuilder.addChild child).result? outer <;> rfl

end ChunkBuilder

namespace Lower
open ChunkBuilder

theorem allocate_steady : Steady allocate :=
  steady_onCurrent fun _ => FunctionBuilder.allocate_commutes

theorem emit_steady {op : Opcode} {a b c : Int} : Steady (emit op a b c) :=
  (steady_onCurrent fun _ => FunctionBuilder.emit_commutes _).bind fun _ => steady_pure _

theorem jump_steady : Steady jump :=
  steady_onCurrent fun _ => FunctionBuilder.jump_commutes

theorem aimHere_steady (index : Nat) : Steady (aimHere index) :=
  steady_onCurrent fun _ => FunctionBuilder.aimHere_commutes index

theorem loadConstant_steady (target : UInt8) (slot : Nat) : Steady (loadConstant target slot) :=
  (steady_onCurrent fun _ => FunctionBuilder.loadConstant_commutes target slot).bind
    fun _ => steady_pure _

theorem free_steady (operand : Operand) : Steady (free operand) := by
  cases operand with
  | register index => exact steady_onCurrent fun _ => FunctionBuilder.free_commutes index
  | constant | upvalue | global | boolean | nil => exact steady_pure ()

theorem place_steady (dest : Option UInt8) : Steady (place dest) := by
  cases dest with
  | some target => exact steady_pure target
  | none => exact allocate_steady

theorem intern_steady (c : Constant) : Steady (onCurrent (FunctionBuilder.intern c)) :=
  steady_onCurrent fun _ => FunctionBuilder.intern_commutes c

theorem constant_steady (c : Constant) : Steady (constant c) :=
  (intern_steady c).bind fun _ => steady_pure _

theorem registerOf_steady (operand : Operand) : Steady (registerOf operand) := by
  unfold registerOf
  split
  · exact steady_pure _
  · exact steady_throw _

theorem shortOf_steady (operand : Operand) : Steady (shortOf operand) := by
  unfold shortOf
  split
  · exact steady_pure _
  · exact steady_throw _

theorem releasing_steady {use : Lower Unit} (h : Steady use) (operand : Operand) :
    Steady (releasing operand use) := by
  have hresult : ∀ b, (releasing operand use).result? b = (do use; free operand).result? b := by
    intro b
    rw [result?_bind]
    unfold result?
    cases hrun : use b with
    | ok _ after => rw [releasing_of_ok hrun]; rfl
    | error error after =>
      obtain ⟨final, b', hfails, -⟩ := releasing_of_error operand hrun
      rw [hfails]
      rfl
  intro rename options map line b
  rw [hresult, hresult]
  exact h.bind (fun _ => free_steady operand) rename options map line b

theorem key_steady (name : String) : Steady (key name) := by
  refine (intern_steady _).bind fun slot => ?_
  split
  · exact steady_pure _
  · exact allocate_steady.bind fun target => (loadConstant_steady target _).bind fun _ =>
      steady_pure _

theorem environment_steady : Steady environment :=
  (resolve_steady _).bind fun _ => steady_pure _

theorem loadGlobal_steady (name : String) (target : UInt8) : Steady (loadGlobal name target) := by
  refine (key_steady name).bind fun key => environment_steady.bind fun found => ?_
  cases found with
  | register index | upvalue index =>
    exact (shortOf_steady _).bind fun _ => releasing_steady emit_steady _
  | constant | global | boolean | nil => exact releasing_steady (steady_throw _) _

theorem storeGlobal_steady (name : String) (value : Operand) : Steady (storeGlobal name value) := by
  refine (key_steady name).bind fun key => (shortOf_steady key).bind fun _ =>
    (shortOf_steady value).bind fun _ => environment_steady.bind fun found => ?_
  cases found with
  | register index | upvalue index => exact emit_steady.bind fun _ => free_steady _
  | constant | global | boolean | nil => exact steady_throw _

theorem load_steady (operand : Operand) (target : UInt8) : Steady (load operand target) := by
  cases operand with
  | register index =>
    unfold load
    dsimp only
    split
    · exact steady_pure ()
    · exact emit_steady
  | constant slot => exact loadConstant_steady target slot.toNat
  | boolean | nil | upvalue => exact emit_steady
  | global name => exact loadGlobal_steady name target

theorem inRegister_steady (operand : Operand) : Steady (inRegister operand) := by
  cases operand with
  | register index => exact steady_pure _
  | constant | upvalue | global | boolean | nil =>
    exact allocate_steady.bind fun target => (load_steady _ target).bind fun _ => steady_pure _

theorem shortened_steady (operand : Operand) : Steady (shortened operand) := by
  unfold shortened
  split
  · exact steady_pure _
  · exact inRegister_steady operand

theorem settle_steady (operand : Operand) (dest : Option UInt8) : Steady (settle operand dest) := by
  cases dest with
  | none => exact steady_pure operand
  | some target =>
    exact (load_steady operand target).bind fun _ =>
      (free_steady operand).bind fun _ => steady_pure _

theorem compare_steady {op : Opcode} {expected : Bool} {b c : Int} {target : UInt8} :
    Steady (compare op expected b c target) :=
  emit_steady.bind fun _ => jump_steady.bind fun toTrue => emit_steady.bind fun _ =>
    (aimHere_steady toTrue).bind fun _ => emit_steady

theorem isFreshTop_steady (target : UInt8) : Steady (isFreshTop target) :=
  fun _ _ _ _ => commutes_get_bind (fun _ => rfl) fun _ => commutes_pure _

theorem bindLocal_steady (name : String) : Steady (onCurrent (FunctionBuilder.bindLocal name)) :=
  steady_onCurrent fun _ => FunctionBuilder.bindLocal_commutes name

theorem parameters_steady (params : List String) :
    Steady (params.forM fun param => do
      let _ ← onCurrent (FunctionBuilder.bindParameter param)) :=
  fun rename options map line => commutes_forM fun param _ =>
    (steady_onCurrent fun _ => FunctionBuilder.bindParameter_commutes param).bind
      (fun _ => steady_pure ()) rename options map line

end Lower

end RegisterCode
