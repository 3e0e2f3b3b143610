import RegisterCode.Proofs.LoweredFunctions
import RegisterCode.Proofs.LoweredPrograms

/-! The states that a translation passes through. Lowering is made of operations on the
current function, searches for names, and functions that are opened and closed again, so
what each of these keeps holds at every point of every translation. -/
namespace RegisterCode

open Action Relation

namespace FunctionBuilder

variable {f f' : FunctionBuilder} {operation : Operation}

def Operation.Owning : Operation → Prop
  | .nameRegister .. => False
  | _ => True

def owning : Usage := fun _ event =>
  match event with
  | .label .. => False
  | _ => True

theorem Operation.Owning.respects (h : operation.Owning) (f : FunctionBuilder) :
    operation.Respects owning f := by
  cases operation with
  | nameRegister name register => exact h.elim
  | _ => simp [Respects, LoadsConstant, Jumps, owning]

/-- Every local owns its register, and whatever register is owned is taken. -/
structure Tidy (f : FunctionBuilder) : Prop where
  disciplined : f.Disciplined
  plain : f.scopes.Plain

theorem Tidy.after (h : f.Tidy) (howning : operation.Owning) : (operation.after f).Tidy := by
  have hchanges := Operation.leads (howning.respects f)
  generalize operation.after f = last at hchanges
  induction hchanges with
  | refl => exact h
  | tail _ hchange ih =>
    exact ⟨ih.disciplined.change hchange, hchange.plain (fun _ _ => id) ih.plain⟩

theorem Tidy.setLine (h : f.Tidy) (line : UInt32) : (f.setLine line).Tidy :=
  ⟨⟨h.disciplined.ascending, h.disciplined.below, h.disciplined.nextFree_le,
    h.disciplined.highWater_le⟩, h.plain⟩

theorem Tidy.captures (h : f.Tidy) (hcaptures : f.Captures f') : f'.Tidy := by
  obtain ⟨captured, rfl⟩ := hcaptures
  exact ⟨⟨h.disciplined.ascending, h.disciplined.below, h.disciplined.nextFree_le,
    h.disciplined.highWater_le⟩, h.plain⟩

theorem IsInitial.tidy (h : f.IsInitial) : f.Tidy :=
  ⟨h.disciplined, h.plain⟩

end FunctionBuilder

namespace ChunkBuilder
open FunctionBuilder

variable {b b' : ChunkBuilder}

/-- One step of a translation. It may fail and leave its state behind. -/
inductive Proceeds (b : ChunkBuilder) : ChunkBuilder → Prop
  | perform (operation : FunctionBuilder.Operation) : operation.Owning →
    Proceeds b { b with current := operation.after b.current }
  | resolve (name : String) : Proceeds b ((resolve name).after b)
  | locate (span : Span) : Proceeds b (locate span b)
  | openFunction (name : String) (firstLine : UInt32) : Proceeds b (openFunction name firstLine b)
  | closeFunction (lastLine : UInt32) : Proceeds b ((closeFunction lastLine).after b)

def Reached (b : ChunkBuilder) : Prop :=
  ∃ options map, ReflTransGen Proceeds (start options map) b

def Tidy (b : ChunkBuilder) : Prop :=
  ∀ f ∈ b.current :: b.enclosing, f.Tidy

theorem Tidy.withCurrent (h : b.Tidy) {current : FunctionBuilder} (hcurrent : current.Tidy) :
    Tidy { b with current } :=
  List.forall_mem_cons.mpr ⟨hcurrent, (List.forall_mem_cons.mp h).2⟩

theorem tidy_of_captured {enclosing enclosing' : List FunctionBuilder}
    (h : List.Forall₂ Captures enclosing enclosing') (htidy : ∀ f ∈ enclosing, f.Tidy) :
    ∀ f ∈ enclosing', f.Tidy := by
  induction h with
  | nil => exact htidy
  | cons hcaptures _ ih =>
    obtain ⟨houter, hrest⟩ := List.forall_mem_cons.mp htidy
    exact List.forall_mem_cons.mpr ⟨houter.captures hcaptures, ih hrest⟩

/-- A search that fails has also captured on its way, and nothing else. -/
theorem resolve_after (name : String) (b : ChunkBuilder) :
    ∃ current enclosing, Searched b.current b.enclosing (current, enclosing) ∧
      (resolve name).after b = { b with current, enclosing } := by
  have hsearch := captureFrom_searched name b.current b.enclosing
  unfold after resolve
  cases b.current.scopes.register? name with
  | some register => exact ⟨b.current, b.enclosing, .refl _ _, rfl⟩
  | none =>
    dsimp only
    cases hrun : captureFrom name b.current b.enclosing with
    | ok found after =>
      rw [hrun] at hsearch
      cases found <;> exact ⟨after.1, after.2, hsearch, rfl⟩
    | error error after =>
      rw [hrun] at hsearch
      exact ⟨after.1, after.2, hsearch.2, rfl⟩

theorem closeFunction_after {outer : FunctionBuilder} {rest : List FunctionBuilder}
    (henclosing : b.enclosing = outer :: rest) (lastLine : UInt32) :
    (closeFunction lastLine).after b = { b with current := outer, enclosing := rest } ∨
      ∃ child, (closeFunction lastLine).after b =
        { b with
          current := (FunctionBuilder.Operation.addChild child).after outer
          enclosing := rest } := by
  unfold after closeFunction
  simp only [henclosing]
  cases b.current.finish lastLine with
  | error error => exact .inl rfl
  | ok child =>
    refine .inr ⟨child, ?_⟩
    have hadded : (FunctionBuilder.Operation.addChild child).after outer =
        (FunctionBuilder.addChild child).after outer := after_map _ _ outer
    rw [hadded]
    dsimp only
    rw [onCurrent_apply]
    unfold after
    cases FunctionBuilder.addChild child outer <;> rfl

theorem Tidy.proceeds (h : b.Tidy) (hstep : b.Proceeds b') : b'.Tidy := by
  obtain ⟨hcurrent, henclosing⟩ := List.forall_mem_cons.mp h
  cases hstep with
  | perform operation howning => exact h.withCurrent (hcurrent.after howning)
  | resolve name =>
    obtain ⟨current, enclosing, ⟨hcaptured, haround⟩, hafter⟩ := resolve_after name b
    rw [hafter]
    exact List.forall_mem_cons.mpr
      ⟨hcurrent.captures hcaptured, tidy_of_captured haround henclosing⟩
  | locate span =>
    obtain ⟨line, map, generatedLine, hlocate⟩ := Lower.locate_eq span b
    rw [hlocate]
    exact List.forall_mem_cons.mpr ⟨hcurrent.setLine line, henclosing⟩
  | openFunction name firstLine =>
    have hinitial := (IsInitial.start name (some b.level) firstLine).tidy
    exact List.forall_mem_cons.mpr ⟨hinitial.setLine b.current.line, h⟩
  | closeFunction lastLine =>
    cases houter : b.enclosing with
    | nil =>
      have hsame : (closeFunction lastLine).after b = b := by simp [after, closeFunction, houter]
      rwa [hsame]
    | cons outer rest =>
      rw [houter] at henclosing
      obtain ⟨houterTidy, hrest⟩ := List.forall_mem_cons.mp henclosing
      rcases closeFunction_after houter lastLine with hafter | ⟨child, hafter⟩
      · rw [hafter]
        exact henclosing
      · rw [hafter]
        exact List.forall_mem_cons.mpr ⟨houterTidy.after trivial, hrest⟩

theorem Reached.tidy (h : b.Reached) : b.Tidy := by
  obtain ⟨options, map, hrun⟩ := h
  induction hrun with
  | refl =>
    intro f hf
    rw [List.mem_singleton.mp hf]
    exact (IsInitial.root options.chunkName).tidy
  | tail _ hstep ih => exact ih.proceeds hstep

end ChunkBuilder

namespace Lower
open ChunkBuilder

variable {α β : Type}

def Stepwise (action : Lower α) : Prop :=
  ∀ b, action.Leads Proceeds b

theorem Stepwise.reached {action : Lower α} (h : Stepwise action) {b : ChunkBuilder}
    (hb : b.Reached) : (action.after b).Reached := by
  obtain ⟨options, map, hrun⟩ := hb
  exact ⟨options, map, hrun.trans (h b)⟩

theorem Stepwise.bind {action : Lower α} {next : α → Lower β} (h : Stepwise action)
    (hnext : ∀ value, Stepwise (next value)) : Stepwise (action >>= next) :=
  fun b => leads_bind (h b) fun value middle _ => hnext value middle

theorem stepwise_pure (value : α) : Stepwise (pure value) :=
  leads_pure value

theorem stepwise_throw (error : Error) : Stepwise (throw error : Lower α) :=
  leads_throw error

theorem stepwise_get : Stepwise get :=
  fun _ => .refl

theorem stepwise_forM {items : List α} {action : α → Lower PUnit}
    (h : ∀ item, Stepwise (action item)) : Stepwise (items.forM action) :=
  leads_forM h

theorem stepwise_onCurrent {action : Build α} {handed : α → Option UInt8}
    (operation : FunctionBuilder.Operation) (hrun : operation.run = handed <$> action)
    (howning : operation.Owning) : Stepwise (onCurrent action) := by
  intro b
  have hafter : (onCurrent action).after b =
      { b with current := operation.after b.current } := by
    rw [FunctionBuilder.Operation.after, hrun, after_map]
    unfold after
    rw [onCurrent_apply]
    cases action b.current <;> rfl
  unfold Leads
  rw [hafter]
  exact .single (.perform operation howning)

theorem stepwise_resolve (name : String) : Stepwise (resolve name) :=
  fun _ => .single (.resolve name)

theorem stepwise_allocate : Stepwise allocate :=
  stepwise_onCurrent .allocate rfl trivial

theorem stepwise_emit (op : Opcode) (x y z : Int) : Stepwise (emit op x y z) :=
  (stepwise_onCurrent (.emit _) rfl trivial).bind fun _ => stepwise_pure _

theorem stepwise_jump : Stepwise jump :=
  stepwise_onCurrent .jump rfl trivial

theorem stepwise_aimHere (index : Nat) : Stepwise (aimHere index) :=
  stepwise_onCurrent (.aimHere index) rfl trivial

theorem stepwise_loadConstant (target : UInt8) (slot : Nat) :
    Stepwise (loadConstant target slot) :=
  (stepwise_onCurrent (.loadConstant target slot) rfl trivial).bind fun _ => stepwise_pure _

theorem stepwise_intern (c : Constant) : Stepwise (onCurrent (FunctionBuilder.intern c)) :=
  stepwise_onCurrent (.intern c) rfl trivial

theorem stepwise_free (operand : Operand) : Stepwise (free operand) := by
  cases operand with
  | register index => exact stepwise_onCurrent (.free index) rfl trivial
  | _ => exact stepwise_pure _

theorem stepwise_place (dest : Option UInt8) : Stepwise (place dest) := by
  cases dest with
  | some target => exact stepwise_pure target
  | none => exact stepwise_allocate

theorem stepwise_constant (c : Constant) : Stepwise (constant c) :=
  (stepwise_intern c).bind fun _ => stepwise_pure _

theorem stepwise_toKey (name : String) : Stepwise (toKey name) := by
  rw [toKey_eq]
  refine (stepwise_intern _).bind fun slot => ?_
  cases h : (Operand.constant slot).short? with
  | some field =>
    rw [toShort_of_some h]
    exact stepwise_pure _
  | none =>
    rw [toShort_constant h]
    exact stepwise_allocate.bind fun _ => (stepwise_loadConstant _ _).bind fun _ =>
      stepwise_pure _

theorem after_releasing (operand : Operand) (use : Lower Unit) (b : ChunkBuilder) :
    (releasing operand use).after b = (free operand).after (use.after b) := by
  unfold after
  cases hrun : use b with
  | ok value after => rw [releasing_of_ok hrun]
  | error error after =>
    obtain ⟨final, b', hfails, ⟨hfreed, -⟩ | hrefused⟩ := releasing_of_error operand hrun
    · simp only [hfails, hfreed]
    · simp only [hfails, hrefused]

theorem stepwise_releasing {use : Lower Unit} (h : Stepwise use) (operand : Operand) :
    Stepwise (releasing operand use) := by
  intro b
  unfold Leads
  rw [after_releasing]
  exact (h b).trans (stepwise_free operand _)

theorem stepwise_loadGlobal (name : String) (target : UInt8) :
    Stepwise (loadGlobal name target) := by
  rw [loadGlobal_eq]
  refine (stepwise_toKey name).bind fun key => (stepwise_resolve _).bind fun found => ?_
  cases found with
  | register index => exact stepwise_releasing (stepwise_emit _ _ _ _) _
  | upvalue index => exact stepwise_releasing (stepwise_emit _ _ _ _) _
  | global _ => exact stepwise_releasing (stepwise_throw _) _

theorem stepwise_storeGlobal (name : String) (value : Short) :
    Stepwise (storeGlobal name value.holder) := by
  rw [storeGlobal_eq]
  refine (stepwise_toKey name).bind fun key => (stepwise_resolve _).bind fun found => ?_
  cases found with
  | register index => exact (stepwise_emit _ _ _ _).bind fun _ => stepwise_free _
  | upvalue index => exact (stepwise_emit _ _ _ _).bind fun _ => stepwise_free _
  | global _ => exact (stepwise_throw _).bind fun _ => stepwise_free _

theorem stepwise_load (operand : Operand) (target : UInt8) : Stepwise (load operand target) := by
  cases operand with
  | register index =>
    unfold load
    dsimp only
    split
    · exact stepwise_pure _
    · exact stepwise_emit _ _ _ _
  | constant slot => exact stepwise_loadConstant target slot.toNat
  | global name => exact stepwise_loadGlobal name target
  | _ => exact stepwise_emit _ _ _ _

theorem stepwise_toRegister (operand : Operand) : Stepwise (toRegister operand) := by
  rcases toRegister_cases operand with ⟨index, -, hsame⟩ | hfresh
  · rw [hsame]
    exact stepwise_pure index
  · rw [hfresh]
    exact stepwise_allocate.bind fun _ => (stepwise_load _ _).bind fun _ => stepwise_pure _

theorem stepwise_toShort (operand : Operand) : Stepwise (toShort operand) := by
  rcases toShort_cases operand with ⟨short, -, hsame⟩ | hheld
  · rw [hsame]
    exact stepwise_pure short
  · rw [hheld]
    exact (stepwise_toRegister operand).bind fun _ => stepwise_pure _

theorem stepwise_settle (operand : Operand) (dest : Option UInt8) :
    Stepwise (settle operand dest) := by
  cases dest with
  | none => exact stepwise_pure operand
  | some target =>
    exact (stepwise_load _ _).bind fun _ => (stepwise_free _).bind fun _ => stepwise_pure _

theorem stepwise_shortPair {left right : Lower Operand} (hleft : Stepwise left)
    (hright : Stepwise right) : Stepwise (shortPair left right) := by
  rw [shortPair_eq]
  exact hleft.bind fun _ => (stepwise_toShort _).bind fun _ => hright.bind fun _ =>
    (stepwise_toShort _).bind fun _ => (stepwise_free _).bind fun _ =>
      (stepwise_free _).bind fun _ => stepwise_pure _

theorem stepwise_compare (op : Opcode) (expected : Bool) (x y : Int) (target : UInt8) :
    Stepwise (compare op expected x y target) :=
  (stepwise_emit _ _ _ _).bind fun _ => stepwise_jump.bind fun toTrue =>
    (stepwise_emit _ _ _ _).bind fun _ => (stepwise_aimHere toTrue).bind fun _ =>
      stepwise_emit _ _ _ _

theorem stepwise_inPlace {compute : UInt8 → Lower Unit} (h : ∀ target, Stepwise (compute target))
    (dest : Option UInt8) : Stepwise (inPlace compute dest) :=
  (stepwise_place dest).bind fun target => (h target).bind fun _ => stepwise_pure _

theorem stepwise_unaryInto {value : Option UInt8 → Lower Operand}
    (hvalue : ∀ dest, Stepwise (value dest)) (op : UnaryOp) (target : UInt8) :
    Stepwise (unaryInto op value target) := by
  rw [unaryInto_eq]
  exact (hvalue none).bind fun _ => (stepwise_toRegister _).bind fun _ => (stepwise_free _).bind
    fun _ => stepwise_emit _ _ _ _

theorem stepwise_binaryInto {left right : Option UInt8 → Lower Operand}
    (hleft : ∀ dest, Stepwise (left dest)) (hright : ∀ dest, Stepwise (right dest))
    (op : BinaryOp) (target : UInt8) : Stepwise (binaryInto op left right target) := by
  unfold binaryInto
  split
  · exact stepwise_allocate.bind fun first => (hleft (some first)).bind fun _ =>
      stepwise_allocate.bind fun second => (hright (some second)).bind fun _ =>
        (stepwise_free _).bind fun _ => (stepwise_free _).bind fun _ => stepwise_emit _ _ _ _
  · exact (stepwise_shortPair (hleft none) (hright none)).bind fun _ => stepwise_emit _ _ _ _
  · refine (stepwise_shortPair (hleft none) (hright none)).bind fun fields => ?_
    dsimp only
    split <;> exact stepwise_compare _ _ _ _ _

theorem stepwise_logicalInto {left right : Option UInt8 → Lower Operand}
    (hleft : ∀ dest, Stepwise (left dest)) (hright : ∀ dest, Stepwise (right dest))
    (op : LogicalOp) (target : UInt8) : Stepwise (logicalInto op left right target) :=
  (hleft (some target)).bind fun _ => (stepwise_emit _ _ _ _).bind fun _ =>
    stepwise_jump.bind fun done => (hright (some target)).bind fun _ => stepwise_aimHere done

theorem stepwise_store {value : Option UInt8 → Lower Operand}
    (hvalue : ∀ dest, Stepwise (value dest)) (name : String) (isLogical : Bool) :
    Stepwise (store name isLogical value) := by
  rw [store_eq]
  refine (stepwise_resolve name).bind fun found => ?_
  cases found with
  | register target =>
    cases isLogical with
    | true =>
      exact (hvalue none).bind fun _ => (stepwise_toRegister _).bind fun _ =>
        (stepwise_load _ _).bind fun _ => (stepwise_free _).bind fun _ => stepwise_pure _
    | false => exact (hvalue (some target)).bind fun _ => stepwise_pure _
  | upvalue index =>
    exact (hvalue none).bind fun _ => (stepwise_toRegister _).bind fun _ =>
      (stepwise_emit _ _ _ _).bind fun _ => stepwise_pure _
  | global name =>
    exact (hvalue none).bind fun _ => (stepwise_toShort _).bind fun short =>
      (stepwise_storeGlobal name short).bind fun _ => stepwise_pure _

theorem stepwise_call (base : UInt8) {callee : Lower Operand} {args : Lower (List UInt8)}
    (results : Nat) (hcallee : Stepwise callee) (hargs : Stepwise args) :
    Stepwise (call base callee args results) :=
  hcallee.bind fun _ => hargs.bind fun _ => (stepwise_emit _ _ _ _).bind fun _ =>
    stepwise_forM fun _ => stepwise_free _

theorem stepwise_callInto {callee : Option UInt8 → Lower Operand} {args : Lower (List UInt8)}
    (hcallee : ∀ dest, Stepwise (callee dest)) (hargs : Stepwise args) (target : UInt8) :
    Stepwise (callInto callee args target) := by
  have hfresh : Stepwise (isFreshTop target) := stepwise_get.bind fun _ => stepwise_pure _
  refine hfresh.bind fun fresh => ?_
  split
  · exact stepwise_call target 1 (hcallee (some target)) hargs
  · exact stepwise_allocate.bind fun base => (stepwise_call base 1 (hcallee (some base)) hargs).bind
      fun _ => (stepwise_emit _ _ _ _).bind fun _ => stepwise_free _

theorem stepwise_jumpUnless {condition : Lower Operand} (h : Stepwise condition) :
    Stepwise (jumpUnless condition) := by
  rw [jumpUnless_eq]
  exact h.bind fun _ => (stepwise_toRegister _).bind fun _ => (stepwise_emit _ _ _ _).bind fun _ =>
    stepwise_jump.bind fun _ => (stepwise_free _).bind fun _ => stepwise_pure _

theorem stepwise_inScope (name : String) {body : Lower Unit} (h : Stepwise body) :
    Stepwise (inScope name body) :=
  (stepwise_onCurrent (.openScope name) rfl trivial).bind fun _ => h.bind fun _ =>
    stepwise_onCurrent .closeScope rfl trivial

theorem stepwise_bindLocal (name : String) :
    Stepwise (onCurrent (FunctionBuilder.bindLocal name)) :=
  stepwise_onCurrent (.bindLocal name) rfl trivial

theorem stepwise_declareLocal {value : UInt8 → Lower Unit}
    (h : ∀ register, Stepwise (value register)) (name : String) :
    Stepwise (declareLocal name value) := by
  refine stepwise_allocate.bind fun register => (h register).bind fun _ => (stepwise_free _).bind
    fun _ => (stepwise_bindLocal name).bind fun bound => ?_
  split
  · exact stepwise_throw _
  · exact stepwise_pure _

theorem stepwise_functionInto {body : Lower Unit} (hbody : Stepwise body) (params : List String)
    (name : String) (line lastLine : UInt32) (target : UInt8) :
    Stepwise (functionInto params body name line lastLine target) := by
  have hopen : Stepwise (modify (openFunction name line)) :=
    fun _ => leads_modify (.openFunction name line)
  have hclose : Stepwise (closeFunction lastLine) := fun _ => .single (.closeFunction lastLine)
  have hparams : ∀ param, Stepwise (do
      let _ ← onCurrent (FunctionBuilder.bindParameter param)) := fun param =>
    (stepwise_onCurrent (.bindParameter param) rfl trivial).bind fun _ => stepwise_pure _
  exact hopen.bind fun _ => (stepwise_forM hparams).bind fun _ => hbody.bind fun _ =>
    (stepwise_emit _ _ _ _).bind fun _ => hclose.bind fun _ => stepwise_emit _ _ _ _

theorem stepwise_deadBranch {body otherwise : Lower Unit} (hbody : Stepwise body)
    (hotherwise : Stepwise otherwise) : Stepwise (deadBranch body otherwise) :=
  (stepwise_onCurrent .openSection rfl trivial).bind fun _ => (stepwise_inScope "if" hbody).bind
    fun _ => (stepwise_onCurrent .discardSection rfl trivial).bind fun _ => hotherwise

theorem stepwise_branch {condition : Lower Operand} {body : Lower Unit}
    (hcondition : Stepwise condition) (hbody : Stepwise body) : Stepwise (branch condition body) :=
  (stepwise_jumpUnless hcondition).bind fun skip => (stepwise_inScope "if" hbody).bind fun _ =>
    stepwise_aimHere skip

theorem stepwise_branchElse {condition : Lower Operand} {body otherwise : Lower Unit}
    (hcondition : Stepwise condition) (hbody : Stepwise body) (hotherwise : Stepwise otherwise) :
    Stepwise (branchElse condition body otherwise) :=
  (stepwise_jumpUnless hcondition).bind fun skip => (stepwise_inScope "if" hbody).bind fun _ =>
    stepwise_jump.bind fun done => (stepwise_aimHere skip).bind fun _ =>
      (stepwise_inScope "else" hotherwise).bind fun _ => stepwise_aimHere done

theorem stepwise_whileLoop {condition : Lower Operand} {body : Lower Unit}
    (hcondition : Stepwise condition) (hbody : Stepwise body) :
    Stepwise (whileLoop condition body) :=
  stepwise_get.bind fun _ => (stepwise_onCurrent (.openLoop _) rfl trivial).bind fun _ =>
    (stepwise_jumpUnless hcondition).bind fun done => (stepwise_inScope "while" hbody).bind fun _ =>
      (stepwise_onCurrent (.jumpTo _) rfl trivial).bind fun _ => (stepwise_aimHere done).bind
        fun _ => stepwise_onCurrent .closeLoop rfl trivial

theorem stepwise_locateKnown (span : Span) : Stepwise (locateKnown span) := by
  unfold locateKnown
  split
  · exact fun _ => leads_modify (.locate span)
  · exact stepwise_pure _

theorem stepwise : StmtRules (fun _ value => ∀ dest, Stepwise (value dest)) (fun _ => Stepwise)
    (fun _ closure => ∀ name line target, Stepwise (closure name line target))
    (fun _ _ => Stepwise) (fun _ => Stepwise) (fun _ => Stepwise) where
  nil := stepwise_settle .nil
  boolean v := stepwise_settle (.boolean v)
  integer v dest := (stepwise_constant _).bind fun _ => stepwise_settle _ dest
  number v dest := (stepwise_constant _).bind fun _ => stepwise_settle _ dest
  string v dest := (stepwise_constant _).bind fun _ => stepwise_settle _ dest
  name name dest := (stepwise_resolve name).bind fun _ => stepwise_settle _ dest
  unary op hoperand := stepwise_inPlace (stepwise_unaryInto hoperand op)
  binary op hleft hright := stepwise_inPlace (stepwise_binaryInto hleft hright op)
  logical op hleft hright := stepwise_inPlace (stepwise_logicalInto hleft hright op)
  assign name hstored := stepwise_inPlace fun _ => (stepwise_store hstored name _).bind fun _ =>
    (stepwise_load _ _).bind fun _ => stepwise_free _
  call hcallee hargs := stepwise_inPlace (stepwise_callInto hcallee hargs)
  function hclosure := stepwise_inPlace (hclosure _ _)
  tuple _ _ := stepwise_throw _
  object _ _ := stepwise_throw _
  noArgs := stepwise_pure _
  moreArgs hactual hrest := stepwise_allocate.bind fun register =>
    (hactual (some register)).bind fun _ => hrest.bind fun _ => stepwise_pure _
  closure params endLine hbody name line := stepwise_functionInto hbody params name line _
  declareNil name := stepwise_declareLocal (fun _ => stepwise_emit _ _ _ _) name
  declare name hinit := stepwise_declareLocal (fun register =>
    (hinit (some register)).bind fun _ => stepwise_pure _) name
  callStatement hcallee hargs := stepwise_allocate.bind fun base =>
    (stepwise_call base 0 (hcallee (some base)) hargs).bind fun _ => stepwise_free _
  assignStatement name hstored := (stepwise_store hstored name _).bind stepwise_free
  discard _ _ hvalue := (hvalue none).bind stepwise_free
  define name hclosure := (stepwise_bindLocal name).bind (hclosure _ _)
  returnNothing := stepwise_emit _ _ _ _
  returnValue hvalue := by
    rw [returnValue_eq]
    exact (hvalue none).bind fun _ => (stepwise_toRegister _).bind fun _ =>
      (stepwise_emit _ _ _ _).bind fun _ => stepwise_free _
  deadBranch _ hbody := stepwise_deadBranch hbody (stepwise_pure _)
  deadBranchElse _ hbody hotherwise :=
    stepwise_deadBranch hbody (stepwise_inScope "else" hotherwise)
  branch _ hcondition hbody := stepwise_branch (hcondition none) hbody
  branchElse _ hcondition hbody hotherwise :=
    stepwise_branchElse (hcondition none) hbody hotherwise
  whileLoop hcondition hbody := stepwise_whileLoop (hcondition none) hbody
  breakLoop := stepwise_onCurrent .breakLoop rfl trivial
  continueLoop := stepwise_onCurrent .continueLoop rfl trivial
  block hbody := stepwise_inScope "block" hbody
  classDecl _ := stepwise_throw _
  tryBlock _ := stepwise_throw _
  located hform := (stepwise_locateKnown _).bind fun _ => hform
  empty := stepwise_pure _
  sequence hfirst hrest := hfirst.bind fun _ => hrest

end Lower

theorem Program.reached_lowering (program : Program) (options : Options)
    (map : Option SourceMap) : (program.lowering.after (.start options map)).Reached :=
  ((Lower.stepwise.holds_statements program.body).bind fun _ => Lower.stepwise_emit _ _ _ _).reached
    ⟨options, map, .refl⟩

end RegisterCode
