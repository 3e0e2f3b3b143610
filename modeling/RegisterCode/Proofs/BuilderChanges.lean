import Mathlib.Logic.Relation
import RegisterCode.Proofs.BuilderBlocks
import RegisterCode.Proofs.NameResolution

/-! What operations do to a function. Each one, whether it succeeds or fails, is a
sequence of a few kinds of changes, so that what the changes keep, every run keeps. -/
namespace RegisterCode

open Action Relation

namespace Action

variable {σ α β : Type}

/-- The state that an operation leaves behind, whether it succeeds or fails. -/
def after (action : Action σ α) (state : σ) : σ :=
  match action state with
  | .ok _ next => next
  | .error _ next => next

def value? (action : Action σ α) (state : σ) : Option α :=
  match action state with
  | .ok value _ => some value
  | .error _ _ => none

theorem after_of_ok {action : Action σ α} {state next : σ} {value : α}
    (h : action state = .ok value next) : action.after state = next := by
  simp [after, h]

theorem after_of_error {action : Action σ α} {state next : σ} {error : Error}
    (h : action state = .error error next) : action.after state = next := by
  simp [after, h]

theorem map_apply (change : α → β) (action : Action σ α) (state : σ) :
    (change <$> action) state =
      match action state with
      | .ok value next => .ok (change value) next
      | .error error next => .error error next := by
  change EStateM.map change action state = _
  unfold EStateM.map
  cases action state <;> rfl

theorem after_map (change : α → β) (action : Action σ α) (state : σ) :
    (change <$> action).after state = action.after state := by
  unfold after
  rw [map_apply]
  cases action state <;> rfl

theorem value?_map (change : α → β) (action : Action σ α) (state : σ) :
    (change <$> action).value? state = (action.value? state).map change := by
  unfold value?
  rw [map_apply]
  cases action state <;> rfl

theorem value?_eq_some {action : Action σ α} {state : σ} {value : α}
    (h : action.value? state = some value) : action state = .ok value (action.after state) := by
  unfold value? at h
  unfold after
  cases hrun : action state with
  | ok value' next =>
    rw [hrun] at h
    injection h with h
    rw [h]
  | error error next =>
    rw [hrun] at h
    simp at h

variable {step : σ → σ → Prop}

/-- The operation gets to its last state by steps of a relation. -/
def Leads (step : σ → σ → Prop) (action : Action σ α) (state : σ) : Prop :=
  ReflTransGen step state (action.after state)

theorem leads_bind {action : Action σ α} {next : α → Action σ β} {state : σ}
    (h : action.Leads step state)
    (hnext : ∀ value middle, action state = .ok value middle → (next value).Leads step middle) :
    (action >>= next).Leads step state := by
  unfold Leads after at h ⊢
  rw [bind_apply]
  cases hrun : action state with
  | ok value middle =>
    rw [hrun] at h
    exact h.trans (hnext value middle hrun)
  | error error middle =>
    rw [hrun] at h
    exact h

theorem leads_pure (value : α) (state : σ) : (pure value : Action σ α).Leads step state :=
  .refl

theorem leads_throw (error : Error) (state : σ) : (throw error : Action σ α).Leads step state :=
  .refl

theorem leads_get_bind {next : σ → Action σ α} {state : σ} (h : (next state).Leads step state) :
    (get >>= next).Leads step state :=
  h

theorem leads_modify {change : σ → σ} {state : σ} (h : step state (change state)) :
    (modify change : Action σ PUnit).Leads step state :=
  .single h

theorem leads_ofExcept (outcome : Except Error α) (state : σ) :
    (Action.ofExcept outcome : Action σ α).Leads step state := by
  cases outcome <;> exact .refl

theorem leads_forM {items : List α} {action : α → Action σ PUnit}
    (h : ∀ item state, (action item).Leads step state) (state : σ) :
    (items.forM action).Leads step state := by
  induction items generalizing state with
  | nil => exact .refl
  | cons item rest ih =>
    rw [List.forM_eq_forM, List.forM_cons]
    exact leads_bind (h item state) fun _ middle _ => ih middle

end Action

namespace FunctionBuilder

/-- The changes that a use of the builder may rule out. -/
inductive Event
  | close
  | label (name : String) (register : UInt8)
  | capture (up : Capture)
  | intern (c : Constant)
  | adopt (child : Prototype)
  | place (i : Instruction)
  | replace (index : Nat) (i : Instruction)

abbrev Usage : Type :=
  FunctionBuilder → Event → Prop

inductive Change (usage : Usage) (f : FunctionBuilder) : FunctionBuilder → Prop
  | take : f.nextFree < maxRegisters →
    Change usage f
      { f with nextFree := f.nextFree + 1, highWater := max f.highWater (f.nextFree + 1) }
  | give (register : UInt8) : f.scopes.isOwned register = false → register.toNat ≤ f.nextFree →
    f.nextFree ≤ register.toNat + 1 → Change usage f { f with nextFree := register.toNat }
  | openScope (name : String) : Change usage f (f.openScope name)
  | closeScope {scope : Scope} {outer : List Scope} : usage f .close →
    f.scopes.stack = scope :: outer →
    Change usage f
      { f with
        scopes := ⟨outer, scope.locals.map (Local.range (.ofNat f.pc)) ++ f.scopes.log⟩
        nextFree := match ((scope.locals.filter (!·.isAlias)).map Local.register).min? with
          | some lowest => lowest.toNat
          | none => f.nextFree }
  | bind (name : String) (register : UInt8) (startPc : UInt32) :
    f.scopes.checkFresh name f.line = .ok () → f.nextFree < maxRegisters →
    register.toNat = f.nextFree → startPc.toNat ≤ f.pc →
    Change usage f (f.withLocal { name, register, startPc })
  | label (name : String) (register : UInt8) : usage f (.label name register) →
    f.scopes.checkFresh name f.line = .ok () →
    Change usage f
      { f with
        scopes := f.scopes.add { name, register, startPc := .ofNat f.pc, isAlias := true } }
  | capture (up : Capture) : usage f (.capture up) → f.upvalue? up.name = none →
    f.upvalues.length < maxUpvalues → Change usage f { f with upvalues := f.upvalues ++ [up] }
  | intern (c : Constant) : usage f (.intern c) →
    Change usage f { f with constants := (f.constants.intern c).2 }
  | adopt (child : Prototype) : usage f (.adopt child) →
    Change usage f { f with children := f.children.push child }
  | place (i : Instruction) (word : UInt32) : usage f (.place i) →
    i.accept f.tables f.listing.getLast? = .ok word → Change usage f (f.placed [i])
  | aim (jump : Instruction) (index target : Nat) (word : UInt32) :
    f.listing[index]? = some jump → jump.op.isJump = true →
    (aimed jump index target).accept f.tables (f.code.before? index) = .ok word →
    Change usage f (f.replaced index (aimed jump index target))
  | replace (index : Nat) (i old : Instruction) (word : UInt32) : usage f (.replace index i) →
    f.listing[index]? = some old → i.accept f.tables (f.code.before? index) = .ok word →
    Change usage f (f.replaced index i)
  | cut (size : Nat) :
    Change usage f
      { f with
        code := { f.code with instructions := f.code.instructions.take size }
        scopes := f.scopes.clamp (.ofNat (min size f.pc)) }
  /-- What no table, register or instruction depends on. -/
  | note (temporaries : List UInt8) (loops : Loops) (sections : List Nat) (line : UInt32)
    (paramCount : UInt8) (isVararg : Bool) :
    Change usage f
      { f with temporaries, loops, paramCount, isVararg, code := { f.code with sections, line } }

variable {usage : Usage} {f : FunctionBuilder}

theorem allocate_leads (f : FunctionBuilder) : allocate.Leads (Change usage) f := by
  unfold Leads after allocate
  by_cases hlt : f.nextFree < maxRegisters
  · rw [if_pos hlt]
    exact .single (.take hlt)
  · rw [if_neg hlt]

theorem pushTemporary_leads (f : FunctionBuilder) : pushTemporary.Leads (Change usage) f := by
  apply leads_bind (allocate_leads f)
  intro register f' _
  apply leads_bind (leads_modify ?_)
  · intro _ f'' _
    exact leads_pure register f''
  · exact .note (register :: f'.temporaries) f'.loops f'.code.sections f'.line f'.paramCount
      f'.isVararg

theorem free_leads (register : UInt8) (f : FunctionBuilder) :
    (free register).Leads (Change usage) f := by
  unfold Leads after free
  by_cases howned : f.scopes.isOwned register = true
  · rw [if_pos howned]
  rw [if_neg howned]
  by_cases habove : f.nextFree < register.toNat
  · rw [if_pos habove]
  rw [if_neg habove]
  by_cases hbelow : register.toNat + 1 < f.nextFree
  · rw [if_pos hbelow]
  rw [if_neg hbelow]
  exact .single (.give register (by simpa using howned) (by omega) (by omega))

theorem popTemporary_leads (f : FunctionBuilder) : popTemporary.Leads (Change usage) f := by
  unfold Leads after popTemporary
  cases htemporaries : f.temporaries with
  | nil => exact .refl
  | cons register older =>
    have hforgotten : Change usage f { f with temporaries := older } :=
      .note older f.loops f.code.sections f.line f.paramCount f.isVararg
    have hfreed : (free register).Leads (Change usage) { f with temporaries := older } :=
      free_leads register _
    unfold Leads after at hfreed
    dsimp only
    cases hrun : free register { f with temporaries := older } with
    | ok _ f' =>
      rw [hrun] at hfreed
      exact .head hforgotten hfreed
    | error _ f' =>
      rw [hrun] at hfreed
      exact .head hforgotten hfreed

theorem closeScope_eq_error (hstack : f.scopes.stack = []) :
    closeScope f = .error (.discipline .noScopeToClose) f := by
  unfold closeScope
  rw [onScopes_apply]
  simp only [Scopes.closeScope, hstack]

theorem closeScope_leads (h : usage f .close) : closeScope.Leads (Change usage) f := by
  unfold Leads after
  cases hstack : f.scopes.stack with
  | nil => rw [closeScope_eq_error hstack]
  | cons scope outer =>
    rw [closeScope_apply hstack]
    exact .single (.closeScope h hstack)

theorem bindName_leads (name : String) {startPc : UInt32} (hstart : startPc.toNat ≤ f.pc) :
    (bindName name startPc).Leads (Change usage) f := by
  unfold Leads after
  rw [bindName_apply]
  cases hfresh : f.scopes.checkFresh name f.line with
  | error error => exact .refl
  | ok _ =>
    cases hrun : allocate f with
    | error error f' =>
      have htaken : allocate.Leads (Change usage) f := allocate_leads f
      unfold Leads after at htaken
      rw [hrun] at htaken
      exact htaken
    | ok register f' =>
      obtain ⟨hlt, hregister, rfl⟩ := (allocate_ensures f).of_ok hrun
      exact .single (.bind name register startPc hfresh hlt hregister hstart)

theorem bindLocal_leads (name : String) (f : FunctionBuilder) :
    (bindLocal name).Leads (Change usage) f := by
  apply bindName_leads name
  rw [UInt32.toNat_ofNat']
  exact Nat.mod_le _ _

theorem bindParameter_leads (name : String) (f : FunctionBuilder) :
    (bindParameter name).Leads (Change usage) f := by
  apply leads_get_bind
  apply leads_bind (bindName_leads name f.parameterStart_le)
  intro register f' _
  apply leads_bind (leads_modify ?_)
  · intro _ f'' _
    exact leads_pure register f''
  · exact .note f'.temporaries f'.loops f'.code.sections f'.line (f'.paramCount + 1) f'.isVararg

theorem nameRegister_leads {name : String} {register : UInt8}
    (h : usage f (.label name register)) : (nameRegister name register).Leads (Change usage) f := by
  unfold Leads after
  rw [nameRegister_apply]
  cases hfresh : f.scopes.checkFresh name f.line with
  | error error => exact .refl
  | ok _ => exact .single (.label name register h hfresh)

theorem appendUpvalue_leads {up : Capture} (h : usage f (.capture up))
    (hnew : f.upvalue? up.name = none) : (appendUpvalue up).Leads (Change usage) f := by
  unfold Leads after appendUpvalue
  by_cases hlt : f.upvalues.length < maxUpvalues
  · rw [if_pos hlt]
    exact .single (.capture up h hnew hlt)
  · rw [if_neg hlt]

theorem capture_leads {up : Capture} (h : usage f (.capture up)) :
    (capture up).Leads (Change usage) f := by
  unfold Leads after capture
  cases hold : f.upvalue? up.name with
  | some index => exact .refl
  | none => exact appendUpvalue_leads h hold

theorem addUpvalue_leads {up : Capture} (h : usage f (.capture up)) :
    (addUpvalue up).Leads (Change usage) f := by
  unfold Leads after addUpvalue
  cases hold : f.upvalue? up.name with
  | some index => exact .refl
  | none => exact appendUpvalue_leads h hold

theorem intern_leads {c : Constant} (h : usage f (.intern c)) :
    (intern c).Leads (Change usage) f := by
  unfold Leads
  rw [after_of_ok (intern_apply c f)]
  exact .single (.intern c h)

theorem addChild_leads {child : Prototype} (h : usage f (.adopt child)) :
    (addChild child).Leads (Change usage) f := by
  unfold Leads after addChild
  by_cases hle : f.children.size ≤ Instruction.maxBx
  · rw [if_pos hle]
    exact .single (.adopt child h)
  · rw [if_neg hle]

theorem emit_leads {i : Instruction} (h : usage f (.place (f.stamped i))) :
    (emit i).Leads (Change usage) f := by
  unfold Leads after emit
  rw [onCode_apply]
  unfold Code.append
  dsimp only
  cases haccept : Instruction.accept { i with line := f.code.line } f.tables
      f.code.instructions.back? with
  | error error => exact .refl
  | ok word =>
    have hplaced : Change usage f (f.placed [f.stamped i]) := by
      refine .place _ word h ?_
      rw [listing, Array.getLast?_toList]
      exact haccept
    have hsame : f.placed [f.stamped i] = { f with code := { f.code with
        instructions := f.code.instructions.push { i with line := f.code.line } } } := by
      simp [placed, stamped, line]
    rw [hsame] at hplaced
    exact .single hplaced

def LoadsConstant (usage : Usage) (register : UInt8) (slot : Nat) (f : FunctionBuilder) : Prop :=
  usage f (.place (f.stamped { op := .loadK, a := register.toNat, b := slot })) ∧
    usage f (.place (f.stamped { op := .loadKX, a := register.toNat })) ∧
    usage (f.placed [f.stamped { op := .loadKX, a := register.toNat }])
      (.place (f.stamped { op := .extraArg, a := slot }))

theorem loadConstant_leads {register : UInt8} {slot : Nat}
    (h : f.LoadsConstant usage register slot) :
    (loadConstant register slot).Leads (Change usage) f := by
  unfold loadConstant
  split
  · exact emit_leads h.1
  split
  · apply leads_bind (emit_leads h.2.1)
    intro index f' hrun
    obtain ⟨-, -, rfl⟩ := (emit_ensures _ f).of_ok hrun
    exact leads_bind (emit_leads h.2.2) fun _ _ _ => leads_pure _ _
  · exact leads_get_bind (leads_throw _ f)

/-- Code is cut off together with what reaches into it; the sections are only noted. -/
theorem cut_leads (size : Nat) (sections : List Nat) (f : FunctionBuilder) :
    ReflTransGen (Change usage) f
      (clampRanges { f with
        code := { f.code with instructions := f.code.instructions.take size, sections } }) := by
  have hsize : (f.code.instructions.take size).size = min size f.pc := by
    simp [pc, Code.size]
  have hcut : Change usage f _ := .cut size
  refine (ReflTransGen.single hcut).tail ?_
  simp only [clampRanges, pc, Code.size, hsize]
  exact .note f.temporaries f.loops sections f.line f.paramCount f.isVararg

theorem dropLast_leads (f : FunctionBuilder) : dropLast.Leads (Change usage) f := by
  apply leads_get_bind
  split
  · exact leads_pure none f
  split
  · exact leads_throw _ f
  have hpop : f.code.instructions.pop = f.code.instructions.take (f.pc - 1) := by
    apply Array.toList_inj.mp
    simp [List.dropLast_eq_take, pc, Code.size]
  have hrun : onCode Code.pop f = .ok f.code.instructions.back?
      { f with code := { f.code with
        instructions := f.code.instructions.take (f.pc - 1)
        sections := f.code.sections.map (min · (f.code.instructions.take (f.pc - 1)).size) } } := by
    rw [onCode_apply, ← hpop]
    rfl
  unfold Leads after
  dsimp only
  rw [bind_apply, hrun]
  exact cut_leads _ _ f

theorem replace_leads {index : Nat} {i : Instruction}
    (h : ∀ line, usage f (.replace index { i with line })) :
    (replace index i).Leads (Change usage) f := by
  unfold Leads after replace
  rw [onCode_apply]
  unfold Code.replace
  cases hold : f.code.get? index with
  | none => exact .refl
  | some old =>
    dsimp only
    cases haccept : Instruction.accept { i with line := old.line } f.tables
        (f.code.before? index) with
    | error error => exact .refl
    | ok word =>
      have hat : f.listing[index]? = some old := by simpa [listing, Code.get?] using hold
      exact .single (.replace index _ old word (h old.line) hat haccept)

theorem keepSection_leads (f : FunctionBuilder) : keepSection.Leads (Change usage) f := by
  unfold Leads after keepSection
  rw [onCode_apply]
  cases hsections : f.code.sections with
  | nil =>
    simp only [Code.keepSection, hsections]
    exact .refl
  | cons start outer =>
    simp only [Code.keepSection, hsections]
    exact .single (.note f.temporaries f.loops outer f.line f.paramCount f.isVararg)

theorem discardSection_leads (f : FunctionBuilder) : discardSection.Leads (Change usage) f := by
  apply leads_get_bind
  cases hsections : f.code.sections with
  | nil =>
    simp only [Code.sectionStart?, hsections]
    exact leads_throw _ f
  | cons start outer =>
    simp only [Code.sectionStart?, hsections]
    have hforgotten : Change usage f { f with loops := f.loops.keepBelow start } :=
      .note f.temporaries (f.loops.keepBelow start) f.code.sections f.line f.paramCount f.isVararg
    apply leads_bind (leads_modify hforgotten)
    rintro _ _ ⟨⟩
    apply leads_get_bind
    unfold Leads after
    rw [bind_apply, onCode_apply]
    simp only [Code.discardSection, hsections]
    cases (f.loops.keepBelow start).parked.find? (start ≤ ·) with
    | some label => exact .refl
    | none => exact cut_leads start outer { f with loops := f.loops.keepBelow start }

def Jumps (usage : Usage) (f : FunctionBuilder) : Prop :=
  ∀ displacement, usage f (.place (f.stamped { op := .jmp, b := displacement }))

theorem jump_leads (h : f.Jumps usage) : jump.Leads (Change usage) f :=
  emit_leads (h 0)

theorem jumpTo_leads (h : f.Jumps usage) (target : Nat) :
    (jumpTo target).Leads (Change usage) f := by
  unfold Leads after
  rw [jumpTo_eq_emit]
  exact emit_leads (h _)

theorem aim_leads (index target : Nat) (f : FunctionBuilder) :
    (aim index target).Leads (Change usage) f := by
  unfold Leads after aim
  rw [onCode_apply]
  unfold Code.aim
  cases hold : f.code.get? index with
  | none => exact .refl
  | some jump =>
    dsimp only
    by_cases hjump : jump.op.isJump = true
    · rw [if_pos hjump]
      unfold Code.replace
      simp only [hold]
      cases haccept : Instruction.accept (aimed jump index target) f.tables
          (f.code.before? index) with
      | error error =>
        simp only [aimed] at haccept
        simp only [haccept]
        exact .refl
      | ok word =>
        have hat : f.listing[index]? = some jump := by simpa [listing, Code.get?] using hold
        have haimed : Change usage f _ := .aim jump index target word hat hjump haccept
        simp only [aimed] at haccept
        simp only [haccept]
        exact .single haimed
    · rw [if_neg hjump]

theorem aimHere_leads (index : Nat) (f : FunctionBuilder) :
    (aimHere index).Leads (Change usage) f := by
  unfold Leads after
  rw [aimHere_eq_aim]
  exact aim_leads index f.pc f

theorem onLoops_leads {α : Type} (action : Action Loops α) (f : FunctionBuilder) :
    (onLoops action).Leads (Change usage) f := by
  unfold Leads after
  rw [onLoops_apply]
  cases action f.loops with
  | ok value loops =>
    exact .single (.note f.temporaries loops f.code.sections f.line f.paramCount f.isVararg)
  | error error loops =>
    exact .single (.note f.temporaries loops f.code.sections f.line f.paramCount f.isVararg)

theorem breakLoop_leads (h : f.Jumps usage) : breakLoop.Leads (Change usage) f := by
  apply leads_get_bind
  split
  · exact leads_bind (jump_leads h) fun index f' _ => onLoops_leads _ f'
  · exact leads_throw _ f

theorem continueLoop_leads (h : f.Jumps usage) : continueLoop.Leads (Change usage) f := by
  apply leads_get_bind
  apply leads_bind (leads_ofExcept _ f)
  intro target f' hrun
  obtain rfl : f = f' := by
    cases htarget : f.loops.continueTarget <;>
      simp_all [Action.ofExcept]
  cases target with
  | some target => exact leads_bind (jumpTo_leads h target) fun _ _ _ => leads_pure _ _
  | none => exact leads_bind (jump_leads h) fun index f' _ => onLoops_leads _ f'

theorem closeLoop_leads (f : FunctionBuilder) : closeLoop.Leads (Change usage) f := by
  apply leads_bind (onLoops_leads _ f)
  intro loop f₁ _
  apply leads_get_bind
  apply leads_bind (leads_forM (fun index g => aim_leads index f₁.pc g) f₁)
  intro _ f₂ _
  cases loop.continueTarget with
  | some target => exact leads_forM (fun index g => aim_leads index target g) f₂
  | none =>
    dsimp only
    split
    · exact leads_throw _ f₂
    · exact leads_pure _ f₂

inductive Operation
  | setVararg (isVararg : Bool)
  | setLine (line : UInt32)
  | allocate
  | pushTemporary
  | popTemporary
  | free (register : UInt8)
  | openScope (name : String)
  | closeScope
  | bindParameter (name : String)
  | bindLocal (name : String)
  | nameRegister (name : String) (register : UInt8)
  | capture (up : Capture)
  | addUpvalue (up : Capture)
  | intern (c : Constant)
  | addChild (child : Prototype)
  | emit (i : Instruction)
  | loadConstant (register : UInt8) (slot : Nat)
  | dropLast
  | replace (index : Nat) (i : Instruction)
  | openSection
  | keepSection
  | discardSection
  | jump
  | jumpTo (target : Nat)
  | aim (index target : Nat)
  | aimHere (index : Nat)
  | openLoop (target : Option Nat)
  | aimContinue (target : Nat)
  | breakLoop
  | continueLoop
  | closeLoop

namespace Operation

def plainly {α : Type} (action : Build α) : Build (Option UInt8) :=
  (fun _ => none) <$> action

def run : Operation → Build (Option UInt8)
  | .setVararg isVararg => plainly (modify fun f => { f with isVararg })
  | .setLine line => plainly (modify (FunctionBuilder.setLine line))
  | .allocate => some <$> FunctionBuilder.allocate
  | .pushTemporary => some <$> FunctionBuilder.pushTemporary
  | .popTemporary => plainly FunctionBuilder.popTemporary
  | .free register => plainly (FunctionBuilder.free register)
  | .openScope name => plainly (modify (FunctionBuilder.openScope name))
  | .closeScope => plainly FunctionBuilder.closeScope
  | .bindParameter name => some <$> FunctionBuilder.bindParameter name
  | .bindLocal name => some <$> FunctionBuilder.bindLocal name
  | .nameRegister name register => plainly (FunctionBuilder.nameRegister name register)
  | .capture up => plainly (FunctionBuilder.capture up)
  | .addUpvalue up => plainly (FunctionBuilder.addUpvalue up)
  | .intern c => plainly (FunctionBuilder.intern c)
  | .addChild child => plainly (FunctionBuilder.addChild child)
  | .emit i => plainly (FunctionBuilder.emit i)
  | .loadConstant register slot => plainly (FunctionBuilder.loadConstant register slot)
  | .dropLast => plainly FunctionBuilder.dropLast
  | .replace index i => plainly (FunctionBuilder.replace index i)
  | .openSection => plainly (modify FunctionBuilder.openSection)
  | .keepSection => plainly FunctionBuilder.keepSection
  | .discardSection => plainly FunctionBuilder.discardSection
  | .jump => plainly FunctionBuilder.jump
  | .jumpTo target => plainly (FunctionBuilder.jumpTo target)
  | .aim index target => plainly (FunctionBuilder.aim index target)
  | .aimHere index => plainly (FunctionBuilder.aimHere index)
  | .openLoop target => plainly (modify (FunctionBuilder.openLoop target))
  | .aimContinue target => plainly (FunctionBuilder.aimContinue target)
  | .breakLoop => plainly FunctionBuilder.breakLoop
  | .continueLoop => plainly FunctionBuilder.continueLoop
  | .closeLoop => plainly FunctionBuilder.closeLoop

def after (operation : Operation) (f : FunctionBuilder) : FunctionBuilder :=
  operation.run.after f

def register? (operation : Operation) (f : FunctionBuilder) : Option UInt8 :=
  (operation.run.value? f).join

def Respects (usage : Usage) (f : FunctionBuilder) : Operation → Prop
  | .closeScope => usage f .close
  | .nameRegister name register => usage f (.label name register)
  | .capture up | .addUpvalue up => usage f (.capture up)
  | .intern c => usage f (.intern c)
  | .addChild child => usage f (.adopt child)
  | .emit i => usage f (.place (f.stamped i))
  | .loadConstant register slot => f.LoadsConstant usage register slot
  | .replace index i => ∀ line, usage f (.replace index { i with line })
  | .jump | .jumpTo _ | .breakLoop | .continueLoop => f.Jumps usage
  | _ => True

theorem respects_anything (operation : Operation) (f : FunctionBuilder) :
    operation.Respects (fun _ _ => True) f := by
  cases operation <;> simp [Respects, LoadsConstant, Jumps]

theorem leads {operation : Operation} (h : operation.Respects usage f) :
    ReflTransGen (Change usage) f (operation.after f) := by
  have hplain : ∀ {α : Type} {action : Build α}, action.Leads (Change usage) f →
      ReflTransGen (Change usage) f ((plainly action).after f) := by
    intro α action haction
    rw [plainly, after_map]
    exact haction
  have hhanding : ∀ {action : Build UInt8}, action.Leads (Change usage) f →
      ReflTransGen (Change usage) f ((some <$> action).after f) := by
    intro action haction
    rw [after_map]
    exact haction
  have hnote : ∀ (loops : Loops) (sections : List Nat) (line : UInt32) (isVararg : Bool),
      Change usage f { f with loops, isVararg, code := { f.code with sections, line } } :=
    fun loops sections line isVararg =>
      .note f.temporaries loops sections line f.paramCount isVararg
  cases operation with
  | setVararg isVararg => exact .single (hnote f.loops f.code.sections f.line isVararg)
  | setLine line => exact .single (hnote f.loops f.code.sections line f.isVararg)
  | allocate => exact hhanding (allocate_leads f)
  | pushTemporary => exact hhanding (pushTemporary_leads f)
  | popTemporary => exact hplain (popTemporary_leads f)
  | free register => exact hplain (free_leads register f)
  | openScope name => exact .single (.openScope name)
  | closeScope => exact hplain (closeScope_leads h)
  | bindParameter name => exact hhanding (bindParameter_leads name f)
  | bindLocal name => exact hhanding (bindLocal_leads name f)
  | nameRegister name register => exact hplain (nameRegister_leads h)
  | capture up => exact hplain (capture_leads h)
  | addUpvalue up => exact hplain (addUpvalue_leads h)
  | intern c => exact hplain (intern_leads h)
  | addChild child => exact hplain (addChild_leads h)
  | emit i => exact hplain (emit_leads h)
  | loadConstant register slot => exact hplain (loadConstant_leads h)
  | dropLast => exact hplain (dropLast_leads f)
  | replace index i => exact hplain (replace_leads h)
  | openSection => exact .single (hnote f.loops (f.pc :: f.code.sections) f.line f.isVararg)
  | keepSection => exact hplain (keepSection_leads f)
  | discardSection => exact hplain (discardSection_leads f)
  | jump => exact hplain (jump_leads h)
  | jumpTo target => exact hplain (jumpTo_leads h target)
  | aim index target => exact hplain (aim_leads index target f)
  | aimHere index => exact hplain (aimHere_leads index f)
  | openLoop target =>
    exact .single (hnote (f.loops.openLoop target) f.code.sections f.line f.isVararg)
  | aimContinue target => exact hplain (onLoops_leads _ f)
  | breakLoop => exact hplain (breakLoop_leads h)
  | continueLoop => exact hplain (continueLoop_leads h)
  | closeLoop => exact hplain (closeLoop_leads f)

end Operation

/-- A run of operations, each permitted in the state that it finds. -/
def Runs (permits : FunctionBuilder → Operation → Prop) :
    FunctionBuilder → FunctionBuilder → Prop :=
  ReflTransGen fun f f' => ∃ operation, permits f operation ∧ f' = operation.after f

/-- A function that nothing was done to: nested, on its own, or the outermost one. -/
inductive IsInitial : FunctionBuilder → Prop
  | start (name : String) (outerLevel : Option Nat) (firstLine : UInt32) :
    IsInitial (start name outerLevel firstLine)
  | root (name : String) : IsInitial (root name)

def Reachable (permits : FunctionBuilder → Operation → Prop) (f : FunctionBuilder) : Prop :=
  ∃ initial, IsInitial initial ∧ Runs permits initial f

theorem runs_foldl {permits : FunctionBuilder → Operation → Prop} (operations : List Operation)
    (h : ∀ operation ∈ operations, ∀ g, permits g operation) (f : FunctionBuilder) :
    Runs permits f (operations.foldl (fun f operation => operation.after f) f) := by
  induction operations generalizing f with
  | nil => exact .refl
  | cons operation rest ih =>
    refine .head ⟨operation, h operation (by simp) f, rfl⟩ (ih ?_ _)
    intro next hnext
    exact h next (by simp [hnext])

/-- What holds at first and outlives every change that a run makes holds in the end. -/
theorem Runs.induction {permits : FunctionBuilder → Operation → Prop}
    {holds : FunctionBuilder → Prop} {f f' : FunctionBuilder} (hrun : Runs permits f f')
    (husage : ∀ g operation, permits g operation → operation.Respects usage g)
    (hstep : ∀ g g', Change usage g g' → holds g → holds g') (h : holds f) : holds f' := by
  induction hrun with
  | refl => exact h
  | tail _ hoperation ih =>
    obtain ⟨operation, hpermits, rfl⟩ := hoperation
    have hchanges := Operation.leads (husage _ operation hpermits)
    generalize operation.after _ = last at hchanges ⊢
    induction hchanges with
    | refl => exact ih
    | tail _ hchange ih' => exact hstep _ _ hchange ih'

end FunctionBuilder

end RegisterCode
