import RegisterCode.Code
import RegisterCode.Constant.Pool
import RegisterCode.Loops
import RegisterCode.Scopes

/-! A function while it is built: its registers, scopes and tables, and its code.
The parts keep their own rules; this module ties them together. -/
namespace RegisterCode

structure FunctionBuilder where
  name : String
  /-- The level of the function around this one. -/
  outerLevel : Option Nat := none
  firstLine : UInt32 := 0
  paramCount : UInt8 := 0
  isVararg : Bool := false
  /-- The next free register; all below it are taken. -/
  nextFree : Nat := 0
  /-- The most registers that were ever taken at once. -/
  highWater : Nat := 0
  /-- Registers that were pushed and not popped, newest first. -/
  temporaries : List UInt8 := []
  scopes : Scopes := {}
  upvalues : List Capture := []
  constants : Pool := .empty
  code : Code := {}
  loops : Loops := {}
  children : Array Prototype := #[]

abbrev Build : Type → Type :=
  Action FunctionBuilder

namespace FunctionBuilder

/-- A function opens with one scope, which is named after it. -/
def start (name : String) (outerLevel : Option Nat) (firstLine : UInt32) : FunctionBuilder where
  name
  outerLevel
  firstLine
  scopes := Scopes.openScope name {}

def environmentName : String := "_ENV"

/-- The outermost function takes any arguments and captures only its environment. -/
def root (name : String) : FunctionBuilder :=
  { start name none 0 with isVararg := true, upvalues := [⟨environmentName, true, 0⟩] }

def tables (f : FunctionBuilder) : Tables where
  constants := f.constants.size
  upvalues := f.upvalues.length
  prototypes := f.children.size
  nested := f.outerLevel.isSome

def pc (f : FunctionBuilder) : Nat :=
  f.code.size

def line (f : FunctionBuilder) : UInt32 :=
  f.code.line

def setLine (line : UInt32) (f : FunctionBuilder) : FunctionBuilder :=
  { f with code := { f.code with line } }

@[inline] def onCode {α : Type} (action : Action Code α) : Build α :=
  action.focus FunctionBuilder.code (fun code f => { f with code }) {}

theorem onCode_apply {α : Type} (action : Action Code α) (f : FunctionBuilder) :
    onCode action f =
      match action f.code with
      | .ok value code => .ok value { f with code }
      | .error error code => .error error { f with code } := by
  unfold onCode Action.focus
  dsimp only
  cases action f.code <;> rfl

@[inline] def onScopes {α : Type} (action : Action Scopes α) : Build α :=
  action.focus FunctionBuilder.scopes (fun scopes f => { f with scopes }) {}

theorem onScopes_apply {α : Type} (action : Action Scopes α) (f : FunctionBuilder) :
    onScopes action f =
      match action f.scopes with
      | .ok value scopes => .ok value { f with scopes }
      | .error error scopes => .error error { f with scopes } := by
  unfold onScopes Action.focus
  dsimp only
  cases action f.scopes <;> rfl

@[inline] def onLoops {α : Type} (action : Action Loops α) : Build α :=
  action.focus FunctionBuilder.loops (fun loops f => { f with loops }) {}

theorem onLoops_apply {α : Type} (action : Action Loops α) (f : FunctionBuilder) :
    onLoops action f =
      match action f.loops with
      | .ok value loops => .ok value { f with loops }
      | .error error loops => .error error { f with loops } := by
  unfold onLoops Action.focus
  dsimp only
  cases action f.loops <;> rfl

@[inline] def onConstants {α : Type} (action : Action Pool α) : Build α :=
  action.focus FunctionBuilder.constants (fun constants f => { f with constants }) .empty

theorem onConstants_apply {α : Type} (action : Action Pool α) (f : FunctionBuilder) :
    onConstants action f =
      match action f.constants with
      | .ok value constants => .ok value { f with constants }
      | .error error constants => .error error { f with constants } := by
  unfold onConstants Action.focus
  dsimp only
  cases action f.constants <;> rfl

end FunctionBuilder

end RegisterCode
