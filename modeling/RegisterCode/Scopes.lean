import RegisterCode.Action
import RegisterCode.Prototype

/-! Lexical scopes of one function. Closing a scope moves its locals into a log,
in front of those of scopes closed before, each scope in declaration order. -/
namespace RegisterCode

structure Local where
  name : String
  register : UInt8
  startPc : UInt32
  /-- Set where the range ends before the scope does. -/
  endPc : Option UInt32 := none
  /-- A second name for a register that belongs to something else. -/
  isAlias : Bool := false
deriving DecidableEq

namespace Local

def range (pc : UInt32) (l : Local) : LocalRange :=
  ⟨l.name, l.startPc, l.endPc.getD pc⟩

def clamp (limit : UInt32) (l : Local) : Local :=
  { l with startPc := min l.startPc limit, endPc := l.endPc.map (min · limit) }

end Local

def LocalRange.clamp (limit : UInt32) (range : LocalRange) : LocalRange :=
  { range with startPc := min range.startPc limit, endPc := min range.endPc limit }

structure Scope where
  name : String
  /-- In declaration order. -/
  locals : List Local := []
deriving DecidableEq

/-- The local that was declared last under a name. -/
def Scope.find? (scope : Scope) (name : String) : Option Local :=
  scope.locals.reverse.find? (·.name == name)

structure Scopes where
  /-- Innermost first. -/
  stack : List Scope := []
  log : List LocalRange := []

namespace Scopes

def depth (scopes : Scopes) : Nat :=
  scopes.stack.length

def openScope (name : String) (scopes : Scopes) : Scopes :=
  { scopes with stack := { name } :: scopes.stack }

/-- Close the innermost scope at `pc`. The lowest register that its own locals
hold is where allocation goes on. -/
def closeScope (pc : UInt32) : Action Scopes (Option UInt8) := fun scopes =>
  match scopes.stack with
  | [] => .error (.discipline .noScopeToClose) scopes
  | scope :: outer =>
    let owned := scope.locals.filter (!·.isAlias)
    .ok (owned.map Local.register).min?
      { stack := outer, log := scope.locals.map (Local.range pc) ++ scopes.log }

def innermostName? (scopes : Scopes) : Option String :=
  scopes.stack.head?.map Scope.name

def checkFresh (scopes : Scopes) (name : String) (line : UInt32) : Except Error Unit :=
  match scopes.stack with
  | [] => .error (.discipline .noOpenScope)
  | scope :: _ =>
    if scope.locals.any (·.name == name) then .error (.redeclared .variable name line)
    else .ok ()

def declare (l : Local) (line : UInt32) : Action Scopes Unit := fun scopes =>
  match scopes.checkFresh l.name line with
  | .error error => .error error scopes
  | .ok _ =>
    match scopes.stack with
    | [] => .error (.discipline .noScopeForLocal) scopes
    | scope :: outer =>
      .ok () { scopes with stack := { scope with locals := scope.locals ++ [l] } :: outer }

def locals (scopes : Scopes) : List Local :=
  scopes.stack.flatMap Scope.locals

def find? (scopes : Scopes) (name : String) : Option Local :=
  scopes.stack.findSome? (·.find? name)

def register? (scopes : Scopes) (name : String) : Option UInt8 :=
  (scopes.find? name).map Local.register

def find (scopes : Scopes) (name : String) : Except Error Local :=
  match scopes.find? name with
  | some l => .ok l
  | none => .error (.unresolved .variable name)

def isNamed (scopes : Scopes) (register : UInt8) : Bool :=
  scopes.locals.any (·.register == register)

/-- Whether a register belongs to a local, so that only its scope gives it up. -/
def isOwned (scopes : Scopes) (register : UInt8) : Bool :=
  scopes.locals.any fun l => l.register == register && !l.isAlias

/-- Pull all recorded positions back after the code was cut to `limit`. -/
def clamp (limit : UInt32) (scopes : Scopes) : Scopes where
  stack := scopes.stack.map fun scope =>
    { scope with locals := scope.locals.map (Local.clamp limit) }
  log := scopes.log.map (LocalRange.clamp limit)

end Scopes

end RegisterCode
