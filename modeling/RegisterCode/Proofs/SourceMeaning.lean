import Mathlib.Logic.Function.Basic
import RegisterCode.Constant
import RegisterCode.Tree

/-! What programs without functions, calls and globals mean. Expressions are evaluated
from left to right, and a logical operator leaves its right side alone if the left one
decides. A construct outside of this part of the language has no meaning here. -/
namespace RegisterCode

/-- What values are and what operators do with them. Every operator may raise. -/
structure Interpretation (Value Fault : Type) where
  literal : Constant → Value
  truthy : Value → Bool
  unary : UnaryOp → Value → Except Fault Value
  /-- The operators that are not comparisons. -/
  compute : BinaryOp → Value → Value → Except Fault Value
  eq : Value → Value → Except Fault Bool
  lt : Value → Value → Except Fault Bool
  le : Value → Value → Except Fault Bool
  truthy_nil : truthy (literal .nil) = false
  truthy_false : truthy (literal (.boolean false)) = false

inductive Ending (Value Fault : Type)
  | returned (values : List Value)
  | raised (fault : Fault)

/-- The variables in sight, those of the innermost block first. -/
abbrev Environment (Value : Type) : Type :=
  List (String → Option Value)

inductive Outcome (Value Fault : Type)
  | next (env : Environment Value)
  | broke (env : Environment Value)
  | continued (env : Environment Value)
  | ended (ending : Ending Value Fault)

variable {Value Fault : Type}

/-- Inequality is the opposite of equality; greater is less with the sides exchanged. -/
def Interpretation.binary (I : Interpretation Value Fault) :
    BinaryOp → Value → Value → Except Fault Value
  | .eq, x, y => do return I.literal (.boolean (← I.eq x y))
  | .ne, x, y => do return I.literal (.boolean (!(← I.eq x y)))
  | .lt, x, y => do return I.literal (.boolean (← I.lt x y))
  | .le, x, y => do return I.literal (.boolean (← I.le x y))
  | .gt, x, y => do return I.literal (.boolean (← I.lt y x))
  | .ge, x, y => do return I.literal (.boolean (← I.le y x))
  | op, x, y => I.compute op x y

namespace Environment

def empty : Environment Value := [fun _ => none]

def enter (env : Environment Value) : Environment Value :=
  (fun _ => none) :: env

def lookup (env : Environment Value) (name : String) : Option Value :=
  env.findSome? fun block => block name

def declare (name : String) (v : Value) : Environment Value → Environment Value
  | [] => []
  | block :: outer => Function.update block name (some v) :: outer

def assign (name : String) (v : Value) : Environment Value → Environment Value
  | [] => []
  | block :: outer =>
    if (block name).isSome then Function.update block name (some v) :: outer
    else block :: assign name v outer

end Environment

namespace Outcome

def leave : Outcome Value Fault → Outcome Value Fault
  | .next env => .next env.tail
  | .broke env => .broke env.tail
  | .continued env => .continued env.tail
  | .ended ending => .ended ending

def isNext : Outcome Value Fault → Bool
  | .next _ => true
  | _ => false

def after (result : Except Fault Value) (next : Value → Outcome Value Fault) :
    Outcome Value Fault :=
  match result with
  | .ok v => next v
  | .error fault => .ended (.raised fault)

def again? : Outcome Value Fault → Option (Environment Value)
  | .next env | .continued env => some env.tail
  | _ => none

end Outcome

def ExprForm.literal? : ExprForm → Option Constant
  | .nil => some .nil
  | .boolean value => some (.boolean value)
  | .integer value => some (.integer value)
  | .number value => some (.number value)
  | .string value => some (.string value)
  | _ => none

def LogicalOp.isDecided (op : LogicalOp) (truth : Bool) : Bool :=
  match op with
  | .and => !truth
  | .or => truth

inductive Evaluates (I : Interpretation Value Fault) (env : Environment Value) :
    Expr → Except Fault Value → Prop
  | literal : form.literal? = some c →
    Evaluates I env ⟨form, span, type, symbol⟩ (.ok (I.literal c))
  | name : env.lookup name = some v →
    Evaluates I env ⟨.name name, span, type, symbol⟩ (.ok v)
  | unary : Evaluates I env operand result →
    Evaluates I env ⟨.unary op operand, span, type, symbol⟩ (result >>= I.unary op)
  | binary : Evaluates I env left (.ok x) → Evaluates I env right result →
    Evaluates I env ⟨.binary op left right, span, type, symbol⟩ (result >>= I.binary op x)
  | binaryRaised : Evaluates I env left (.error fault) →
    Evaluates I env ⟨.binary op left right, span, type, symbol⟩ (.error fault)
  | decided : Evaluates I env left (.ok x) → op.isDecided (I.truthy x) = true →
    Evaluates I env ⟨.logical op left right, span, type, symbol⟩ (.ok x)
  | undecided : Evaluates I env left (.ok x) → op.isDecided (I.truthy x) = false →
    Evaluates I env right result →
    Evaluates I env ⟨.logical op left right, span, type, symbol⟩ result
  | logicalRaised : Evaluates I env left (.error fault) →
    Evaluates I env ⟨.logical op left right, span, type, symbol⟩ (.error fault)

/-- Statements run to an outcome, one after the other. The rules from `declareNil` on are
for a statement alone. -/
inductive Runs (I : Interpretation Value Fault) :
    Environment Value → List Stmt → Outcome Value Fault → Prop
  | done : Runs I env [] (.next env)
  | step : Runs I env [stmt] (.next env') → Runs I env' rest outcome →
    Runs I env (stmt :: rest) outcome
  | stop : Runs I env [stmt] outcome → outcome.isNext = false → Runs I env (stmt :: rest) outcome
  | declareNil :
    Runs I env [⟨.declare name none, span⟩] (.next (env.declare name (I.literal .nil)))
  | declare : Evaluates I env init result →
    Runs I env [⟨.declare name (some init), span⟩]
      (.after result fun v => .next (env.declare name v))
  | expr : Evaluates I env value result →
    Runs I env [⟨.expr value, span⟩] (.after result fun _ => .next env)
  | assign : (env.lookup name).isSome → Evaluates I env value result →
    Runs I env [⟨.expr ⟨.assign name value, place, type, symbol⟩, span⟩]
      (.after result fun v => .next (env.assign name v))
  | returnNothing : Runs I env [⟨.ret none, span⟩] (.ended (.returned []))
  | returnValue : Evaluates I env value result →
    Runs I env [⟨.ret (some value), span⟩] (.after result fun v => .ended (.returned [v]))
  | breakLoop : Runs I env [⟨.breakLoop, span⟩] (.broke env)
  | continueLoop : Runs I env [⟨.continueLoop, span⟩] (.continued env)
  | block : Runs I env.enter body outcome → Runs I env [⟨.block body, span⟩] outcome.leave
  | branch : Evaluates I env condition (.ok v) →
    Runs I env.enter (if I.truthy v then body else otherwise.getD []) outcome →
    Runs I env [⟨.branch condition body otherwise, span⟩] outcome.leave
  | branchRaised : Evaluates I env condition (.error fault) →
    Runs I env [⟨.branch condition body otherwise, span⟩] (.ended (.raised fault))
  | loopDone : Evaluates I env condition (.ok v) → I.truthy v = false →
    Runs I env [⟨.whileLoop condition body, span⟩] (.next env)
  | loopAgain : Evaluates I env condition (.ok v) → I.truthy v = true →
    Runs I env.enter body outcome → outcome.again? = some env' →
    Runs I env' [⟨.whileLoop condition body, span⟩] final →
    Runs I env [⟨.whileLoop condition body, span⟩] final
  | loopBroke : Evaluates I env condition (.ok v) → I.truthy v = true →
    Runs I env.enter body (.broke env') →
    Runs I env [⟨.whileLoop condition body, span⟩] (.next env'.tail)
  | loopEnded : Evaluates I env condition (.ok v) → I.truthy v = true →
    Runs I env.enter body (.ended ending) →
    Runs I env [⟨.whileLoop condition body, span⟩] (.ended ending)
  | loopRaised : Evaluates I env condition (.error fault) →
    Runs I env [⟨.whileLoop condition body, span⟩] (.ended (.raised fault))

/-- A program ends with its body, or returns nothing behind it. -/
inductive Program.Ends (I : Interpretation Value Fault) (program : Program) :
    Ending Value Fault → Prop
  | inside : Runs I .empty program.body (.ended ending) → Ends I program ending
  | behind : Runs I .empty program.body (.next env) → Ends I program (.returned [])

end RegisterCode
