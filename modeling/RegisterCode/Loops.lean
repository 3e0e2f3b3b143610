import RegisterCode.Action

/-! Open loops and the jumps that leave their bodies. A jump whose target is not
known yet is parked with its loop, by its index in the code. -/
namespace RegisterCode

structure Loop where
  /-- Where `continue` goes, once that is known. -/
  continueTarget : Option Nat := none
  breaks : List Nat := []
  continues : List Nat := []
deriving DecidableEq

namespace Loop

def parked (loop : Loop) : List Nat :=
  loop.breaks ++ loop.continues

def keepBelow (start : Nat) (loop : Loop) : Loop :=
  { loop with
    breaks := loop.breaks.filter (· < start)
    continues := loop.continues.filter (· < start) }

@[simp] theorem parked_keepBelow (start : Nat) (loop : Loop) :
    (loop.keepBelow start).parked = loop.parked.filter (· < start) := by
  simp [parked, keepBelow]

end Loop

structure Loops where
  /-- Innermost first. -/
  stack : List Loop := []

namespace Loops

def depth (loops : Loops) : Nat :=
  loops.stack.length

def anyOpen (loops : Loops) : Bool :=
  !loops.stack.isEmpty

def openLoop (target : Option Nat) (loops : Loops) : Loops :=
  ⟨{ continueTarget := target } :: loops.stack⟩

def closeLoop : Action Loops Loop := fun loops =>
  match loops.stack with
  | [] => .error (.discipline .noLoopToClose) loops
  | loop :: outer => .ok loop ⟨outer⟩

def onInnermost (statement : String) (change : Loop → Loop) : Action Loops Unit :=
  fun loops =>
  match loops.stack with
  | [] => .error (.unresolved .loopTarget statement) loops
  | loop :: outer => .ok () ⟨change loop :: outer⟩

def parkBreak (index : Nat) : Action Loops Unit :=
  onInnermost "break" fun loop => { loop with breaks := loop.breaks ++ [index] }

def parkContinue (index : Nat) : Action Loops Unit :=
  onInnermost "continue" fun loop => { loop with continues := loop.continues ++ [index] }

def aimContinue (target : Nat) : Action Loops Unit :=
  onInnermost "continue" fun loop => { loop with continueTarget := some target }

def continueTarget (loops : Loops) : Except Error (Option Nat) :=
  match loops.stack with
  | [] => .error (.unresolved .loopTarget "continue")
  | loop :: _ => .ok loop.continueTarget

/-- All parked jumps, those of outer loops first. -/
def parked (loops : Loops) : List Nat :=
  loops.stack.reverse.flatMap Loop.parked

def isParked (loops : Loops) (index : Nat) : Bool :=
  loops.parked.contains index

def keepBelow (start : Nat) (loops : Loops) : Loops :=
  ⟨loops.stack.map (Loop.keepBelow start)⟩

@[simp] theorem parked_keepBelow (start : Nat) (loops : Loops) :
    (loops.keepBelow start).parked = loops.parked.filter (· < start) := by
  simp [parked, keepBelow, List.filter_flatMap, ← List.map_reverse, List.flatMap_map]

end Loops

end RegisterCode
