import RegisterCode.Action
import RegisterCode.Instruction.Tables

/-! The code of a function while it grows. An instruction enters only if it is
accepted after the one before it. Jumps may be aimed after they were placed, and
a section marks instructions that may still be discarded together. -/
namespace RegisterCode

structure Code where
  instructions : Array Instruction := #[]
  /-- The line given to the instructions that follow. -/
  line : UInt32 := 0
  /-- Where the open sections start, innermost first. -/
  sections : List Nat := []

namespace Code

def size (code : Code) : Nat :=
  code.instructions.size

def get? (code : Code) (index : Nat) : Option Instruction :=
  code.instructions[index]?

def before? (code : Code) : Nat → Option Instruction
  | 0 => none
  | index + 1 => code.get? index

def append (tables : Tables) (i : Instruction) : Action Code Nat := fun code =>
  let i := { i with line := code.line }
  match i.accept tables code.instructions.back? with
  | .error error => .error error code
  | .ok _ => .ok code.size { code with instructions := code.instructions.push i }

/-- Take the last instruction off. A section that would start behind the new end
starts at it. -/
def pop : Action Code (Option Instruction) := fun code =>
  let last := code.instructions.back?
  let rest := code.instructions.pop
  .ok last { code with instructions := rest, sections := code.sections.map (min · rest.size) }

def replace (tables : Tables) (index : Nat) (i : Instruction) : Action Code Unit := fun code =>
  match code.get? index with
  | none => .error (.discipline (.noInstruction index code.size)) code
  | some old =>
    let i := { i with line := old.line }
    match i.accept tables (code.before? index) with
    | .error error => .error error code
    | .ok _ => .ok () { code with instructions := code.instructions.setIfInBounds index i }

/-- The displacement from the instruction after a jump to its target, as a signed
word of 32 bits. -/
def displacement (index target : Nat) : Int :=
  ((target : Int) - (index + 1)).bmod 4294967296

def jump (tables : Tables) : Action Code Nat :=
  append tables { op := .jmp }

def jumpTo (tables : Tables) (target : Nat) : Action Code Nat := fun code =>
  append tables { op := .jmp, b := displacement code.size target } code

def aim (tables : Tables) (index target : Nat) : Action Code Unit := fun code =>
  match code.get? index with
  | none => .error (.discipline (.jumpDiscarded index)) code
  | some jump =>
    if jump.op.isJump then
      replace tables index { op := jump.op, a := jump.a, b := displacement index target } code
    else .error (.discipline (.notJump index jump.op)) code

def aimHere (tables : Tables) (index : Nat) : Action Code Unit := fun code =>
  aim tables index code.size code

def openSection (code : Code) : Code :=
  { code with sections := code.size :: code.sections }

def sectionStart? (code : Code) : Option Nat :=
  code.sections.head?

/-- Without an open section, all code counts. -/
def sectionNonempty (code : Code) : Bool :=
  code.sectionStart?.getD 0 < code.size

def keepSection : Action Code Unit := fun code =>
  match code.sections with
  | [] => .error (.discipline .noSectionToClose) code
  | _ :: outer => .ok () { code with sections := outer }

/-- Discard the innermost section with its instructions and count them. None of
the jumps that still wait for a target may be among them. -/
def discardSection (pending : List Nat) : Action Code Nat := fun code =>
  match code.sections with
  | [] => .error (.discipline .noSectionToDiscard) code
  | start :: outer =>
    match pending.find? (start ≤ ·) with
    | some label => .error (.discipline (.jumpPending start label)) code
    | none =>
      .ok (code.size - start)
        { code with instructions := code.instructions.take start, sections := outer }

def words (code : Code) : Except Error (List UInt32) :=
  code.instructions.toList.mapM Instruction.encode

def lines (code : Code) : List UInt32 :=
  code.instructions.toList.map Instruction.line

end Code

end RegisterCode
