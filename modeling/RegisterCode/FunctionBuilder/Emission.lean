import RegisterCode.FunctionBuilder

/-! Placing instructions. Cutting code off also cuts off the debug ranges that
reach into it and the parked jumps that stand in it. -/
namespace RegisterCode.FunctionBuilder

def emit (i : Instruction) : Build Nat := fun f =>
  onCode (Code.append f.tables i) f

/-- Load a constant. A slot too large for one word follows in a word of its own,
which remains missing if the slot is not in the table. -/
def loadConstant (register : UInt8) (slot : Nat) : Build Nat := do
  if slot ≤ Instruction.maxBx then
    emit { op := .loadK, a := register.toNat, b := slot }
  else if slot ≤ Instruction.maxAx then
    let index ← emit { op := .loadKX, a := register.toNat }
    let _ ← emit { op := .extraArg, a := slot }
    return index
  else
    throw (.outOfRange ⟨"LOADKX", .constant, slot, 0, Instruction.maxAx, (← get).line⟩)

def clampRanges (f : FunctionBuilder) : FunctionBuilder :=
  { f with scopes := f.scopes.clamp (.ofNat f.pc) }

/-- Take the last instruction off, unless it is a jump that waits for its target:
another jump would get its index. -/
def dropLast : Build (Option Instruction) := do
  let f ← get
  if f.pc = 0 then return none
  if f.loops.isParked (f.pc - 1) then
    throw (.discipline (.jumpAwaitsTarget (f.pc - 1)))
  let last ← onCode Code.pop
  modify clampRanges
  return last

def replace (index : Nat) (i : Instruction) : Build Unit := fun f =>
  onCode (Code.replace f.tables index i) f

def openSection (f : FunctionBuilder) : FunctionBuilder :=
  { f with code := f.code.openSection }

def keepSection : Build Unit :=
  onCode Code.keepSection

/-- Discard the innermost section. The jumps parked in it go with it. -/
def discardSection : Build Nat := do
  match (← get).code.sectionStart? with
  | none => throw (.discipline .noSectionToDiscard)
  | some start =>
    modify fun f => { f with loops := f.loops.keepBelow start }
    let removed ← onCode (Code.discardSection (← get).loops.parked)
    modify clampRanges
    return removed

def jump : Build Nat := fun f =>
  onCode (Code.jump f.tables) f

def jumpTo (target : Nat) : Build Nat := fun f =>
  onCode (Code.jumpTo f.tables target) f

def aim (index target : Nat) : Build Unit := fun f =>
  onCode (Code.aim f.tables index target) f

def aimHere (index : Nat) : Build Unit := fun f =>
  onCode (Code.aimHere f.tables index) f

def openLoop (target : Option Nat) (f : FunctionBuilder) : FunctionBuilder :=
  { f with loops := f.loops.openLoop target }

def aimContinue (target : Nat) : Build Unit :=
  onLoops (Loops.aimContinue target)

def breakLoop : Build Unit := do
  if (← get).loops.anyOpen then
    let index ← jump
    onLoops (Loops.parkBreak index)
  else throw (.unresolved .loopTarget "break")

def continueLoop : Build Unit := do
  match ← Action.ofExcept (← get).loops.continueTarget with
  | some target => let _ ← jumpTo target
  | none =>
    let index ← jump
    onLoops (Loops.parkContinue index)

/-- Leave the innermost loop and aim its parked jumps: breaks behind the loop,
continues at its continue target. -/
def closeLoop : Build Unit := do
  let loop ← onLoops Loops.closeLoop
  let here := (← get).pc
  loop.breaks.forM (aim · here)
  match loop.continueTarget with
  | some target => loop.continues.forM (aim · target)
  | none =>
    if !loop.continues.isEmpty then
      throw (.discipline (.continuesUnplaced loop.continues.length))

end RegisterCode.FunctionBuilder
