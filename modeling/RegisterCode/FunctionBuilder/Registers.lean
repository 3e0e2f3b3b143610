import RegisterCode.FunctionBuilder

/-! Registers and the locals that own them. Registers are taken in ascending order
and given back in descending order; a local keeps its register until its scope
closes. -/
namespace RegisterCode.FunctionBuilder

def maxRegisters : Nat := 255

def allocate : Build UInt8 := fun f =>
  if f.nextFree < maxRegisters then
    .ok (.ofNat f.nextFree)
      { f with nextFree := f.nextFree + 1, highWater := max f.highWater (f.nextFree + 1) }
  else
    .error (.outOfRange
      ⟨"register allocator", .register, f.nextFree, 0, maxRegisters - 1, f.line⟩) f

def pushTemporary : Build UInt8 := do
  let register ← allocate
  modify fun f => { f with temporaries := register :: f.temporaries }
  return register

/-- Give back the register taken last. One that belongs to a local stays with it. -/
def free (register : UInt8) : Build Unit := fun f =>
  if f.scopes.isOwned register then .ok () f
  else if f.nextFree < register.toNat then
    .error (.discipline (.neverAllocated register.toNat f.nextFree)) f
  else if register.toNat + 1 < f.nextFree then
    .error (.discipline (.freedOutOfOrder register.toNat f.nextFree)) f
  else .ok () { f with nextFree := register.toNat }

/-- Give back the newest temporary. It is forgotten even if its register cannot be
given back. -/
def popTemporary : Build UInt8 := fun f =>
  match f.temporaries with
  | [] => .error (.discipline .noTemporary) f
  | register :: older =>
    match free register { f with temporaries := older } with
    | .ok _ f => .ok register f
    | .error error f => .error error f

def openScope (name : String) (f : FunctionBuilder) : FunctionBuilder :=
  { f with scopes := f.scopes.openScope name }

def closeScope : Build Unit := fun f =>
  match onScopes (Scopes.closeScope (.ofNat f.pc)) f with
  | .ok (some lowest) f => .ok () { f with nextFree := lowest.toNat }
  | .ok none f => .ok () f
  | .error error f => .error error f

/-- Bind a name of the innermost scope to a register of its own. The name is checked
before the register is taken. -/
def bindName (name : String) (startPc : UInt32) : Build UInt8 := do
  let f ← get
  Action.ofExcept (f.scopes.checkFresh name f.line)
  let register ← allocate
  onScopes (Scopes.declare { name, register, startPc } f.line)
  return register

def bindLocal (name : String) : Build UInt8 := fun f =>
  bindName name (.ofNat f.pc) f

/-- Parameters count as alive from the instruction before the first one on. -/
def parameterStart (f : FunctionBuilder) : UInt32 :=
  .ofNat ((UInt32.ofNat f.pc).toNat - 1)

def bindParameter (name : String) : Build UInt8 := do
  let register ← bindName name (← get).parameterStart
  modify fun f => { f with paramCount := f.paramCount + 1 }
  return register

def nameRegister (name : String) (register : UInt8) : Build Unit := fun f =>
  let l : Local := { name, register, startPc := .ofNat f.pc, isAlias := true }
  onScopes (Scopes.declare l f.line) f

end RegisterCode.FunctionBuilder
