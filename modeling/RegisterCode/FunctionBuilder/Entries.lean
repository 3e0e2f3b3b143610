import RegisterCode.FunctionBuilder

/-! Entries of a function's tables: upvalues, constants and nested functions. Each
entry is addressed by its position and never moves. -/
namespace RegisterCode.FunctionBuilder

def maxUpvalues : Nat := 255

def upvalue? (f : FunctionBuilder) (name : String) : Option UInt8 :=
  (f.upvalues.findIdx? (·.name == name)).map .ofNat

def upvalue (f : FunctionBuilder) (name : String) : Except Error UInt8 :=
  match f.upvalue? name with
  | some index => .ok index
  | none => .error (.unresolved .upvalue name)

def appendUpvalue (up : Capture) : Build UInt8 := fun f =>
  let index := f.upvalues.length
  if index < maxUpvalues then .ok (.ofNat index) { f with upvalues := f.upvalues ++ [up] }
  else .error (.outOfRange ⟨"upvalue list", .upvalue, index, 0, maxUpvalues - 1, f.line⟩) f

def capture (up : Capture) : Build UInt8 := fun f =>
  match f.upvalue? up.name with
  | some index => .ok index f
  | none => appendUpvalue up f

def addUpvalue (up : Capture) : Build UInt8 := fun f =>
  match f.upvalue? up.name with
  | some _ => .error (.redeclared .upvalue up.name f.line) f
  | none => appendUpvalue up f

def intern (c : Constant) : Build UInt32 :=
  onConstants fun pool =>
    let (slot, pool) := pool.intern c
    .ok slot pool

def slotOf (f : FunctionBuilder) (c : Constant) : Except Error UInt32 :=
  match f.constants.find? c with
  | some slot => .ok slot
  | none => .error (.unresolved .constant c.text)

def addChild (p : Prototype) : Build Nat := fun f =>
  let index := f.children.size
  if index ≤ Instruction.maxBx then .ok index { f with children := f.children.push p }
  else .error (.outOfRange ⟨"prototype table", .prototype, index, 0, Instruction.maxBx, f.line⟩) f

end RegisterCode.FunctionBuilder
