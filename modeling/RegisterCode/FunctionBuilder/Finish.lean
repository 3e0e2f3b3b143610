import RegisterCode.FunctionBuilder.Registers

/-! Finishing a function. Only the function's own scope may still be open. -/
namespace RegisterCode.FunctionBuilder

def unfinished? (f : FunctionBuilder) : Option Violation :=
  if 1 < f.scopes.depth then some (.scopesOpen f.name (f.scopes.depth - 1))
  else if 0 < f.code.sections.length then some (.sectionsOpen f.name f.code.sections.length)
  else if f.loops.anyOpen then some (.loopsOpen f.name f.loops.depth)
  else if !f.temporaries.isEmpty then some (.temporariesPushed f.name f.temporaries.length)
  else none

def closeOwnScope (f : FunctionBuilder) : Except Error FunctionBuilder :=
  if f.scopes.depth = 1 then
    match closeScope f with
    | .ok _ f => .ok f
    | .error error _ => .error error
  else .ok f

def finish (f : FunctionBuilder) (lastLine : UInt32) : Except Error Prototype :=
  match f.unfinished? with
  | some violation => .error (.discipline violation)
  | none => do
    let f ← f.closeOwnScope
    let words ← f.code.words
    if f.highWater < 256 then
      .ok {
        firstLine := f.firstLine
        lastLine
        paramCount := f.paramCount
        isVararg := f.isVararg
        stackSize := .ofNat f.highWater
        code := words
        lines := f.code.lines
        constants := f.constants.toList
        upvalues := f.upvalues
        children := f.children.toList
        locals := f.scopes.log
      }
    else .error (.outOfRange ⟨"stack size", .register, f.highWater, 0, 255, lastLine⟩)

end RegisterCode.FunctionBuilder
