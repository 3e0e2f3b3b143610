import RegisterCode.Lowering
import RegisterCode.Prototype.Chunk

/-! From a program to its chunk. Compiling also records a source map; without one
the instructions keep the lines of the source. -/
namespace RegisterCode

namespace Program

def build (program : Program) (options : Options) (map : Option SourceMap) :
    Except Error (Prototype × Option SourceMap) :=
  let lowering : Lower Unit := do
    Lower.statements program.body
    Lower.returnNothing
  match lowering (.start options map) with
  | .error error _ => .error error
  | .ok _ b => do
    let main ← b.finish program.endLine
    .ok (main, b.map)

def lower (program : Program) (options : Options) : Except Error Prototype := do
  let (main, _) ← program.build options none
  .ok main

end Program

structure CompiledChunk where
  main : Prototype
  bytes : Chunk.Bytes
  map : SourceMap

def Program.compile (program : Program) (options : Options) : Except Error CompiledChunk := do
  let (main, map) ← program.build options (some {})
  .ok ⟨main, main.chunk options.strip, map.getD {}⟩

end RegisterCode
