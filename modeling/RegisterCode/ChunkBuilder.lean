import RegisterCode.FunctionBuilder.Emission
import RegisterCode.FunctionBuilder.Entries
import RegisterCode.FunctionBuilder.Finish
import RegisterCode.Operand.Short
import RegisterCode.Options
import RegisterCode.SourceMap

/-! A chunk while it is built: the innermost open function and the ones around it.
A name of an enclosing function is reached through an upvalue of every function in
between, each taking it from the function around itself. -/
namespace RegisterCode

inductive Variable
  | register (index : UInt8)
  | upvalue (index : UInt8)
  | global (name : String)
deriving DecidableEq

def Variable.operand : Variable → Operand
  | .register index => .register index
  | .upvalue index => .upvalue index
  | .global name => .global name

structure ChunkBuilder where
  options : Options
  /-- The innermost open function. -/
  current : FunctionBuilder
  /-- The functions around it, from the inside out. -/
  enclosing : List FunctionBuilder := []
  /-- With a map, places are recorded and instructions get generated lines. -/
  map : Option SourceMap := none
  /-- The generated line that is given out next. -/
  generatedLine : UInt32 := 1

namespace ChunkBuilder

def start (options : Options) (map : Option SourceMap) : ChunkBuilder where
  options
  current := .root options.chunkName
  map

def depth (b : ChunkBuilder) : Nat :=
  b.enclosing.length + 1

def level (b : ChunkBuilder) : Nat :=
  b.enclosing.length

def functionAt? (b : ChunkBuilder) (level : Nat) : Option FunctionBuilder :=
  (b.current :: b.enclosing).reverse[level]?

@[inline] def onCurrent {α : Type} (action : Build α) : Action ChunkBuilder α :=
  action.focus ChunkBuilder.current (fun current b => { b with current }) (.start "" none 0)

theorem onCurrent_apply {α : Type} (action : Build α) (b : ChunkBuilder) :
    onCurrent action b =
      match action b.current with
      | .ok value current => .ok value { b with current }
      | .error error current => .error error { b with current } := by
  unfold onCurrent Action.focus
  dsimp only
  cases action b.current <;> rfl

/-- Open a function inside the current one. It goes on at the current line. -/
def openFunction (name : String) (firstLine : UInt32) (b : ChunkBuilder) : ChunkBuilder :=
  { b with
    current := (FunctionBuilder.start name (some b.level) firstLine).setLine b.current.line
    enclosing := b.current :: b.enclosing }

/-- Finish the current function as a child of the one around it and give its index
there. The function is closed even if it cannot be finished. -/
def closeFunction (lastLine : UInt32) : Action ChunkBuilder Nat := fun b =>
  match b.enclosing with
  | [] => .error (.discipline .noFunctionToClose) b
  | outer :: enclosing =>
    let finished := b.current.finish lastLine
    let b := { b with current := outer, enclosing }
    match finished with
    | .error error => .error error b
    | .ok child => onCurrent (FunctionBuilder.addChild child) b

def finish (b : ChunkBuilder) (lastLine : UInt32) : Except Error Prototype :=
  match b.enclosing with
  | [] => do
    let main ← b.current.finish lastLine
    .ok { main with source := some b.options.chunkName }
  | _ :: _ => .error (.discipline (.functionsOpen b.enclosing.length))

/-- The upvalue of a name in `f`, which is captured from the functions around it if
it is not there yet; `none` if no function around knows the name. -/
def captureFrom (name : String) : (f : FunctionBuilder) → (enclosing : List FunctionBuilder) →
    EStateM.Result Error (FunctionBuilder × List FunctionBuilder) (Option UInt8)
  | f, [] => .ok (f.upvalue? name) (f, [])
  | f, outer :: rest =>
    match f.upvalue? name with
    | some index => .ok (some index) (f, outer :: rest)
    | none =>
      match outer.scopes.register? name with
      | some register => addCapture ⟨name, true, register⟩ f (outer :: rest)
      | none =>
        match captureFrom name outer rest with
        | .error error (outer, rest) => .error error (f, outer :: rest)
        | .ok none (outer, rest) => .ok none (f, outer :: rest)
        | .ok (some index) (outer, rest) => addCapture ⟨name, false, index⟩ f (outer :: rest)
where
  addCapture (up : Capture) (f : FunctionBuilder) (enclosing : List FunctionBuilder) :
      EStateM.Result Error (FunctionBuilder × List FunctionBuilder) (Option UInt8) :=
    match FunctionBuilder.appendUpvalue up f with
    | .ok index f => .ok (some index) (f, enclosing)
    | .error error f => .error error (f, enclosing)

/-- Find a name from the innermost function. What nobody declares is global. -/
def resolve (name : String) : Action ChunkBuilder Variable := fun b =>
  match b.current.scopes.register? name with
  | some register => .ok (.register register) b
  | none =>
    match captureFrom name b.current b.enclosing with
    | .ok (some index) (current, enclosing) =>
      .ok (.upvalue index) { b with current, enclosing }
    | .ok none (current, enclosing) => .ok (.global name) { b with current, enclosing }
    | .error error (current, enclosing) => .error error { b with current, enclosing }

def locate (span : Span) (b : ChunkBuilder) : ChunkBuilder :=
  match b.map with
  | none => { b with current := b.current.setLine span.line }
  | some map =>
    let line := b.generatedLine
    { b with
      map := some (map.add ⟨line, span.line, span.column, b.options.sourcePath⟩)
      generatedLine := line + 1
      current := b.current.setLine line }

def text (b : ChunkBuilder) : String :=
  let root := (b.enclosing.getLast?.getD b.current).name
  s!"FunctionStack \x7b root: {Text.quote root}, depth: {b.depth}, " ++
    s!"has_sink: {b.map.isSome} \x7d"

end ChunkBuilder

end RegisterCode
