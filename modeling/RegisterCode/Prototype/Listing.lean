import RegisterCode.Prototype

/-! The text form of a prototype: a header, a numbered line for each instruction,
then the tables, then the nested functions one step further in. -/
namespace RegisterCode.Prototype

private def hexWord (word : UInt32) : String :=
  let digits := Text.hexDigits word.toNat
  "0x" ++ .ofList (.replicate (8 - digits.length) '0' ++ digits)

private def nameColumn (op : Opcode) : String :=
  op.name ++ .ofList (.replicate (9 - op.name.length) ' ')

private def operandText (use : ArgUse) (value : Int) : String :=
  if use = .unused then "" else s!" {value}"

def operandsText (i : Instruction) : String :=
  match i.op.layout with
  | .abc => s!" {i.a}" ++ operandText i.op.argB i.b ++ operandText i.op.argC i.c
  | .abx | .asbx => s!" {i.a} {i.b}"
  | .ax => s!" {i.a}"

/-- What an operand leads to: the constant that is loaded, or the target of a jump
as it is numbered in the listing. -/
def remark (constants : List Constant) (pc : Nat) (i : Instruction) : String :=
  if i.op = .loadK then
    match constants[i.b.toNat]? with
    | some k => "\t; " ++ k.text
    | none => ""
  else if i.op.isJump then s!"\t; to {pc + 2 + i.b}"
  else ""

def instructionText (constants : List Constant) (pc : Nat) (word : UInt32) : String :=
  match Instruction.decode word with
  | .error _ => "<invalid " ++ hexWord word ++ ">"
  | .ok i => nameColumn i.op ++ operandsText i ++ remark constants pc i

def ownLines (p : Prototype) : List String :=
  let source := p.source.getD "?"
  let dots := if p.isVararg then "+" else ""
  [s!"function <{source}:{p.firstLine},{p.lastLine}> ({p.code.length} instructions)",
    s!"{p.paramCount}{dots} params, {p.stackSize} slots, {p.upvalues.length} upvalues, " ++
      s!"{p.locals.length} locals, {p.constants.length} constants, " ++
      s!"{p.children.length} functions"] ++
  (p.code.zip p.lines).mapIdx (fun pc (word, line) =>
    s!"\t{pc + 1}\t[{line}]\t" ++ instructionText p.constants pc word) ++
  p.constants.mapIdx (fun i k => s!"\tconstant {i}\t" ++ k.text) ++
  p.locals.mapIdx (fun i range =>
    s!"\tlocal {i}\t{range.name}\t{range.startPc.toNat + 1}\t{range.endPc.toNat + 1}") ++
  p.upvalues.mapIdx (fun i up =>
    s!"\tupvalue {i}\t{up.name}\t{up.inStack.toNat}\t{up.index}")

mutual

def listingLines (indent : String) : Prototype → List String
  | p@{ children, .. } =>
    p.ownLines.map (indent ++ ·) ++ listingLinesAll (indent ++ "  ") children

def listingLinesAll (indent : String) : List Prototype → List String
  | [] => []
  | p :: rest => listingLines indent p ++ listingLinesAll indent rest

end

def listing (p : Prototype) : String :=
  .join ((listingLines "" p).map (· ++ "\n"))

end RegisterCode.Prototype
