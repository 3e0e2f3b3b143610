import RegisterCode.Prototype

/-! The binary form of a prototype tree. All numbers are little-endian; a list is
its length and then its elements. A function's source is left out where it is the
one in force around it, and stripping leaves out all debug records. -/
namespace RegisterCode

namespace Chunk

abbrev Bytes := List UInt8

def littleEndian : (width n : Nat) → Bytes
  | 0, _ => []
  | width + 1, n => .ofNat n :: littleEndian width (n / 256)

def word (n : UInt32) : Bytes :=
  littleEndian 4 n.toNat

def flag (b : Bool) : UInt8 :=
  if b then 1 else 0

def list {α : Type} (element : α → Bytes) (items : List α) : Bytes :=
  word (.ofNat items.length) ++ items.flatMap element

def utf8 (text : String) : Bytes :=
  text.toUTF8.data.toList

/-- A text is led by its size plus one, in one byte where that fits. -/
def text (s : String) : Bytes :=
  let bytes := utf8 s
  let size := bytes.length + 1
  (if size < 255 then [.ofNat size] else 255 :: littleEndian 8 size) ++ bytes

/-- Size zero marks a text that is left out. -/
def optionalText : Option String → Bytes
  | none => [0]
  | some s => text s

def maxShortString : Nat := 40

def constant : Constant → Bytes
  | .nil => [0]
  | .boolean b => [1, flag b]
  | .number x => 3 :: littleEndian 8 x.bits.toNat
  | .integer n => 19 :: littleEndian 8 n.toUInt64.toNat
  | .string s => (if s.utf8ByteSize ≤ maxShortString then 4 else 20) :: text s

def capture (up : Capture) : Bytes :=
  [flag up.inStack, up.index]

def localRange (range : LocalRange) : Bytes :=
  text range.name ++ word range.startPc ++ word range.endPc

/-- Signature, version, format, check bytes for damaged line ends, the widths of
the five number types, and one integer and one double to compare. -/
def header : Bytes :=
  [0x1b, 0x4c, 0x75, 0x61, 0x53, 0x00, 0x19, 0x93, 0x0d, 0x0a, 0x1a, 0x0a, 4, 8, 4, 8, 8] ++
    littleEndian 8 0x5678 ++ littleEndian 8 0x4077280000000000

def writtenSource (strip : Bool) (around source : Option String) : Option String :=
  if strip ∨ source = around then none else source

def debugRecords (strip : Bool) (p : Prototype) : Bytes :=
  if strip then word 0 ++ word 0 ++ word 0
  else list word p.lines ++ list localRange p.locals ++ list (text ·.name) p.upvalues

mutual

def function (strip : Bool) (around : Option String) : Prototype → Bytes
  | p@{ children, .. } =>
    optionalText (writtenSource strip around p.source) ++
    word p.firstLine ++ word p.lastLine ++
    [p.paramCount, flag p.isVararg, p.stackSize] ++
    list word p.code ++ list constant p.constants ++ list capture p.upvalues ++
    word (.ofNat children.length) ++ functions strip (p.source.or around) children ++
    debugRecords strip p

def functions (strip : Bool) (around : Option String) : List Prototype → Bytes
  | [] => []
  | p :: rest => function strip around p ++ functions strip around rest

end

end Chunk

def Prototype.chunk (p : Prototype) (strip : Bool) : Chunk.Bytes :=
  Chunk.header ++ .ofNat p.upvalues.length :: Chunk.function strip none p

end RegisterCode
