/-! The instruction set. One row of a table gives all that is fixed about an
opcode: its printed name, how its operands share the word, what each of its two
wide operands means, and whether it tests or writes register A. -/
namespace RegisterCode

inductive Layout
  /-- Three fields A, B and C. -/
  | abc
  /-- A and one unsigned field. -/
  | abx
  /-- A and one signed field, the displacement of a jump. -/
  | asbx
  /-- One field over all operand bits. -/
  | ax
deriving DecidableEq

inductive ArgUse
  | unused
  | count
  | register
  /-- A register, or a constant when negative. -/
  | registerOrConstant
deriving DecidableEq

inductive Opcode
  | move | loadK | loadKX | loadBool | loadNil | getUpval | getTabUp | getTable
  | setTabUp | setUpval | setTable | newTable | self
  | add | sub | mul | mod | pow | div | idiv | band | bor | bxor | shl | shr
  | unm | bnot | not | len | concat
  | jmp | eq | lt | le | test | testSet
  | call | tailCall | ret | forLoop | forPrep | tforCall | tforLoop
  | setList | closure | vararg | extraArg
deriving DecidableEq

structure Opcode.Traits where
  name : String
  layout : Layout
  argB : ArgUse
  argC : ArgUse
  /-- The instruction decides whether the next one, a jump, is taken. -/
  isTest : Bool := false
  setsA : Bool := true

namespace Opcode

def all : List Opcode :=
  [.move, .loadK, .loadKX, .loadBool, .loadNil, .getUpval, .getTabUp, .getTable,
    .setTabUp, .setUpval, .setTable, .newTable, .self,
    .add, .sub, .mul, .mod, .pow, .div, .idiv, .band, .bor, .bxor, .shl, .shr,
    .unm, .bnot, .not, .len, .concat,
    .jmp, .eq, .lt, .le, .test, .testSet,
    .call, .tailCall, .ret, .forLoop, .forPrep, .tforCall, .tforLoop,
    .setList, .closure, .vararg, .extraArg]

def number (op : Opcode) : Nat :=
  op.ctorIdx

def ofNumber? (n : Nat) : Option Opcode :=
  all[n]?

@[simp] theorem ofNumber?_number (op : Opcode) : ofNumber? op.number = some op := by
  cases op <;> rfl

theorem number_lt (op : Opcode) : op.number < 47 := by
  cases op <;> decide

theorem number_of_ofNumber? {n : Nat} {op : Opcode} (h : ofNumber? n = some op) :
    op.number = n := by
  have hn : n < 47 := (List.getElem?_eq_some_iff.mp h).1
  have table : ∀ k < 47, ∀ op' ∈ ofNumber? k, op'.number = k := by decide
  exact table n hn op h

private def binary (name : String) : Traits :=
  ⟨name, .abc, .registerOrConstant, .registerOrConstant, false, true⟩

private def unary (name : String) : Traits :=
  ⟨name, .abc, .register, .unused, false, true⟩

private def comparison (name : String) : Traits :=
  ⟨name, .abc, .registerOrConstant, .registerOrConstant, true, false⟩

def traits : Opcode → Traits
  | .move => unary "MOVE"
  | .loadK => ⟨"LOADK", .abx, .registerOrConstant, .unused, false, true⟩
  | .loadKX => ⟨"LOADKX", .abx, .unused, .unused, false, true⟩
  | .loadBool => ⟨"LOADBOOL", .abc, .count, .count, false, true⟩
  | .loadNil => ⟨"LOADNIL", .abc, .count, .unused, false, true⟩
  | .getUpval => ⟨"GETUPVAL", .abc, .count, .unused, false, true⟩
  | .getTabUp => ⟨"GETTABUP", .abc, .count, .registerOrConstant, false, true⟩
  | .getTable => ⟨"GETTABLE", .abc, .register, .registerOrConstant, false, true⟩
  | .setTabUp => ⟨"SETTABUP", .abc, .registerOrConstant, .registerOrConstant, false, false⟩
  | .setUpval => ⟨"SETUPVAL", .abc, .count, .unused, false, false⟩
  | .setTable => ⟨"SETTABLE", .abc, .registerOrConstant, .registerOrConstant, false, false⟩
  | .newTable => ⟨"NEWTABLE", .abc, .count, .count, false, true⟩
  | .self => ⟨"SELF", .abc, .register, .registerOrConstant, false, true⟩
  | .add => binary "ADD"
  | .sub => binary "SUB"
  | .mul => binary "MUL"
  | .mod => binary "MOD"
  | .pow => binary "POW"
  | .div => binary "DIV"
  | .idiv => binary "IDIV"
  | .band => binary "BAND"
  | .bor => binary "BOR"
  | .bxor => binary "BXOR"
  | .shl => binary "SHL"
  | .shr => binary "SHR"
  | .unm => unary "UNM"
  | .bnot => unary "BNOT"
  | .not => unary "NOT"
  | .len => unary "LEN"
  | .concat => ⟨"CONCAT", .abc, .register, .register, false, true⟩
  | .jmp => ⟨"JMP", .asbx, .register, .unused, false, false⟩
  | .eq => comparison "EQ"
  | .lt => comparison "LT"
  | .le => comparison "LE"
  | .test => ⟨"TEST", .abc, .unused, .count, true, false⟩
  | .testSet => ⟨"TESTSET", .abc, .register, .count, true, true⟩
  | .call => ⟨"CALL", .abc, .count, .count, false, true⟩
  | .tailCall => ⟨"TAILCALL", .abc, .count, .count, false, true⟩
  | .ret => ⟨"RETURN", .abc, .count, .unused, false, false⟩
  | .forLoop => ⟨"FORLOOP", .asbx, .register, .unused, false, true⟩
  | .forPrep => ⟨"FORPREP", .asbx, .register, .unused, false, true⟩
  | .tforCall => ⟨"TFORCALL", .abc, .unused, .count, false, false⟩
  | .tforLoop => ⟨"TFORLOOP", .asbx, .register, .unused, false, true⟩
  | .setList => ⟨"SETLIST", .abc, .count, .count, false, false⟩
  | .closure => ⟨"CLOSURE", .abx, .count, .unused, false, true⟩
  | .vararg => ⟨"VARARG", .abc, .count, .unused, false, true⟩
  | .extraArg => ⟨"EXTRAARG", .ax, .count, .count, false, false⟩

def name (op : Opcode) : String := op.traits.name
def layout (op : Opcode) : Layout := op.traits.layout
def argB (op : Opcode) : ArgUse := op.traits.argB
def argC (op : Opcode) : ArgUse := op.traits.argC
def isTest (op : Opcode) : Bool := op.traits.isTest
def setsA (op : Opcode) : Bool := op.traits.setsA

/-- The instruction holds a displacement that can be aimed later. -/
def isJump (op : Opcode) : Bool :=
  op.layout == .asbx

def ofName? (name : String) : Option Opcode :=
  all.find? (·.name == name)

end Opcode

end RegisterCode
