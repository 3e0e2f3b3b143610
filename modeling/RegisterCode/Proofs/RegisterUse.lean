import RegisterCode.Proofs.BuilderSteps

/-! What instructions do to registers: which ones they read and write, from which one on
they close the upvalues that are still open, and where control goes from them. A count of
zero leaves a row of registers open at its upper end. -/
namespace RegisterCode

theorem Opcode.isJump_cases {op : Opcode} (h : op.isJump = true) :
    op = .jmp ∨ op = .forLoop ∨ op = .forPrep ∨ op = .tforLoop := by
  revert h
  cases op <;> decide

namespace Instruction

/-- The instruction reads register `r`. A negative operand is a constant. -/
@[grind =] def Reads (i : Instruction) (r : Nat) : Prop :=
  match i.op with
  | .move | .unm | .bnot | .not | .len | .testSet => i.b = r
  | .getTable | .setTabUp | .self | .add | .sub | .mul | .mod | .pow | .div | .idiv
  | .band | .bor | .bxor | .shl | .shr | .eq | .lt | .le => i.b = r ∨ i.c = r
  | .getTabUp => i.c = r
  | .setUpval | .test => i.a = r
  | .setTable => i.a = r ∨ i.b = r ∨ i.c = r
  | .concat => i.b ≤ r ∧ r ≤ i.c
  | .call | .tailCall => i.a ≤ r ∧ (i.b ≠ 0 → r < i.a + i.b)
  | .ret => i.a ≤ r ∧ (i.b ≠ 0 → r < i.a + i.b - 1)
  | .forLoop | .tforCall => i.a ≤ r ∧ r ≤ i.a + 2
  | .forPrep => i.a = r ∨ i.a + 2 = r
  | .tforLoop => i.a + 1 = r
  | .setList => i.a ≤ r ∧ (i.b ≠ 0 → r ≤ i.a + i.b)
  | .loadK | .loadKX | .loadBool | .loadNil | .getUpval | .newTable | .jmp | .closure | .vararg
  | .extraArg => False

@[grind =] def Writes (i : Instruction) (r : Nat) : Prop :=
  match i.op with
  | .move | .loadK | .loadKX | .loadBool | .getUpval | .getTabUp | .getTable | .newTable
  | .add | .sub | .mul | .mod | .pow | .div | .idiv | .band | .bor | .bxor | .shl | .shr
  | .unm | .bnot | .not | .len | .concat | .testSet | .closure | .forPrep | .tforLoop => i.a = r
  | .loadNil => i.a ≤ r ∧ r ≤ i.a + i.b
  | .self => i.a = r ∨ i.a + 1 = r
  | .call => i.a ≤ r ∧ (i.c ≠ 0 → r < i.a + i.c - 1)
  | .vararg => i.a ≤ r ∧ (i.b ≠ 0 → r < i.a + i.b - 1)
  | .forLoop => i.a = r ∨ i.a + 3 = r
  | .tforCall => i.a + 3 ≤ r ∧ r ≤ i.a + 2 + i.c
  | .setTabUp | .setUpval | .setTable | .jmp | .eq | .lt | .le | .test | .tailCall | .ret
  | .setList | .extraArg => False

@[grind =] def Closes (i : Instruction) (r : Nat) : Prop :=
  match i.op with
  | .jmp => 1 ≤ i.a ∧ i.a ≤ r + 1
  | .ret => True
  | _ => False

/-- Below `size` are all registers of the instruction, and it closes upvalues only if it
ends the function. -/
@[grind =] def Fits (size : Nat) (i : Instruction) : Prop :=
  ∀ r, (i.Reads r → r < size) ∧ (i.Writes r → r < size) ∧ (i.Closes r → i.op = .ret)

variable {i : Instruction} {size : Nat}

theorem Fits.mono {size' : Nat} (h : i.Fits size) (hle : size ≤ size') : i.Fits size' :=
  fun r => ⟨fun hr => Nat.lt_of_lt_of_le ((h r).1 hr) hle,
    fun hr => Nat.lt_of_lt_of_le ((h r).2.1 hr) hle, (h r).2.2⟩

theorem fits_kept : i.kept.Fits size ↔ i.Fits size := by
  obtain ⟨op, a, b, c, line⟩ := i
  cases op <;> rfl

theorem fits_aimed {index target : Nat} (h : i.Fits size) (hjump : i.op.isJump = true) :
    (FunctionBuilder.aimed i index target).Fits size := by
  obtain ⟨op, a, b, c, line⟩ := i
  rcases Opcode.isJump_cases hjump with rfl | rfl | rfl | rfl <;> exact h

end Instruction

def Successor (code : List Instruction) (k next : Nat) : Prop :=
  ∃ i, code[k]? = some i ∧
    match i.op with
    | .jmp | .forPrep => (next : Int) = k + 1 + i.b
    | .forLoop | .tforLoop => next = k + 1 ∨ (next : Int) = k + 1 + i.b
    | .eq | .lt | .le | .test | .testSet => next = k + 1 ∨ next = k + 2
    | .loadBool => next = if i.c = 0 then k + 1 else k + 2
    | .loadKX => next = k + 2
    | .setList => next = if i.c = 0 then k + 2 else k + 1
    | .tailCall | .ret => False
    | _ => next = k + 1

theorem Successor.not_closes {code : List Instruction} {k next size r : Nat} {i : Instruction}
    (h : Successor code k next) (hat : code[k]? = some i) (hfits : i.Fits size) : ¬ i.Closes r := by
  intro hcloses
  obtain ⟨j, hj, hnext⟩ := h
  obtain rfl : i = j := Option.some.inj (hat.symm.trans hj)
  rw [(hfits r).2.2 hcloses] at hnext
  exact hnext

end RegisterCode
