import RegisterCode.Operand.Short
import RegisterCode.Proofs.WordCodec

/-! Register-or-constant operands. A register and a constant with a short slot never
share one, and each goes into every field that takes such operands. Slots that do not fit
a signed word break this: the last ones pass for registers. -/
namespace RegisterCode

namespace Instruction

/-- Every register-or-constant field takes the operand and gives it back, so an instruction
with it has a word whenever the instruction with register zero in its place has one. -/
structure Accepts (operand : Int) : Prop where
  stored : ∀ (i : Instruction) (field : Field), ∃ bits,
    i.storeArg field .registerOrConstant operand = .ok bits ∧
      loadArg .registerOrConstant bits = operand
  inB : ∀ i : Instruction, i.op.layout = .abc → i.op.argB = .registerOrConstant →
    ((∃ word, { i with b := operand }.encode = .ok word) ↔
      ∃ word, { i with b := 0 }.encode = .ok word)
  inC : ∀ i : Instruction, i.op.layout = .abc → i.op.argC = .registerOrConstant →
    ((∃ word, { i with c := operand }.encode = .ok word) ↔
      ∃ word, { i with c := 0 }.encode = .ok word)

theorem inRange_argSlot_iff {field : Field} {operand : Int} :
    (argSlot field .registerOrConstant operand).InRange ↔ -256 ≤ operand ∧ operand ≤ 255 :=
  Iff.rfl

theorem encode_isOk_of_abc {op : Opcode} (hlayout : op.layout = .abc) (a b c : Int)
    (line : UInt32) :
    (∃ word, (⟨op, a, b, c, line⟩ : Instruction).encode = .ok word) ↔
      (0 ≤ a ∧ a ≤ 255) ∧ (argSlot .b op.argB b).InRange ∧ (argSlot .c op.argC c).InRange := by
  rw [encode_isOk_iff]
  simp [slots, hlayout, Slot.InRange]

theorem accepts_iff {operand : Int} : Accepts operand ↔ -256 ≤ operand ∧ operand ≤ 255 := by
  constructor
  · intro h
    obtain ⟨bits, hstored, -⟩ := h.stored { op := .add } .b
    obtain ⟨_, hchecked, -⟩ := except_bind_eq_ok.mp hstored
    obtain ⟨hmin, hmax, -⟩ := store_eq_ok.mp hchecked
    exact ⟨hmin, hmax⟩
  · intro hin
    have hzero : (-256 : Int) ≤ 0 ∧ (0 : Int) ≤ 255 := by decide
    refine ⟨?_, ?_, ?_⟩
    · intro i field
      have hchecks := checks_storeArg i field .registerOrConstant operand
      rw [Checks.single, if_pos (inRange_argSlot_iff.mpr hin)] at hchecks
      obtain ⟨bits, hstored⟩ := hchecks
      exact ⟨bits, hstored, (loadArg_of_storeArg hstored).2⟩
    · intro i hlayout huse
      simp only [encode_isOk_of_abc hlayout, huse, inRange_argSlot_iff, hin, hzero]
    · intro i hlayout huse
      simp only [encode_isOk_of_abc hlayout, huse, inRange_argSlot_iff, hin, hzero]

end Instruction

namespace Operand

open Instruction (Accepts accepts_iff)

/-- A constant whose slot is negative as a signed word. -/
def Overflows : Operand → Prop
  | .constant slot => 2147483648 ≤ slot.toNat
  | _ => False

instance (v : Operand) : Decidable v.Overflows :=
  match v with
  | .constant slot => inferInstanceAs (Decidable (2147483648 ≤ slot.toNat))
  | .register _ | .upvalue _ | .global _ | .boolean _ | .nil => inferInstanceAs (Decidable False)

/-- The constant that passes for a register: its slot counts back from the last one. -/
def shadow (index : UInt8) : Operand :=
  .constant (4294967295 - index.toUInt32)

/-- What a register-or-constant operand of one value promises, seen beside another value:
it goes into every field, it stands for no other value, and the constants that have one
are those with the first 256 slots. -/
structure Unambiguous (v w : Operand) : Prop where
  accepted : ∀ operand, v.short? = some operand → Accepts operand
  distinct : ∀ operand, v.short? = some operand → w.short? = some operand → v = w
  present : ∀ slot, v = .constant slot → (v.short?.isSome ↔ slot.toNat ≤ 255)

theorem toNat_shadow (index : UInt8) :
    (4294967295 - index.toUInt32).toNat = 4294967295 - index.toNat := by
  have hlt := index.toNat_lt
  rw [UInt32.toNat_sub_of_le]
  · simp
  · rw [UInt32.le_iff_toNat_le]
    simp
    omega

theorem short?_register (index : UInt8) : (register index).short? = some (index.toNat : Int) :=
  rfl

theorem short?_constant (slot : UInt32) :
    (constant slot).short? =
      if (slot.toNat : Int).bmod 4294967296 ≤ 255 then
        some (-(slot.toNat : Int).bmod 4294967296 - 1) else none :=
  rfl

theorem short?_constant_of_lt {slot : UInt32} (h : slot.toNat < 2147483648) :
    (constant slot).short? =
      if slot.toNat ≤ 255 then some (-(slot.toNat : Int) - 1) else none := by
  have hslot : (slot.toNat : Int).bmod 4294967296 = slot.toNat :=
    Int.bmod_eq_of_le (by omega) (by omega)
  rw [short?_constant, hslot]
  simp only [show (slot.toNat : Int) ≤ 255 ↔ slot.toNat ≤ 255 by omega]

theorem short?_constant_of_le {slot : UInt32} (h : 2147483648 ≤ slot.toNat) :
    (constant slot).short? = some (4294967295 - (slot.toNat : Int)) := by
  have hlt := slot.toNat_lt
  have hslot : (slot.toNat : Int).bmod 4294967296 = slot.toNat - 4294967296 := by
    have hword := Int.bmod_add_bdiv slot.toNat 4294967296
    have hmin := @Int.le_bmod slot.toNat 4294967296 (by decide)
    have hmax := @Int.bmod_lt slot.toNat 4294967296 (by decide)
    omega
  rw [short?_constant, hslot, if_pos (by omega)]
  exact congrArg some (by omega)

theorem short?_shadow (index : UInt8) : (shadow index).short? = (register index).short? := by
  have hlt := index.toNat_lt
  have hslot := toNat_shadow index
  have hback : (4294967295 : Int) - (4294967295 - index.toNat : Nat) = index.toNat := by omega
  rw [shadow, short?_constant_of_le (by omega), hslot, hback, short?_register]

theorem short?_eq_some_iff {v : Operand} {operand : Int} :
    v.short? = some operand ↔
      (∃ index, v = .register index ∧ operand = index.toNat) ∨
      (∃ slot, v = .constant slot ∧ slot.toNat ≤ 255 ∧ operand = -(slot.toNat : Int) - 1) ∨
      ∃ slot, v = .constant slot ∧ 2147483648 ≤ slot.toNat ∧ operand = 4294967295 - slot.toNat := by
  cases v with
  | register index => simp [short?_register, eq_comm]
  | constant slot =>
    by_cases hlow : slot.toNat < 2147483648
    · rw [short?_constant_of_lt hlow]
      simp [show ¬ 2147483648 ≤ slot.toNat by omega, eq_comm]
    · rw [short?_constant_of_le (by omega)]
      simp [show 2147483648 ≤ slot.toNat by omega, show ¬ slot.toNat ≤ 255 by omega, eq_comm]
  | upvalue | global | boolean | nil => exact iff_of_false (by rintro ⟨⟩) (by simp)

theorem overflows_shadow (index : UInt8) : (shadow index).Overflows := by
  have hlt := index.toNat_lt
  rw [shadow, Overflows, toNat_shadow]
  omega

theorem accepts_of_short? {v : Operand} {operand : Int} (hv : ¬ v.Overflows)
    (hshort : v.short? = some operand) : Accepts operand := by
  rw [accepts_iff]
  rcases short?_eq_some_iff.mp hshort with
    ⟨index, rfl, rfl⟩ | ⟨slot, rfl, hslot, rfl⟩ | ⟨slot, rfl, hslot, -⟩
  · have hlt := index.toNat_lt
    omega
  · omega
  · exact absurd hslot hv

/-- The sign of an operand tells a register from a constant, and its size which one it is,
unless the constant is the shadow of the register. -/
theorem eq_of_short?_eq {v w : Operand} {operand : Int} (hv : ¬ v.Overflows)
    (hw : ∀ index, v = .register index → w ≠ shadow index) (hshort : v.short? = some operand)
    (hshort' : w.short? = some operand) : v = w := by
  rcases short?_eq_some_iff.mp hshort with
    ⟨index, rfl, rfl⟩ | ⟨slot, rfl, hslot, rfl⟩ | ⟨slot, rfl, hslot, -⟩
  · have hlt := index.toNat_lt
    rcases short?_eq_some_iff.mp hshort' with
      ⟨index', rfl, hsame⟩ | ⟨slot', rfl, -, hsame⟩ | ⟨slot', rfl, hslot', hsame⟩
    · exact congrArg register (UInt8.toNat_inj.mp (by omega))
    · omega
    · have hshadow : slot' = 4294967295 - index.toUInt32 := by
        rw [← UInt32.toNat_inj, toNat_shadow]
        omega
      exact absurd (congrArg constant hshadow) (hw index rfl)
  · rcases short?_eq_some_iff.mp hshort' with
      ⟨index', rfl, hsame⟩ | ⟨slot', rfl, -, hsame⟩ | ⟨slot', rfl, -, hsame⟩
    · omega
    · exact congrArg constant (UInt32.toNat_inj.mp (by omega))
    · have hlt := slot'.toNat_lt
      omega
  · exact absurd hslot hv

theorem isSome_short?_constant (slot : UInt32) :
    (constant slot).short?.isSome ↔ slot.toNat ≤ 255 ∨ (constant slot).Overflows := by
  by_cases hlow : slot.toNat < 2147483648
  · rw [short?_constant_of_lt hlow, Overflows]
    split
    · simp [*]
    · simp [*]
  · rw [short?_constant_of_le (by omega), Overflows]
    simp
    omega

theorem unambiguous_iff {v w : Operand} :
    v.Unambiguous w ↔ ¬ v.Overflows ∧ ∀ index, v = .register index → w ≠ shadow index := by
  constructor
  · rintro ⟨-, hdistinct, hpresent⟩
    constructor
    · intro hover
      cases v with
      | constant slot =>
        have hsome := (isSome_short?_constant slot).mpr (.inr hover)
        have hfirst : slot.toNat ≤ 255 := (hpresent slot rfl).mp hsome
        rw [Overflows] at hover
        omega
      | _ => exact hover
    · rintro index rfl rfl
      have hsame := hdistinct index.toNat rfl (short?_shadow index)
      cases hsame
  · rintro ⟨hv, hw⟩
    refine ⟨fun _ => accepts_of_short? hv, fun _ => eq_of_short?_eq hv hw, ?_⟩
    rintro slot rfl
    rw [isSome_short?_constant, or_iff_left hv]

/-- The operands of two values keep what they promise exactly if the first value is no
constant beyond the signed words and the second is not its shadow, in particular if both
have slots within the signed words. A slot beyond them has an operand as well, which is
never negative; it goes into the fields exactly if it passes for a register there. -/
theorem unambiguous_unless_overflowing (v w : Operand) :
    (¬ v.Overflows → ¬ w.Overflows → v.Unambiguous w) ∧
    (v.Unambiguous w ↔ ¬ v.Overflows ∧ ∀ index, v = .register index → w ≠ shadow index) ∧
    (v.Overflows → ∃ operand, v.short? = some operand ∧ 0 ≤ operand ∧
      (Accepts operand ↔ ∃ index, v = shadow index ∧ (register index).short? = some operand)) := by
  refine ⟨?_, unambiguous_iff, ?_⟩
  · intro hv hw
    refine unambiguous_iff.mpr ⟨hv, ?_⟩
    rintro index - rfl
    exact hw (overflows_shadow index)
  · intro hover
    cases v with
    | constant slot =>
      have hlt := slot.toNat_lt
      refine ⟨_, short?_constant_of_le hover, by omega, ?_⟩
      rw [accepts_iff]
      constructor
      · intro hin
        have hindex : (UInt8.ofNat (4294967295 - slot.toNat)).toNat = 4294967295 - slot.toNat := by
          rw [UInt8.toNat_ofNat']
          omega
        have hslot : slot = 4294967295 - (UInt8.ofNat (4294967295 - slot.toNat)).toUInt32 := by
          rw [← UInt32.toNat_inj, toNat_shadow]
          omega
        refine ⟨_, congrArg constant hslot, ?_⟩
        rw [short?_register, hindex]
        exact congrArg some (by omega)
      · rintro ⟨index, -, hindex⟩
        have hsmall := index.toNat_lt
        rw [short?_register] at hindex
        have hsame := Option.some.inj hindex
        omega
    | _ => exact hover.elim

/-- The last short slot and the last register. -/
theorem unambiguous_unless_overflowing_ends :
    (constant 255).short? = some (-256) ∧ (constant 256).short? = none ∧
      (constant 255).Unambiguous (register 255) ∧ (register 255).Unambiguous (constant 255) := by
  have hconstant : ¬ (constant 255).Overflows := by decide
  have hregister : ¬ (register 255).Overflows := by decide
  exact ⟨by decide, by decide, (unambiguous_unless_overflowing _ _).1 hconstant hregister,
    (unambiguous_unless_overflowing _ _).1 hregister hconstant⟩

/-- The last slot of all passes for register zero. -/
theorem not_unambiguous_lastSlot :
    (constant 4294967295).short? = some 0 ∧ (register 0).short? = some 0 ∧
      ¬ (register 0).Unambiguous (constant 4294967295) := by
  have hlast : (constant 4294967295).short? = some 0 := by decide
  refine ⟨hlast, rfl, ?_⟩
  intro h
  have hsame := h.distinct 0 rfl hlast
  cases hsame

end Operand

end RegisterCode
