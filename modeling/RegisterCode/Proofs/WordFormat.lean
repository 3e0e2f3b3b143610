import RegisterCode.Instruction.Tables
import RegisterCode.Proofs.Outcomes

/-! Words and instructions. What was packed is what is unpacked, up to the fields
that the layout of the opcode does not carry. -/
namespace RegisterCode.Instruction

/-- What is left of an instruction in its word: no line, and no field that its
layout lacks. -/
def kept (i : Instruction) : Instruction :=
  match i.op.layout with
  | .abc => ⟨i.op, i.a, i.b, i.c, 0⟩
  | .abx | .asbx => ⟨i.op, i.a, i.b, 0, 0⟩
  | .ax => ⟨i.op, i.a, 0, 0, 0⟩

@[simp] theorem kept_op (i : Instruction) : i.kept.op = i.op := by
  unfold kept
  split <;> rfl

theorem store_eq_ok {i : Instruction} {field : Field} {min max value : Int} {stored : Nat} :
    i.store field min max value = .ok stored ↔
      min ≤ value ∧ value ≤ max ∧ stored = (value - min).toNat := by
  unfold store
  split
  next hin => simp [hin, eq_comm]
  next hout =>
    simp only [reduceCtorEq, false_iff]
    omega

theorem store_eq_error {i : Instruction} {field : Field} {min max value : Int} {error : Error}
    (h : i.store field min max value = .error error) : error = i.fault field value min max := by
  unfold store at h
  split at h
  · simp at h
  · simpa using h.symm

theorem loadArg_of_storeArg {i : Instruction} {field : Field} {use : ArgUse} {value : Int}
    {stored : Nat} (h : i.storeArg field use value = .ok stored) :
    stored < 512 ∧ loadArg use stored = value := by
  unfold storeArg at h
  split at h
  · obtain ⟨checked, hchecked, h⟩ := except_bind_eq_ok.mp h
    obtain ⟨hmin, hmax, -⟩ := store_eq_ok.mp hchecked
    injection h with h
    unfold constantSlot at h
    unfold loadArg constantOperand
    split at h
    · simp only [show ¬ stored < 256 by omega, ↓reduceIte]
      omega
    · simp only [show stored < 256 by omega, ↓reduceIte]
      omega
  · next huse =>
    obtain ⟨hmin, hmax, hstored⟩ := store_eq_ok.mp h
    have hmaxB : (maxB : Int) = 511 := rfl
    have hload : loadArg use stored = stored := by
      unfold loadArg
      split
      · simp_all
      · rfl
    rw [hload]
    omega

/-- Packing an instruction loses only what its layout does not carry. -/
theorem decode_encode {i : Instruction} {word : UInt32} (h : i.encode = .ok word) :
    decode word = .ok i.kept := by
  have hnumber := i.op.number_lt
  have hop := i.op.ofNumber?_number
  unfold encode at h
  unfold kept
  split at h
  next hlayout =>
    obtain ⟨a, ha, h⟩ := except_bind_eq_ok.mp h
    obtain ⟨b, hb, h⟩ := except_bind_eq_ok.mp h
    obtain ⟨c, hc, h⟩ := except_bind_eq_ok.mp h
    obtain ⟨hamin, hamax, hastored⟩ := store_eq_ok.mp ha
    obtain ⟨hblt, hbload⟩ := loadArg_of_storeArg hb
    obtain ⟨hclt, hcload⟩ := loadArg_of_storeArg hc
    have hmaxA : (maxA : Int) = 255 := rfl
    injection h with h
    have hbits : word.toNat = i.op.number + 64 * a + 16384 * c + 8388608 * b := by
      rw [← h, UInt32.toNat_ofNat']
      omega
    have hfields : word.toNat % 64 = i.op.number ∧ word.toNat / 64 % 256 = a ∧
        word.toNat / 8388608 = b ∧ word.toNat / 16384 % 512 = c := by
      omega
    obtain ⟨hopBits, haBits, hbBits, hcBits⟩ := hfields
    simp only [decode, hopBits, hop, hlayout, haBits, hbBits, hcBits, hbload, hcload]
    rw [show (a : Int) = i.a by omega]
  next hlayout =>
    obtain ⟨a, ha, h⟩ := except_bind_eq_ok.mp h
    obtain ⟨b, hb, h⟩ := except_bind_eq_ok.mp h
    obtain ⟨hamin, hamax, hastored⟩ := store_eq_ok.mp ha
    obtain ⟨hbmin, hbmax, hbstored⟩ := store_eq_ok.mp hb
    have hmaxA : (maxA : Int) = 255 := rfl
    have hmaxBx : (maxBx : Int) = 262143 := rfl
    injection h with h
    have hbits : word.toNat = i.op.number + 64 * a + 16384 * b := by
      rw [← h, UInt32.toNat_ofNat']
      omega
    have hfields : word.toNat % 64 = i.op.number ∧ word.toNat / 64 % 256 = a ∧
        word.toNat / 16384 = b := by
      omega
    obtain ⟨hopBits, haBits, hbBits⟩ := hfields
    simp only [decode, hopBits, hop, hlayout, haBits, hbBits]
    rw [show (a : Int) = i.a by omega, show (b : Int) = i.b by omega]
  next hlayout =>
    obtain ⟨a, ha, h⟩ := except_bind_eq_ok.mp h
    obtain ⟨b, hb, h⟩ := except_bind_eq_ok.mp h
    obtain ⟨hamin, hamax, hastored⟩ := store_eq_ok.mp ha
    obtain ⟨hbmin, hbmax, hbstored⟩ := store_eq_ok.mp hb
    have hmaxA : (maxA : Int) = 255 := rfl
    have hmaxBx : (maxBx : Int) = 262143 := rfl
    have hbias : (biasSBx : Int) = 131071 := rfl
    injection h with h
    have hbits : word.toNat = i.op.number + 64 * a + 16384 * b := by
      rw [← h, UInt32.toNat_ofNat']
      omega
    have hfields : word.toNat % 64 = i.op.number ∧ word.toNat / 64 % 256 = a ∧
        word.toNat / 16384 = b := by
      omega
    obtain ⟨hopBits, haBits, hbBits⟩ := hfields
    simp only [decode, hopBits, hop, hlayout, haBits, hbBits]
    rw [show (a : Int) = i.a by omega, show (b : Int) - biasSBx = i.b by omega]
  next hlayout =>
    obtain ⟨a, ha, h⟩ := except_bind_eq_ok.mp h
    obtain ⟨hamin, hamax, hastored⟩ := store_eq_ok.mp ha
    have hmaxAx : (maxAx : Int) = 67108863 := rfl
    injection h with h
    have hbits : word.toNat = i.op.number + 64 * a := by
      rw [← h, UInt32.toNat_ofNat']
      omega
    have hfields : word.toNat % 64 = i.op.number ∧ word.toNat / 64 = a := by
      omega
    obtain ⟨hopBits, haBits⟩ := hfields
    simp only [decode, hopBits, hop, hlayout, haBits]
    rw [show (a : Int) = i.a by omega]

theorem storeArg_eq_error {i : Instruction} {field : Field} {use : ArgUse} {value : Int}
    {error : Error} (h : i.storeArg field use value = .error error) :
    ∃ fault, error = .outOfRange fault := by
  unfold storeArg at h
  split at h
  · rcases except_bind_eq_error.mp h with h | ⟨_, _, h⟩
    · exact ⟨_, store_eq_error h⟩
    · simp at h
  · exact ⟨_, store_eq_error h⟩

theorem encode_eq_error {i : Instruction} {error : Error} (h : i.encode = .error error) :
    ∃ fault, error = .outOfRange fault := by
  unfold encode at h
  split at h
  · rcases except_bind_eq_error.mp h with h | ⟨_, _, h⟩
    · exact ⟨_, store_eq_error h⟩
    · rcases except_bind_eq_error.mp h with h | ⟨_, _, h⟩
      · exact storeArg_eq_error h
      · rcases except_bind_eq_error.mp h with h | ⟨_, _, h⟩
        · exact storeArg_eq_error h
        · simp at h
  · rcases except_bind_eq_error.mp h with h | ⟨_, _, h⟩
    · exact ⟨_, store_eq_error h⟩
    · rcases except_bind_eq_error.mp h with h | ⟨_, _, h⟩
      · exact ⟨_, store_eq_error h⟩
      · simp at h
  · rcases except_bind_eq_error.mp h with h | ⟨_, _, h⟩
    · exact ⟨_, store_eq_error h⟩
    · rcases except_bind_eq_error.mp h with h | ⟨_, _, h⟩
      · exact ⟨_, store_eq_error h⟩
      · simp at h
  · rcases except_bind_eq_error.mp h with h | ⟨_, _, h⟩
    · exact ⟨_, store_eq_error h⟩
    · simp at h

theorem within_eq_error {i : Instruction} {field : Field} {index : Int} {size : Nat}
    {error : Error} (h : i.within field index size = .error error) :
    ∃ fault, error = .outOfRange fault := by
  unfold within at h
  split at h
  · simp at h
  · injection h with h
    exact ⟨_, h.symm⟩

theorem withinConstants_eq_error {i : Instruction} {tables : Tables} {use : ArgUse}
    {operand : Int} {error : Error} (h : i.withinConstants tables use operand = .error error) :
    ∃ fault, error = .outOfRange fault := by
  unfold withinConstants at h
  split at h
  · exact within_eq_error h
  · simp at h

theorem checkEntry_eq_error {i : Instruction} {tables : Tables} {previous : Option Instruction}
    {error : Error} (h : i.checkEntry tables previous = .error error) :
    ∃ fault, error = .outOfRange fault := by
  unfold checkEntry at h
  split at h
  all_goals first
    | exact within_eq_error h
    | simp at h
    | skip
  split at h
  · exact within_eq_error h
  · simp at h

theorem accept_eq_error {i : Instruction} {tables : Tables} {previous : Option Instruction}
    {error : Error} (h : i.accept tables previous = .error error) :
    ∃ fault, error = .outOfRange fault := by
  rcases except_bind_eq_error.mp h with h | ⟨_, _, h⟩
  · exact encode_eq_error h
  rcases except_bind_eq_error.mp h with h | ⟨_, _, h⟩
  · exact checkEntry_eq_error h
  rcases except_bind_eq_error.mp h with h | ⟨_, _, h⟩
  · exact withinConstants_eq_error h
  rcases except_bind_eq_error.mp h with h | ⟨_, _, h⟩
  · exact withinConstants_eq_error h
  · simp at h

theorem encode_of_accept {i : Instruction} {tables : Tables} {previous : Option Instruction}
    {word : UInt32} (h : i.accept tables previous = .ok word) : i.encode = .ok word := by
  obtain ⟨encoded, hencode, h⟩ := except_bind_eq_ok.mp h
  obtain ⟨-, -, h⟩ := except_bind_eq_ok.mp h
  obtain ⟨-, -, h⟩ := except_bind_eq_ok.mp h
  obtain ⟨-, -, h⟩ := except_bind_eq_ok.mp h
  injection h with h
  rw [hencode, h]

end RegisterCode.Instruction
