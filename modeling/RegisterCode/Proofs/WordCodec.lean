import RegisterCode.Proofs.WordFormat

/-! Words and instructions determine each other. An instruction has a word exactly
if all operands that its layout carries are in range, and every word whose opcode
exists is the word of the instruction that is read from it. -/
namespace RegisterCode.Instruction

structure Slot where
  field : Field
  min : Int
  max : Int
  value : Int
deriving DecidableEq

def Slot.InRange (s : Slot) : Prop :=
  s.min ≤ s.value ∧ s.value ≤ s.max

instance (s : Slot) : Decidable s.InRange :=
  inferInstanceAs (Decidable (_ ∧ _))

/-- A register-or-constant operand has nine bits with a sign, any other one nine
bits without. -/
def argSlot (field : Field) (use : ArgUse) (value : Int) : Slot :=
  match use with
  | .registerOrConstant => ⟨field, -256, 255, value⟩
  | _ => ⟨field, 0, 511, value⟩

def slots (i : Instruction) : List Slot :=
  match i.op.layout with
  | .abc => [⟨.a, 0, 255, i.a⟩, argSlot .b i.op.argB i.b, argSlot .c i.op.argC i.c]
  | .abx => [⟨.a, 0, 255, i.a⟩, ⟨.bx, 0, 262143, i.b⟩]
  | .asbx => [⟨.a, 0, 255, i.a⟩, ⟨.sbx, -131071, 131072, i.b⟩]
  | .ax => [⟨.ax, 0, 67108863, i.a⟩]

def refusal (i : Instruction) (s : Slot) : Error :=
  i.fault s.field s.value s.min s.max

def firstFault? (slots : List Slot) : Option Slot :=
  slots.find? fun s => ¬ s.InRange

theorem firstFault?_eq_none {slots : List Slot} :
    firstFault? slots = none ↔ ∀ s ∈ slots, s.InRange := by
  simp [firstFault?]

/-- The outcome is a value if all slots are in range, and else the refusal of the
first one that is not. -/
def Checks (i : Instruction) (slots : List Slot) {α : Type} (outcome : Except Error α) : Prop :=
  match firstFault? slots with
  | none => ∃ value, outcome = .ok value
  | some s => outcome = .error (i.refusal s)

theorem Checks.ok {i : Instruction} {α : Type} (value : α) : i.Checks [] (.ok value) :=
  ⟨value, rfl⟩

theorem Checks.single {i : Instruction} {s : Slot} {α : Type} {outcome : Except Error α} :
    i.Checks [s] outcome ↔
      if s.InRange then ∃ value, outcome = .ok value else outcome = .error (i.refusal s) := by
  by_cases hs : s.InRange <;> simp [Checks, firstFault?, hs]

theorem Checks.bind {i : Instruction} {s : Slot} {rest : List Slot} {α β : Type}
    {first : Except Error α} {next : α → Except Error β} (hfirst : i.Checks [s] first)
    (hnext : ∀ value, i.Checks rest (next value)) : i.Checks (s :: rest) (first >>= next) := by
  rw [Checks.single] at hfirst
  by_cases hs : s.InRange
  · simp only [hs, ↓reduceIte] at hfirst
    obtain ⟨value, rfl⟩ := hfirst
    have hfault : firstFault? (s :: rest) = firstFault? rest := by simp [firstFault?, hs]
    unfold Checks
    rw [hfault]
    exact hnext value
  · simp only [hs, ↓reduceIte] at hfirst
    subst hfirst
    have hfault : firstFault? (s :: rest) = some s := by simp [firstFault?, hs]
    unfold Checks
    rw [hfault]
    rfl

theorem checks_store (i : Instruction) (field : Field) (min max value : Int) :
    i.Checks [⟨field, min, max, value⟩] (i.store field min max value) := by
  rw [Checks.single]
  unfold store Slot.InRange
  split
  · exact ⟨_, rfl⟩
  · rfl

theorem checks_storeArg (i : Instruction) (field : Field) (use : ArgUse) (value : Int) :
    i.Checks [argSlot field use value] (i.storeArg field use value) := by
  cases use with
  | registerOrConstant => exact (checks_store i field (-256) 255 value).bind fun _ => .ok _
  | unused | count | register => exact checks_store i field 0 511 value

theorem checks_encode (i : Instruction) : i.Checks i.slots i.encode := by
  have ha := checks_store i .a 0 255 i.a
  cases hlayout : i.op.layout with
  | abc =>
    simp only [slots, encode, hlayout]
    exact ha.bind fun _ => (checks_storeArg i .b i.op.argB i.b).bind fun _ =>
      (checks_storeArg i .c i.op.argC i.c).bind fun _ => .ok _
  | abx =>
    simp only [slots, encode, hlayout]
    exact ha.bind fun _ => (checks_store i .bx 0 262143 i.b).bind fun _ => .ok _
  | asbx =>
    simp only [slots, encode, hlayout]
    exact ha.bind fun _ => (checks_store i .sbx (-131071) 131072 i.b).bind fun _ => .ok _
  | ax =>
    simp only [slots, encode, hlayout]
    exact (checks_store i .ax 0 67108863 i.a).bind fun _ => .ok _

theorem encode_isOk_iff {i : Instruction} :
    (∃ word, i.encode = .ok word) ↔ ∀ s ∈ i.slots, s.InRange := by
  have h := checks_encode i
  unfold Checks at h
  rw [← firstFault?_eq_none]
  cases hfault : firstFault? i.slots with
  | none =>
    rw [hfault] at h
    simpa using h
  | some s =>
    rw [hfault] at h
    simp [h]

theorem encode_eq_error_iff {i : Instruction} {error : Error} :
    i.encode = .error error ↔ ∃ s, firstFault? i.slots = some s ∧ error = i.refusal s := by
  have h := checks_encode i
  unfold Checks at h
  cases hfault : firstFault? i.slots with
  | none =>
    rw [hfault] at h
    obtain ⟨word, h⟩ := h
    simp [h]
  | some s =>
    rw [hfault] at h
    simp [h, eq_comm]

theorem store_of_nat {i : Instruction} {field : Field} {min max value : Int} {bits : Nat}
    (hvalue : value = min + bits) (hmax : value ≤ max) :
    i.store field min max value = .ok bits :=
  store_eq_ok.mpr ⟨by omega, hmax, by omega⟩

theorem storeArg_loadArg (i : Instruction) (field : Field) {use : ArgUse} {bits : Nat}
    (hbits : bits < 512) : i.storeArg field use (loadArg use bits) = .ok bits := by
  cases use with
  | registerOrConstant =>
    -- the upper half of the bits counts the constants down from −1
    have hload : loadArg .registerOrConstant bits =
        if bits < 256 then (bits : Int) else 255 - bits := by
      unfold loadArg constantOperand
      split <;> omega
    rw [hload]
    refine except_bind_eq_ok.mpr ⟨_, store_eq_ok.mpr ⟨?_, ?_, rfl⟩, congrArg Except.ok ?_⟩
    · split <;> omega
    · split <;> omega
    · unfold constantSlot
      split <;> split <;> omega
  | unused | count | register =>
    exact store_of_nat (by simp [loadArg]) (by simp only [loadArg, maxB]; omega)

theorem encode_decode {i : Instruction} {word : UInt32} (h : decode word = .ok i) :
    i.encode = .ok word := by
  have hword := word.toNat_lt
  have hsame : ∀ bits, bits = word.toNat →
      (.ok (UInt32.ofNat bits) : Except Error UInt32) = .ok word := by
    rintro _ rfl
    rw [UInt32.ofNat_toNat]
  unfold decode at h
  dsimp only at h
  split at h
  · simp at h
  next op hop =>
    have hnumber := Opcode.number_of_ofNumber? hop
    injection h with h
    subst h
    have ha : ∀ i : Instruction,
        i.store .a 0 maxA (word.toNat / 64 % 256 : Nat) = .ok (word.toNat / 64 % 256) := by
      intro i
      exact store_of_nat (by omega) (by unfold maxA; omega)
    cases hlayout : op.layout with
    | abc =>
      simp only [encode, hlayout]
      refine except_bind_eq_ok.mpr ⟨_, ha _, ?_⟩
      refine except_bind_eq_ok.mpr ⟨_, storeArg_loadArg _ _ (by omega), ?_⟩
      refine except_bind_eq_ok.mpr ⟨_, storeArg_loadArg _ _ (by omega), ?_⟩
      exact hsame _ (by omega)
    | abx =>
      simp only [encode, hlayout]
      refine except_bind_eq_ok.mpr ⟨_, ha _, ?_⟩
      refine except_bind_eq_ok.mpr ⟨word.toNat / 16384, store_of_nat ?_ ?_, hsame _ (by omega)⟩
      · omega
      · unfold maxBx
        omega
    | asbx =>
      simp only [encode, hlayout]
      refine except_bind_eq_ok.mpr ⟨_, ha _, ?_⟩
      refine except_bind_eq_ok.mpr ⟨word.toNat / 16384, store_of_nat ?_ ?_, hsame _ (by omega)⟩
      · omega
      · unfold maxBx
        omega
    | ax =>
      simp only [encode, hlayout]
      refine except_bind_eq_ok.mpr ⟨word.toNat / 64, store_of_nat ?_ ?_, hsame _ (by omega)⟩
      · omega
      · unfold maxAx
        omega

theorem decode_isOk_iff {word : UInt32} :
    (∃ i, decode word = .ok i) ↔ word.toNat % 64 < 47 := by
  have hexists : (∃ op, Opcode.ofNumber? (word.toNat % 64) = some op) ↔
      word.toNat % 64 < 47 := by
    rw [← Option.isSome_iff_exists, Opcode.ofNumber?, isSome_getElem?]
    rfl
  rw [← hexists]
  unfold decode
  dsimp only
  cases Opcode.ofNumber? (word.toNat % 64) with
  | none => simp
  | some op => simp

/-- Packing and unpacking are inverse to each other: an instruction is packed exactly
if its operands are in range, else the first of them that is not is named, and a word
is unpacked exactly if its opcode exists. -/
theorem encode_decode_inverse :
    (∀ i : Instruction,
      ((∃ word, i.encode = .ok word) ↔ ∀ s ∈ i.slots, s.InRange) ∧
      (∀ error, i.encode = .error error ↔
        ∃ s, firstFault? i.slots = some s ∧ error = i.refusal s) ∧
      ∀ word, i.encode = .ok word → decode word = .ok i.kept) ∧
    ∀ word : UInt32,
      ((∃ i, decode word = .ok i) ↔ word.toNat % 64 < 47) ∧
      ∀ i, decode word = .ok i → i.encode = .ok word :=
  ⟨fun _ => ⟨encode_isOk_iff, fun _ => encode_eq_error_iff, fun _ => decode_encode⟩,
    fun _ => ⟨decode_isOk_iff, fun _ => encode_decode⟩⟩

/-- All three operands at an end of their ranges. -/
theorem encode_decode_inverse_ends :
    (⟨.add, 255, -256, 255, 7⟩ : Instruction).encode = .ok 4290772941 ∧
      decode 4290772941 = .ok ⟨.add, 255, -256, 255, 0⟩ ∧
      (⟨.add, 255, -256, 255, 0⟩ : Instruction).encode = .ok 4290772941 := by
  have hpack : (⟨.add, 255, -256, 255, 7⟩ : Instruction).encode = .ok 4290772941 := by rfl
  have hunpack := (encode_decode_inverse.1 _).2.2 _ hpack
  exact ⟨hpack, hunpack, (encode_decode_inverse.2 _).2 _ hunpack⟩

end RegisterCode.Instruction
