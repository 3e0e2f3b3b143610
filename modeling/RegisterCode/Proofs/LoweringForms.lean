import RegisterCode.Lowering
import RegisterCode.Proofs.Outcomes

/-! The steps of lowering in the forms that proofs follow. What was brought into a register
is in one, and what was shortened is short, so asking for the register or for the field
cannot fail; and a name stands for nothing but a register, an upvalue or a global. -/
namespace RegisterCode

open Action

namespace Lower
open ChunkBuilder

theorem inPlace_eq_ok {compute : UInt8 → Lower Unit} {dest : Option UInt8} {operand : Operand}
    {b b' : ChunkBuilder} :
    inPlace compute dest b = .ok operand b' ↔ ∃ target b₁, place dest b = .ok target b₁ ∧
      compute target b₁ = .ok () b' ∧ operand = .register target := by
  simp only [inPlace, bind_eq_ok, pure_eq_ok]
  constructor
  · rintro ⟨target, b₁, hplace, _, b₂, hcompute, rfl, rfl⟩
    exact ⟨target, b₁, hplace, hcompute, rfl⟩
  · rintro ⟨target, b₁, hplace, hcompute, rfl⟩
    exact ⟨target, b₁, hplace, (), b', hcompute, rfl, rfl⟩

theorem free_eq {operand : Operand} {b b' : ChunkBuilder} (hrun : free operand b = .ok () b') :
    ∃ next, b' = { b with current := { b.current with nextFree := next } } := by
  cases operand with
  | register register =>
    simp only [free, onCurrent_apply, FunctionBuilder.free] at hrun
    split at hrun
    · next current hfree =>
      injection hrun with _ hstate
      split at hfree
      · injection hfree with _ hcurrent
        exact ⟨b.current.nextFree, by rw [← hstate, ← hcurrent]⟩
      · split at hfree
        · simp at hfree
        · split at hfree
          · simp at hfree
          · injection hfree with _ hcurrent
            exact ⟨register.toNat, by rw [← hstate, ← hcurrent]⟩
    · simp at hrun
  | _ =>
    obtain ⟨-, rfl⟩ := pure_eq_ok.mp hrun
    exact ⟨b.current.nextFree, rfl⟩

theorem registerOf_register (index : UInt8) : registerOf (.register index) = pure index :=
  rfl

def toRegister (operand : Operand) : Lower UInt8 := do
  registerOf (← inRegister operand)

theorem toRegister_register (index : UInt8) : toRegister (.register index) = pure index :=
  rfl

theorem toRegister_of_ne {operand : Operand} (h : ∀ index, operand ≠ .register index) :
    toRegister operand = (do
      let target ← allocate
      load operand target
      return target) := by
  unfold toRegister
  rw [inRegister]
  · simp only [bind_assoc, pure_bind, registerOf_register]
  · exact h

theorem toRegister_cases (operand : Operand) :
    (∃ index, operand = .register index ∧ toRegister operand = pure index) ∨
      toRegister operand = (do
        let target ← allocate
        load operand target
        return target) := by
  by_cases h : ∃ index, operand = .register index
  · obtain ⟨index, rfl⟩ := h
    exact .inl ⟨index, rfl, rfl⟩
  · exact .inr (toRegister_of_ne (not_exists.mp h))

theorem inRegister_eq (operand : Operand) :
    inRegister operand = (do return .register (← toRegister operand)) := by
  by_cases h : ∃ index, operand = .register index
  · obtain ⟨index, rfl⟩ := h
    rfl
  · rw [not_exists] at h
    rw [toRegister_of_ne h, inRegister]
    · simp only [bind_assoc, pure_bind]
    · exact h

theorem inRegister_bind {α : Type} (operand : Operand) (next : Operand → UInt8 → Lower α) :
    (do
      let value ← inRegister operand
      let register ← registerOf value
      next value register) = (do
      let register ← toRegister operand
      next (.register register) register) := by
  simp only [inRegister_eq, bind_assoc, pure_bind, registerOf_register]

/-- A field of an instruction that holds a short operand, and the operand that is to be
released after its use. -/
structure Short where
  field : Int
  holder : Operand
  isShort : holder.short? = some field
deriving DecidableEq

namespace Short

def register (index : UInt8) : Short :=
  ⟨index.toNat, .register index, rfl⟩

theorem shortOf_holder (short : Short) : shortOf short.holder = pure short.field := by
  unfold shortOf
  rw [short.isShort]

end Short

def toShort (operand : Operand) : Lower Short :=
  match h : operand.short? with
  | some field => pure ⟨field, operand, h⟩
  | none => do return .register (← toRegister operand)

theorem toShort_of_some {operand : Operand} {field : Int} (h : operand.short? = some field) :
    toShort operand = pure ⟨field, operand, h⟩ := by
  unfold toShort
  split
  · next field' h' =>
    have hsame : field' = field := Option.some.inj (h'.symm.trans h)
    subst hsame
    rfl
  · next h' => simp [h] at h'

theorem toShort_of_none {operand : Operand} (h : operand.short? = none) :
    toShort operand = (do return .register (← toRegister operand)) := by
  unfold toShort
  split
  · next field h' => simp [h] at h'
  · rfl

theorem toShort_cases (operand : Operand) :
    (∃ short : Short, short.holder = operand ∧ toShort operand = pure short) ∨
      toShort operand = (do return .register (← toRegister operand)) := by
  cases h : operand.short? with
  | some field => exact .inl ⟨⟨field, operand, h⟩, rfl, toShort_of_some h⟩
  | none => exact .inr (toShort_of_none h)

theorem shortened_eq (operand : Operand) :
    shortened operand = (do return (← toShort operand).holder) := by
  unfold shortened
  cases h : operand.short? with
  | some field => rw [toShort_of_some h, pure_bind]
  | none =>
    rw [toShort_of_none h]
    simp only [inRegister_eq, bind_assoc, pure_bind]
    rfl

def toKey (name : String) : Lower Short := do
  toShort (← constant (.string name))

theorem toKey_eq (name : String) :
    toKey name = (do
      let slot ← onCurrent (FunctionBuilder.intern (.string name))
      toShort (.constant slot)) := by
  simp only [toKey, constant, bind_assoc, pure_bind]

theorem toShort_constant {slot : UInt32} (h : (Operand.constant slot).short? = none) :
    toShort (.constant slot) = (do
      let target ← allocate
      loadConstant target slot.toNat
      return .register target) := by
  rw [toShort_of_none h, toRegister_of_ne (by simp)]
  simp only [load, bind_assoc, pure_bind]

theorem key_eq (name : String) : key name = (do return (← toKey name).holder) := by
  simp only [key, toKey_eq, bind_assoc]
  apply bind_congr
  intro slot
  cases h : (Operand.constant slot).short? with
  | some field => rw [toShort_of_some h, pure_bind]
  | none =>
    rw [toShort_constant h]
    simp only [bind_assoc, pure_bind]
    rfl

theorem loadGlobal_eq (name : String) (target : UInt8) :
    loadGlobal name target = (do
      let key ← toKey name
      match ← resolve FunctionBuilder.environmentName with
      | .upvalue index =>
        releasing key.holder (emit .getTabUp target.toNat index.toNat key.field)
      | .register index =>
        releasing key.holder (emit .getTable target.toNat index.toNat key.field)
      | .global _ => releasing key.holder (throw noEnvironment)) := by
  simp only [loadGlobal, environment, key_eq, bind_assoc, pure_bind]
  apply bind_congr
  intro key
  apply bind_congr
  intro found
  cases found with
  | register index => simp only [Variable.operand, key.shortOf_holder, pure_bind]
  | upvalue index => simp only [Variable.operand, key.shortOf_holder, pure_bind]
  | global name => rfl

theorem storeGlobal_eq (name : String) (value : Short) :
    storeGlobal name value.holder = (do
      let key ← toKey name
      match ← resolve FunctionBuilder.environmentName with
      | .upvalue index => emit .setTabUp index.toNat key.field value.field
      | .register index => emit .setTable index.toNat key.field value.field
      | .global _ => throw noEnvironment
      free key.holder) := by
  simp only [storeGlobal, environment, key_eq, bind_assoc, pure_bind, Short.shortOf_holder]
  apply bind_congr
  intro key
  apply bind_congr
  intro found
  cases found <;> rfl

theorem shortPair_eq (left right : Lower Operand) :
    shortPair left right = (do
      let left ← toShort (← left)
      let right ← toShort (← right)
      free right.holder
      free left.holder
      return (left.field, right.field)) := by
  simp only [shortPair, shortened_eq, bind_assoc, pure_bind, Short.shortOf_holder]

theorem store_eq (name : String) (isLogical : Bool) (value : Option UInt8 → Lower Operand) :
    store name isLogical value = (do
      match ← resolve name with
      | .register target =>
        if isLogical then
          let stored ← toRegister (← value none)
          load (.register stored) target
          free (.register stored)
        else
          let _ ← value (some target)
        return .register target
      | .upvalue index =>
        let stored ← toRegister (← value none)
        emit .setUpval stored.toNat index.toNat 0
        return .register stored
      | .global name =>
        let stored ← toShort (← value none)
        storeGlobal name stored.holder
        return stored.holder) := by
  unfold store
  apply bind_congr
  intro found
  cases found with
  | register target =>
    cases isLogical <;>
      simp only [Variable.operand, inRegister_eq, bind_assoc, pure_bind, Bool.false_eq_true,
        ↓reduceIte]
  | upvalue index =>
    simp only [Variable.operand, inRegister_eq, bind_assoc, pure_bind, registerOf_register]
  | global name => simp only [Variable.operand, shortened_eq, bind_assoc, pure_bind]

theorem unaryInto_eq (op : UnaryOp) (value : Option UInt8 → Lower Operand) (target : UInt8) :
    unaryInto op value target = (do
      let register ← toRegister (← value none)
      free (.register register)
      emit op.opcode target.toNat register.toNat 0) := by
  simp only [unaryInto, inRegister_bind]

theorem jumpUnless_eq (condition : Lower Operand) :
    jumpUnless condition = (do
      let register ← toRegister (← condition)
      emit .test register.toNat 0 0
      let skip ← jump
      free (.register register)
      return skip) := by
  simp only [jumpUnless, inRegister_bind]

theorem returnValue_eq (value : Lower Operand) :
    returnValue value = (do
      let register ← toRegister (← value)
      emit .ret register.toNat 2 0
      free (.register register)) := by
  simp only [returnValue, inRegister_bind]

section Releasing

variable {operand : Operand} {use : Lower Unit} {b after : ChunkBuilder}

theorem releasing_of_ok (h : use b = .ok () after) :
    releasing operand use b = free operand after := by
  unfold releasing
  rw [h]

theorem releasing_of_error (operand : Operand) {error : Error}
    (h : use b = .error error after) :
    ∃ final b', releasing operand use b = .error final b' ∧
      (free operand after = .ok () b' ∧ final = error ∨
        free operand after = .error final b') := by
  unfold releasing
  cases hfree : free operand after with
  | ok _ freed => exact ⟨error, freed, by simp only [h, hfree], .inl ⟨rfl, rfl⟩⟩
  | error refusal kept => exact ⟨refusal, kept, by simp only [h, hfree], .inr rfl⟩

theorem releasing_eq_ok {b' : ChunkBuilder} :
    releasing operand use b = .ok () b' ↔
      ∃ after, use b = .ok () after ∧ free operand after = .ok () b' := by
  cases hrun : use b with
  | ok value after => simp [releasing_of_ok hrun]
  | error error after =>
    obtain ⟨final, b'', hfails, -⟩ := releasing_of_error operand hrun
    rw [hfails]
    constructor
    · rintro ⟨⟩
    · rintro ⟨_, ⟨⟩, _⟩

theorem releasing_eq_ok_iff {b' : ChunkBuilder} :
    releasing operand use b = .ok () b' ↔ (do use; free operand) b = .ok () b' := by
  rw [releasing_eq_ok, bind_eq_ok]
  constructor
  · rintro ⟨after, huse, hfree⟩
    exact ⟨(), after, huse, hfree⟩
  · rintro ⟨_, after, huse, hfree⟩
    exact ⟨after, huse, hfree⟩

/-- A use that fails without a trace is followed by the release all the same, which then
changes nothing about the failure. -/
theorem releasing_ensures {middle post : Unit → ChunkBuilder → Prop} (huse : use.Ensures b middle)
    (hspares : ∀ error after, use b = .error error after → after = b)
    (hfreed : ∃ freed, free operand b = .ok () freed)
    (hfree : ∀ after, middle () after → (free operand).Ensures after post) :
    (releasing operand use).Ensures b post := by
  cases hrun : use b with
  | ok value after =>
    have hthen := ensures_iff.mp (hfree after (huse.of_ok hrun))
    rw [ensures_iff, releasing_of_ok hrun]
    exact hthen
  | error error after =>
    obtain ⟨freed, hfreed⟩ := hfreed
    obtain ⟨final, b', hfails, ⟨-, rfl⟩ | hrefused⟩ := releasing_of_error operand hrun
    · exact ensures_of_eq_error hfails (huse.of_error hrun)
    · rw [hspares error after hrun, hfreed] at hrefused
      cases hrefused

end Releasing

end Lower

end RegisterCode
