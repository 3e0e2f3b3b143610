import RegisterCode.Proofs.BuilderChanges
import RegisterCode.Proofs.WordCodec

/-! What operations on code come to. Each one places, cuts off or exchanges instructions,
or it is refused and the function is as it was. -/
namespace RegisterCode

open Action

theorem Action.get_bind_apply {σ α : Type} (next : σ → Action σ α) (state : σ) :
    (get >>= next) state = next state state :=
  rfl

theorem Action.modify_bind_apply {σ α : Type} (change : σ → σ) (next : PUnit → Action σ α)
    (state : σ) : (modify change >>= next) state = next ⟨⟩ (change state) :=
  rfl

theorem Action.after_map_of_ok {σ α β : Type} {action : Action σ α} {state next : σ} {value : α}
    {change : α → β} (h : action state = .ok value next) :
    (change <$> action).after state = next :=
  (after_map change action state).trans (after_of_ok h)

theorem Action.after_map_of_error {σ α β : Type} {action : Action σ α} {state next : σ}
    {error : Error} {change : α → β} (h : action state = .error error next) :
    (change <$> action).after state = next :=
  (after_map change action state).trans (after_of_error h)

namespace Instruction

theorem accept_eq {i : Instruction} (h : i.op.layout ≠ .abc) (tables : Tables)
    (previous : Option Instruction) :
    i.accept tables previous =
      (i.encode >>= fun word => i.checkEntry tables previous >>= fun _ => .ok word) := by
  unfold accept withinConstants
  simp only [h, false_and, ↓reduceIte]
  rfl

theorem accept_wideLoad (register : UInt8) (line : UInt32) (tables : Tables)
    (previous : Option Instruction) :
    ∃ word, accept { op := .loadKX, a := register.toNat, line } tables previous = .ok word := by
  have hlt := register.toNat_lt
  obtain ⟨word, hword⟩ : ∃ word,
      encode { op := .loadKX, a := register.toNat, line } = .ok word := by
    rw [encode_isOk_iff]
    simp only [slots, Opcode.layout, Opcode.traits, List.mem_cons, List.not_mem_nil, or_false,
      forall_eq_or_imp, forall_eq, Slot.InRange]
    omega
  refine ⟨word, ?_⟩
  rw [accept_eq (show Opcode.loadKX.layout ≠ .abc by decide), hword]
  rfl

theorem accept_extraArg {load : Instruction} (hload : load.op = .loadKX) {slot : Nat}
    (hslot : slot ≤ maxAx) (line : UInt32) (tables : Tables) :
    (∃ word, accept { op := .extraArg, a := slot, line } tables (some load) = .ok word) ↔
      slot < tables.constants := by
  obtain ⟨word, hword⟩ : ∃ word, encode { op := .extraArg, a := slot, line } = .ok word := by
    unfold maxAx at hslot
    rw [encode_isOk_iff]
    simp only [slots, Opcode.layout, Opcode.traits, List.mem_cons, List.not_mem_nil, or_false,
      forall_eq, Slot.InRange]
    omega
  have hentry : checkEntry { op := .extraArg, a := slot, line } tables (some load) =
      within { op := .extraArg, a := slot, line } .constant slot tables.constants := by
    simp [checkEntry, hload]
  rw [accept_eq (show Opcode.extraArg.layout ≠ .abc by decide), hword, hentry, within]
  by_cases hlt : slot < tables.constants
  · simp [hlt, bind, Except.bind]
  · simp [hlt, bind, Except.bind]

end Instruction

namespace FunctionBuilder

variable {f f' : FunctionBuilder} {error : Error}

theorem emit_cases (i : Instruction) (f : FunctionBuilder) :
    (∃ word, (f.stamped i).accept f.tables f.listing.getLast? = .ok word ∧
      emit i f = .ok f.pc (f.placed [f.stamped i])) ∨
      ∃ error, (f.stamped i).accept f.tables f.listing.getLast? = .error error ∧
        emit i f = .error error f := by
  unfold emit
  rw [onCode_apply, listing, Array.getLast?_toList]
  unfold Code.append
  cases haccept : (f.stamped i).accept f.tables f.code.instructions.back? with
  | error error =>
    simp only [stamped, line] at haccept
    simp only [haccept]
    exact .inr ⟨error, rfl, rfl⟩
  | ok word =>
    simp only [stamped, line] at haccept
    simp only [haccept]
    exact .inl ⟨word, rfl, by simp [placed, stamped, pc, line]⟩

theorem jump_eq (f : FunctionBuilder) :
    jump f = .ok f.pc (f.placed [f.stamped { op := .jmp }]) := by
  rcases emit_cases { op := .jmp } f with ⟨-, -, hrun⟩ | ⟨error, hrefused, -⟩
  · exact hrun
  · have haccept : (f.stamped { op := .jmp }).accept f.tables f.listing.getLast? = .ok _ := rfl
    rw [haccept] at hrefused
    simp at hrefused

theorem loadConstant_eq_emit {slot : Nat} (h : slot ≤ Instruction.maxBx) (register : UInt8)
    (f : FunctionBuilder) :
    loadConstant register slot f = emit { op := .loadK, a := register.toNat, b := slot } f := by
  unfold loadConstant
  rw [if_pos h]

/-- A wide load comes to two instructions, or to the first of them if there is no such
constant. -/
theorem loadConstant_wide {slot : Nat} (hlarge : Instruction.maxBx < slot)
    (hslot : slot ≤ Instruction.maxAx) (register : UInt8) (f : FunctionBuilder) :
    (slot < f.constants.size ∧
      loadConstant register slot f = .ok f.pc (f.placed (f.constantLoad register slot))) ∨
      f.constants.size ≤ slot ∧ ∃ error, loadConstant register slot f =
        .error error (f.placed [f.stamped { op := .loadKX, a := register.toNat }]) := by
  unfold loadConstant constantLoad
  rw [if_neg (by omega), if_pos hslot, if_neg (by omega), bind_apply]
  rcases emit_cases { op := .loadKX, a := register.toNat } f with ⟨_, -, hload⟩ | ⟨_, hrefused, -⟩
  · rw [hload]
    dsimp only
    rw [bind_apply]
    have haccepted := Instruction.accept_extraArg
      (show (f.stamped { op := .loadKX, a := register.toNat }).op = .loadKX from rfl) hslot f.line
      f.tables
    have hlast : (f.placed [f.stamped { op := .loadKX, a := register.toNat }]).listing.getLast? =
        some (f.stamped { op := .loadKX, a := register.toNat }) := by simp
    rcases emit_cases { op := .extraArg, a := slot } (f.placed _) with
      ⟨word, haccept, hextra⟩ | ⟨error, hrefused, hextra⟩
    · rw [hlast] at haccept
      rw [hextra]
      refine .inl ⟨haccepted.mp ⟨word, haccept⟩, ?_⟩
      rw [placed_placed]
      rfl
    · rw [hlast] at hrefused
      rw [hextra]
      refine .inr ⟨Nat.not_lt.mp fun hlt => ?_, error, rfl⟩
      obtain ⟨word, haccept⟩ := haccepted.mpr hlt
      exact absurd (hrefused.symm.trans haccept) (by simp)
  · obtain ⟨word, haccept⟩ :=
      Instruction.accept_wideLoad register f.line f.tables f.listing.getLast?
    rw [stamped, haccept] at hrefused
    simp at hrefused

theorem loadConstant_eq_error {slot : Nat} (h : Instruction.maxAx < slot) (register : UInt8)
    (f : FunctionBuilder) : ∃ error, loadConstant register slot f = .error error f := by
  have hwide : Instruction.maxBx < Instruction.maxAx := by decide
  unfold loadConstant
  rw [if_neg (by omega), if_neg (by omega)]
  exact ⟨_, rfl⟩

theorem replace_cases (index : Nat) (i : Instruction) (f : FunctionBuilder) :
    (∃ old, f.listing[index]? = some old ∧
      replace index i f = .ok () (f.replaced index { i with line := old.line })) ∨
      ∃ error, replace index i f = .error error f := by
  have hget : f.code.get? index = f.listing[index]? := by simp [listing, Code.get?]
  unfold replace
  rw [onCode_apply]
  unfold Code.replace
  rw [hget]
  cases f.listing[index]? with
  | none => exact .inr ⟨_, rfl⟩
  | some old =>
    dsimp only
    cases Instruction.accept { i with line := old.line } f.tables (f.code.before? index) with
    | error error => exact .inr ⟨error, rfl⟩
    | ok word => exact .inl ⟨old, rfl, rfl⟩

theorem dropLast_cases (f : FunctionBuilder) :
    (f.pc = 0 ∧ dropLast f = .ok none f) ∨
      (f.pc - 1 ∈ f.loops.parked ∧ ∃ error, dropLast f = .error error f) ∨
      0 < f.pc ∧ f.pc - 1 ∉ f.loops.parked ∧ ∃ last f', dropLast f = .ok last f' ∧
        f'.listing = f.listing.take (f.pc - 1) ∧ f'.loops = f.loops := by
  unfold dropLast
  rw [get_bind_apply]
  by_cases hempty : f.pc = 0
  · rw [if_pos hempty]
    exact .inl ⟨hempty, rfl⟩
  rw [if_neg hempty]
  by_cases hparked : f.loops.isParked (f.pc - 1) = true
  · rw [if_pos hparked]
    exact .inr (.inl ⟨by simpa [Loops.isParked] using hparked, _, rfl⟩)
  · rw [if_neg hparked]
    have hrun : onCode Code.pop f = .ok f.code.instructions.back? { f with code := { f.code with
        instructions := f.code.instructions.pop
        sections := f.code.sections.map (min · f.code.instructions.pop.size) } } := by
      rw [onCode_apply]
      rfl
    dsimp only
    rw [bind_apply, hrun]
    refine .inr (.inr ⟨by omega, by simpa [Loops.isParked] using hparked, _, _, rfl, ?_, rfl⟩)
    simp [clampRanges, listing, List.dropLast_eq_take, pc, Code.size]

/-- The jumps that are parked in a section are forgotten before it is cut off, so that
none of them is in the way. -/
theorem discardSection_cases (f : FunctionBuilder) :
    (f.code.sections = [] ∧ ∃ error, discardSection f = .error error f) ∨
      ∃ start outer f', f.code.sections = start :: outer ∧
        discardSection f = .ok (f.pc - start) f' ∧ f'.listing = f.listing.take start ∧
        f'.loops = f.loops.keepBelow start := by
  unfold discardSection
  rw [get_bind_apply]
  cases hsections : f.code.sections with
  | nil =>
    have hstart : f.code.sectionStart? = none := by rw [Code.sectionStart?, hsections]; rfl
    rw [hstart]
    exact .inl ⟨rfl, _, rfl⟩
  | cons start outer =>
    have hnone : (f.loops.keepBelow start).parked.find? (start ≤ ·) = none := by
      rw [Loops.parked_keepBelow, List.find?_eq_none]
      intro p hp
      simpa using (List.mem_filter.mp hp).2
    have hcut : onCode (Code.discardSection (f.loops.keepBelow start).parked)
        { f with loops := f.loops.keepBelow start } = .ok (f.pc - start) { f with
          loops := f.loops.keepBelow start
          code := { f.code with
            instructions := f.code.instructions.take start, sections := outer } } := by
      rw [onCode_apply]
      simp only [Code.discardSection, hsections, hnone]
      rfl
    have hstart : f.code.sectionStart? = some start := by rw [Code.sectionStart?, hsections]; rfl
    rw [hstart]
    dsimp only
    rw [modify_bind_apply, get_bind_apply, bind_apply, hcut]
    refine .inr ⟨start, outer, _, rfl, rfl, ?_, rfl⟩
    simp [clampRanges, listing]

theorem breakLoop_cases (f : FunctionBuilder) :
    (f.loops.stack = [] ∧ ∃ error, breakLoop f = .error error f) ∨
      ∃ loop outer, f.loops.stack = loop :: outer ∧
        breakLoop f = .ok () { f.placed [f.stamped { op := .jmp }] with
          loops := ⟨{ loop with breaks := loop.breaks ++ [f.pc] } :: outer⟩ } := by
  unfold breakLoop
  rw [get_bind_apply]
  cases hstack : f.loops.stack with
  | nil =>
    rw [if_neg (by simp [Loops.anyOpen, hstack])]
    exact .inl ⟨rfl, _, rfl⟩
  | cons loop outer =>
    rw [if_pos (by simp [Loops.anyOpen, hstack]), bind_apply, jump_eq]
    dsimp only
    rw [onLoops_apply]
    simp only [placed, Loops.parkBreak, Loops.onInnermost, hstack]
    exact .inr ⟨loop, outer, rfl, rfl⟩

theorem continueLoop_cases (f : FunctionBuilder) :
    (f.loops.stack = [] ∧ ∃ error, continueLoop f = .error error f) ∨
      ∃ loop outer, f.loops.stack = loop :: outer ∧
        (loop.continueTarget = none ∧
          continueLoop f = .ok () { f.placed [f.stamped { op := .jmp }] with
            loops := ⟨{ loop with continues := loop.continues ++ [f.pc] } :: outer⟩ } ∨
        ∃ target, loop.continueTarget = some target ∧
          (continueLoop f = .ok () (f.placed [f.jumpBack target]) ∨
            ∃ error, continueLoop f = .error error f)) := by
  unfold continueLoop
  rw [get_bind_apply]
  cases hstack : f.loops.stack with
  | nil =>
    have hnone : f.loops.continueTarget = .error (.unresolved .loopTarget "continue") := by
      rw [Loops.continueTarget, hstack]
    rw [hnone]
    exact .inl ⟨rfl, _, rfl⟩
  | cons loop outer =>
    have hsome : f.loops.continueTarget = .ok loop.continueTarget := by
      rw [Loops.continueTarget, hstack]
    rw [hsome, bind_apply]
    refine .inr ⟨loop, outer, rfl, ?_⟩
    dsimp only [Action.ofExcept]
    cases htarget : loop.continueTarget with
    | none =>
      dsimp only
      rw [bind_apply, jump_eq]
      dsimp only
      rw [onLoops_apply]
      refine .inl ⟨rfl, ?_⟩
      simp only [placed, Loops.parkContinue, Loops.onInnermost, hstack, htarget]
    | some target =>
      refine .inr ⟨target, rfl, ?_⟩
      dsimp only
      rw [bind_apply, jumpTo_eq_emit]
      rcases emit_cases { op := .jmp, b := Code.displacement f.pc target } f with
        ⟨word, -, hrun⟩ | ⟨error, -, hrun⟩
      · rw [hrun]
        exact .inl rfl
      · rw [hrun]
        exact .inr ⟨error, rfl⟩

end FunctionBuilder

end RegisterCode
