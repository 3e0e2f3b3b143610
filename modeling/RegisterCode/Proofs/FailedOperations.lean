import Mathlib.Algebra.Group.Nat.Defs
import RegisterCode.Proofs.LoopExits

/-! Operations that fail. Nearly all of them leave the function as it was; three stop
halfway, and what they leave then is said exactly. -/
namespace RegisterCode

open Action

namespace Action

variable {σ τ α β : Type} {action : Action σ α} {state : σ}

/-- If the operation fails, the state is as it was. -/
def Spares (action : Action σ α) (state : σ) : Prop :=
  ∀ error after, action state = .error error after → after = state

def Succeeds (action : Action σ α) (state : σ) : Prop :=
  ∃ value after, action state = .ok value after

theorem value?_eq_none (h : action.value? state = none) :
    ∃ error after, action state = .error error after := by
  cases hrun : action state with
  | ok value after => simp [value?, hrun] at h
  | error error after => exact ⟨error, after, rfl⟩

theorem spares_of_eq_error {error : Error} (h : action state = .error error state) :
    action.Spares state := by
  intro error' after hrun
  rw [h] at hrun
  injection hrun with _ hafter
  exact hafter.symm

theorem Succeeds.spares (h : action.Succeeds state) : action.Spares state := by
  obtain ⟨value, after, hok⟩ := h
  intro error after' hrun
  simp [hok] at hrun

theorem Spares.bind {next : α → Action σ β} (h : action.Spares state)
    (hnext : ∀ value middle, action state = .ok value middle → (next value).Succeeds middle) :
    (action >>= next).Spares state := by
  intro error after hrun
  rw [bind_apply] at hrun
  cases hfirst : action state with
  | ok value middle =>
    obtain ⟨value', after', hok⟩ := hnext value middle hfirst
    rw [hfirst] at hrun
    dsimp only at hrun
    rw [hok] at hrun
    cases hrun
  | error error' middle =>
    rw [hfirst] at hrun
    injection hrun with _ hafter
    exact hafter ▸ h _ _ hfirst

theorem Spares.map (h : action.Spares state) (change : α → β) :
    (change <$> action).Spares state := by
  intro error after hrun
  rw [map_apply] at hrun
  cases hfirst : action state with
  | ok value middle => simp [hfirst] at hrun
  | error error' middle =>
    rw [hfirst] at hrun
    injection hrun with _ hafter
    exact hafter ▸ h _ _ hfirst

theorem Spares.focus {part : σ → τ} {put : τ → σ → σ} {hole : τ} {action : Action τ α}
    (h : action.Spares (part state)) (hput : put (part state) (put hole state) = state) :
    (action.focus part put hole).Spares state := by
  intro error after hrun
  unfold Action.focus at hrun
  dsimp only at hrun
  cases hinner : action (part state) with
  | ok value inner => simp [hinner] at hrun
  | error error' inner =>
    rw [hinner] at hrun
    injection hrun with _ hafter
    rw [← hafter, h _ _ hinner, hput]

end Action

theorem Scopes.register?_add {scopes : Scopes} {l : Local} {line : UInt32}
    (h : scopes.checkFresh l.name line = .ok ()) :
    (scopes.add l).register? l.name = some l.register := by
  obtain ⟨_ | ⟨scope, outer⟩, log⟩ := scopes
  · cases h
  · simp [register?, find?, Scope.find?, add]

namespace FunctionBuilder

variable {f f' : FunctionBuilder}

structure Binds (f : FunctionBuilder) (name : String) (register : UInt8) (f' : FunctionBuilder) :
    Prop where
  next : register.toNat = f.nextFree
  taken : f'.nextFree = f.nextFree + 1
  bound : f'.scopes.register? name = some register

theorem onScopes_spares {α : Type} {action : Action Scopes α} (h : action.Spares f.scopes) :
    (onScopes action).Spares f := by
  unfold onScopes
  exact h.focus rfl

theorem onCode_spares {α : Type} {action : Action Code α} (h : action.Spares f.code) :
    (onCode action).Spares f := by
  unfold onCode
  exact h.focus rfl

theorem onLoops_spares {α : Type} {action : Action Loops α} (h : action.Spares f.loops) :
    (onLoops action).Spares f := by
  unfold onLoops
  exact h.focus rfl

theorem allocate_spares (f : FunctionBuilder) : allocate.Spares f := by
  intro error after hrun
  unfold allocate at hrun
  split at hrun
  · cases hrun
  · cases hrun
    rfl

theorem pushTemporary_spares (f : FunctionBuilder) : pushTemporary.Spares f :=
  (allocate_spares f).bind fun _ _ _ => ⟨_, _, rfl⟩

theorem free_spares (register : UInt8) (f : FunctionBuilder) : (free register).Spares f := by
  intro error after hrun
  unfold free at hrun
  split at hrun
  · cases hrun
  split at hrun
  · cases hrun
    rfl
  split at hrun
  · cases hrun
    rfl
  · cases hrun

theorem closeScope_spares (f : FunctionBuilder) : closeScope.Spares f := by
  cases hstack : f.scopes.stack with
  | nil => exact spares_of_eq_error (closeScope_eq_error hstack)
  | cons scope outer => exact Succeeds.spares ⟨_, _, closeScope_apply hstack⟩

theorem bindName_cases (name : String) (startPc : UInt32) (f : FunctionBuilder) :
    (∃ error, bindName name startPc f = .error error f) ∨
      ∃ register f', bindName name startPc f = .ok register f' ∧ f.Binds name register f' := by
  rw [bindName_apply]
  cases hfresh : f.scopes.checkFresh name f.line with
  | error error => exact .inl ⟨error, rfl⟩
  | ok _ =>
    dsimp only
    unfold allocate maxRegisters
    by_cases hfree : f.nextFree < 255
    · rw [if_pos hfree]
      refine .inr ⟨_, _, rfl, ?_, rfl, Scopes.register?_add hfresh⟩
      simp only [UInt8.toNat_ofNat']
      omega
    · rw [if_neg hfree]
      exact .inl ⟨_, rfl⟩

theorem bindLocal_cases (name : String) (f : FunctionBuilder) :
    (∃ error, bindLocal name f = .error error f) ∨
      ∃ register f', bindLocal name f = .ok register f' ∧ f.Binds name register f' :=
  bindName_cases name (.ofNat f.pc) f

theorem bindParameter_cases (name : String) (f : FunctionBuilder) :
    (∃ error, bindParameter name f = .error error f) ∨
      ∃ register f', bindParameter name f = .ok register f' ∧ f.Binds name register f' := by
  unfold bindParameter
  rw [get_bind_apply, bind_apply]
  rcases bindName_cases name f.parameterStart f with
    ⟨error, hrun⟩ | ⟨register, f', hrun, hbinds⟩
  · rw [hrun]
    exact .inl ⟨error, rfl⟩
  · rw [hrun]
    exact .inr ⟨register, _, rfl, hbinds.next, hbinds.taken, hbinds.bound⟩

theorem nameRegister_spares (name : String) (register : UInt8) (f : FunctionBuilder) :
    (nameRegister name register).Spares f := by
  refine onScopes_spares fun error after hrun => ?_
  rw [Scopes.declare_apply] at hrun
  split at hrun
  · cases hrun
    rfl
  · cases hrun

theorem appendUpvalue_spares (up : Capture) (f : FunctionBuilder) :
    (appendUpvalue up).Spares f := by
  intro error after hrun
  unfold appendUpvalue at hrun
  dsimp only at hrun
  split at hrun
  · cases hrun
  · cases hrun
    rfl

theorem capture_spares (up : Capture) (f : FunctionBuilder) : (capture up).Spares f := by
  intro error after hrun
  unfold capture at hrun
  split at hrun
  · cases hrun
  · exact appendUpvalue_spares up f _ _ hrun

theorem addUpvalue_spares (up : Capture) (f : FunctionBuilder) : (addUpvalue up).Spares f := by
  intro error after hrun
  unfold addUpvalue at hrun
  split at hrun
  · cases hrun
    rfl
  · exact appendUpvalue_spares up f _ _ hrun

theorem addChild_spares (child : Prototype) (f : FunctionBuilder) : (addChild child).Spares f := by
  intro error after hrun
  unfold addChild at hrun
  dsimp only at hrun
  split at hrun
  · cases hrun
  · cases hrun
    rfl

theorem emit_spares (i : Instruction) (f : FunctionBuilder) : (emit i).Spares f := by
  rcases emit_cases i f with ⟨_, -, hrun⟩ | ⟨error, -, hrun⟩
  · exact Succeeds.spares ⟨_, _, hrun⟩
  · exact spares_of_eq_error hrun

theorem dropLast_spares (f : FunctionBuilder) : dropLast.Spares f := by
  rcases dropLast_cases f with ⟨-, hrun⟩ | ⟨-, error, hrun⟩ | ⟨-, -, last, f', hrun, -⟩
  · exact Succeeds.spares ⟨_, _, hrun⟩
  · exact spares_of_eq_error hrun
  · exact Succeeds.spares ⟨_, _, hrun⟩

theorem replace_spares (index : Nat) (i : Instruction) (f : FunctionBuilder) :
    (replace index i).Spares f := by
  rcases replace_cases index i f with ⟨old, -, hrun⟩ | ⟨error, hrun⟩
  · exact Succeeds.spares ⟨_, _, hrun⟩
  · exact spares_of_eq_error hrun

theorem keepSection_spares (f : FunctionBuilder) : keepSection.Spares f := by
  refine onCode_spares fun error after hrun => ?_
  unfold Code.keepSection at hrun
  split at hrun
  · cases hrun
    rfl
  · cases hrun

theorem discardSection_spares (f : FunctionBuilder) : discardSection.Spares f := by
  rcases discardSection_cases f with ⟨-, error, hrun⟩ | ⟨start, outer, f', -, hrun, -⟩
  · exact spares_of_eq_error hrun
  · exact Succeeds.spares ⟨_, _, hrun⟩

theorem jumpTo_spares (target : Nat) (f : FunctionBuilder) : (jumpTo target).Spares f := by
  intro error after hrun
  rw [jumpTo_eq_emit] at hrun
  exact emit_spares _ f _ _ hrun

theorem aim_spares (index target : Nat) (f : FunctionBuilder) : (aim index target).Spares f := by
  rcases aim_cases index target f with ⟨jump, -, hrun⟩ | ⟨error, hrun, -⟩
  · exact Succeeds.spares ⟨_, _, hrun⟩
  · exact spares_of_eq_error hrun

theorem aimHere_spares (index : Nat) (f : FunctionBuilder) : (aimHere index).Spares f := by
  intro error after hrun
  rw [aimHere_eq_aim] at hrun
  exact aim_spares index f.pc f _ _ hrun

theorem aimContinue_spares (target : Nat) (f : FunctionBuilder) :
    (aimContinue target).Spares f := by
  refine onLoops_spares fun error after hrun => ?_
  unfold Loops.aimContinue Loops.onInnermost at hrun
  split at hrun
  · cases hrun
    rfl
  · cases hrun

theorem breakLoop_spares (f : FunctionBuilder) : breakLoop.Spares f := by
  rcases breakLoop_cases f with ⟨-, error, hrun⟩ | ⟨loop, outer, -, hrun⟩
  · exact spares_of_eq_error hrun
  · exact Succeeds.spares ⟨_, _, hrun⟩

theorem continueLoop_spares (f : FunctionBuilder) : continueLoop.Spares f := by
  rcases continueLoop_cases f with ⟨-, error, hrun⟩ | ⟨loop, outer, -, hopen⟩
  · exact spares_of_eq_error hrun
  rcases hopen with ⟨-, hrun⟩ | ⟨target, -, hrun | ⟨error, hrun⟩⟩
  · exact Succeeds.spares ⟨_, _, hrun⟩
  · exact Succeeds.spares ⟨_, _, hrun⟩
  · exact spares_of_eq_error hrun

inductive Residue (f : FunctionBuilder) : Operation → FunctionBuilder → Prop
  /-- The newest temporary is forgotten, its register stays taken. -/
  | popTemporary {register : UInt8} {older : List UInt8} :
    f.temporaries = register :: older → Residue f .popTemporary { f with temporaries := older }
  /-- A wide load is placed without its extra argument. -/
  | loadConstant (register : UInt8) {slot : Nat} :
    2 ^ 18 ≤ slot → slot < 2 ^ 26 → f.constants.size ≤ slot →
    Residue f (.loadConstant register slot)
      (f.placed [f.stamped { op := .loadKX, a := register.toNat }])
  /-- The loop is gone, and some of its jumps go where it sends them. -/
  | closeLoop {loop : Loop} {outer : List Loop} {f' : FunctionBuilder} :
    f.loops.stack = loop :: outer → Aims (loop.Sends f.pc) { f with loops := ⟨outer⟩ } f' →
    Residue f .closeLoop f'

variable {operation : Operation}

theorem Residue.ne (h : Residue f operation f') : f' ≠ f := by
  cases h with
  | popTemporary htemporaries =>
    intro hsame
    have hlength := congrArg (fun g => g.temporaries.length) hsame
    simp [htemporaries] at hlength
  | loadConstant register =>
    intro hsame
    have hpc := congrArg FunctionBuilder.pc hsame
    simp at hpc
  | closeLoop hstack haims =>
    rintro rfl
    obtain ⟨instructions, hsame⟩ := haims.only
    have hdepth := congrArg (fun g => g.loops.stack.length) hsame
    simp [hstack] at hdepth

theorem popTemporary_eq_error (h : f.temporaries = []) :
    popTemporary f = .error (.discipline .noTemporary) f := by
  rw [popTemporary, h]

theorem loadConstant_spares {slot : Nat}
    (h : 2 ^ 18 ≤ slot → slot < 2 ^ 26 → slot < f.constants.size) (register : UInt8) :
    (loadConstant register slot).Spares f := by
  have hBx : Instruction.maxBx = 2 ^ 18 - 1 := rfl
  have hAx : Instruction.maxAx = 2 ^ 26 - 1 := rfl
  by_cases hsmall : slot ≤ Instruction.maxBx
  · intro error after hrun
    rw [loadConstant_eq_emit hsmall] at hrun
    exact emit_spares _ f _ _ hrun
  by_cases hlarge : slot ≤ Instruction.maxAx
  · rcases loadConstant_wide (by omega) hlarge register f with ⟨-, hrun⟩ | ⟨hmissing, -⟩
    · exact Succeeds.spares ⟨_, _, hrun⟩
    · have hstored := h (by omega) (by omega)
      omega
  · obtain ⟨error, hrun⟩ := loadConstant_eq_error (Nat.not_le.mp hlarge) register f
    exact spares_of_eq_error hrun

theorem Operation.run_spares (hnone : ∀ g, ¬ Residue f operation g) : operation.run.Spares f := by
  cases operation with
  | setVararg isVararg => exact Succeeds.spares ⟨_, _, rfl⟩
  | setLine line => exact Succeeds.spares ⟨_, _, rfl⟩
  | allocate => exact (allocate_spares f).map _
  | pushTemporary => exact (pushTemporary_spares f).map _
  | popTemporary =>
    cases htemporaries : f.temporaries with
    | nil => exact (spares_of_eq_error (popTemporary_eq_error htemporaries)).map _
    | cons register older => exact absurd (.popTemporary htemporaries) (hnone _)
  | free register => exact (free_spares register f).map _
  | openScope name => exact Succeeds.spares ⟨_, _, rfl⟩
  | closeScope => exact (closeScope_spares f).map _
  | bindParameter name =>
    rcases bindParameter_cases name f with ⟨error, hrun⟩ | ⟨_, _, hrun, -⟩
    · exact (spares_of_eq_error hrun).map _
    · exact (Succeeds.spares ⟨_, _, hrun⟩).map _
  | bindLocal name =>
    rcases bindLocal_cases name f with ⟨error, hrun⟩ | ⟨_, _, hrun, -⟩
    · exact (spares_of_eq_error hrun).map _
    · exact (Succeeds.spares ⟨_, _, hrun⟩).map _
  | nameRegister name register => exact (nameRegister_spares name register f).map _
  | capture up => exact (capture_spares up f).map _
  | addUpvalue up => exact (addUpvalue_spares up f).map _
  | intern c => exact Spares.map (Succeeds.spares ⟨_, _, intern_apply c f⟩) _
  | addChild child => exact (addChild_spares child f).map _
  | emit i => exact (emit_spares i f).map _
  | loadConstant register slot =>
    refine (loadConstant_spares (fun hlow hhigh => ?_) register).map _
    exact Nat.not_le.mp fun hmissing => hnone _ (.loadConstant register hlow hhigh hmissing)
  | dropLast => exact (dropLast_spares f).map _
  | replace index i => exact (replace_spares index i f).map _
  | openSection => exact Succeeds.spares ⟨_, _, rfl⟩
  | keepSection => exact (keepSection_spares f).map _
  | discardSection => exact (discardSection_spares f).map _
  | jump => exact Spares.map (Succeeds.spares ⟨_, _, jump_eq f⟩) _
  | jumpTo target => exact (jumpTo_spares target f).map _
  | aim index target => exact (aim_spares index target f).map _
  | aimHere index => exact (aimHere_spares index f).map _
  | openLoop target => exact Succeeds.spares ⟨_, _, rfl⟩
  | aimContinue target => exact (aimContinue_spares target f).map _
  | breakLoop => exact (breakLoop_spares f).map _
  | continueLoop => exact (continueLoop_spares f).map _
  | closeLoop =>
    cases hstack : f.loops.stack with
    | nil => exact (spares_of_eq_error (closeLoop_eq_error hstack)).map _
    | cons loop outer => exact absurd (.closeLoop hstack (.refl _)) (hnone _)

theorem Operation.plainly_eq_error {α : Type} {action : Build α} {error : Error}
    (h : plainly action f = .error error f') : action f = .error error f' := by
  rw [plainly, map_apply] at h
  cases hrun : action f with
  | ok value after => simp [hrun] at h
  | error error' after => simpa [hrun] using h

theorem Residue.of_error {g : FunctionBuilder} {error : Error} (h : Residue f operation g)
    (hrun : operation.run f = .error error f') : Residue f operation f' := by
  cases h with
  | popTemporary htemporaries =>
    have hpop := Operation.plainly_eq_error hrun
    rw [FunctionBuilder.popTemporary, htemporaries] at hpop
    dsimp only at hpop
    split at hpop
    · cases hpop
    · next hfree =>
      cases hpop
      rw [free_spares _ _ _ _ hfree]
      exact .popTemporary htemporaries
  | loadConstant register hlow hhigh hmissing =>
    have hBx : Instruction.maxBx = 2 ^ 18 - 1 := rfl
    have hAx : Instruction.maxAx = 2 ^ 26 - 1 := rfl
    have hload := Operation.plainly_eq_error hrun
    rcases loadConstant_wide (hBx ▸ hlow) (Nat.le_of_lt_succ hhigh) register f with
      ⟨hstored, -⟩ | ⟨-, _, hfailed⟩
    · omega
    · rw [hfailed] at hload
      cases hload
      exact .loadConstant register hlow hhigh hmissing
  | closeLoop hstack _ =>
    have hclose := Operation.plainly_eq_error hrun
    rcases closeLoop_cases hstack with ⟨_, hclosed, -⟩ | ⟨_, _, hfailed, haims, -⟩
    · simp [hclosed] at hclose
    · rw [hfailed] at hclose
      cases hclose
      exact .closeLoop hstack haims

/-- A statement that leaves a loop places a jump and parks it, or aims it where the loop
goes on, or does nothing. -/
theorem Operation.exits_loop (hoperation : operation ∈ [.breakLoop, .continueLoop]) :
    operation.after f = f ∨ ∃ jump, (operation.after f).listing = f.listing ++ [jump] ∧
      jump.op = .jmp ∧ (f.pc ∈ (operation.after f).loops.parked ∨
        ∃ target, f.loops.head? = some target ∧ jump.b = Code.displacement f.pc target) := by
  simp only [List.mem_cons, List.not_mem_nil, or_false] at hoperation
  rcases hoperation with rfl | rfl
  · rcases breakLoop_cases f with ⟨-, error, hrun⟩ | ⟨loop, outer, -, hrun⟩
    · exact .inl (after_map_of_error hrun)
    · rw [show Operation.breakLoop.after f = _ from after_map_of_ok hrun]
      refine .inr ⟨_, listing_placed _ _, rfl, .inl ?_⟩
      simp [Loops.parked, Loop.parked]
  · rcases continueLoop_cases f with ⟨-, error, hrun⟩ | ⟨loop, outer, hstack, hopen⟩
    · exact .inl (after_map_of_error hrun)
    rcases hopen with ⟨-, hrun⟩ | ⟨target, htarget, hrun | ⟨error, hrun⟩⟩
    · rw [show Operation.continueLoop.after f = _ from after_map_of_ok hrun]
      refine .inr ⟨_, listing_placed _ _, rfl, .inl ?_⟩
      simp [Loops.parked, Loop.parked]
    · rw [show Operation.continueLoop.after f = _ from after_map_of_ok hrun]
      refine .inr ⟨_, listing_placed _ _, rfl, .inr ⟨target, ?_, rfl⟩⟩
      simp [Loops.head?, hstack, htarget]
    · exact .inl (after_map_of_error hrun)

theorem Operation.binds_name {name : String}
    (hoperation : operation ∈ [.bindLocal name, .bindParameter name]) :
    operation.after f = f ∨ ∃ register, f.Binds name register (operation.after f) := by
  simp only [List.mem_cons, List.not_mem_nil, or_false] at hoperation
  rcases hoperation with rfl | rfl
  · rcases bindLocal_cases name f with ⟨error, hrun⟩ | ⟨register, f', hrun, hbinds⟩
    · exact .inl (after_map_of_error hrun)
    · rw [show (Operation.bindLocal name).after f = f' from after_map_of_ok hrun]
      exact .inr ⟨register, hbinds⟩
  · rcases bindParameter_cases name f with ⟨error, hrun⟩ | ⟨register, f', hrun, hbinds⟩
    · exact .inl (after_map_of_error hrun)
    · rw [show (Operation.bindParameter name).after f = f' from after_map_of_ok hrun]
      exact .inr ⟨register, hbinds⟩

theorem Operation.discards_section :
    Operation.discardSection.after f = f ∨ ∃ start, f.code.sectionStart? = some start ∧
      (Operation.discardSection.after f).listing = f.listing.take start ∧
      (Operation.discardSection.after f).loops = f.loops.keepBelow start := by
  rcases discardSection_cases f with ⟨-, error, hrun⟩ | ⟨start, outer, f', hsections, hrun, hcut⟩
  · exact .inl (after_map_of_error hrun)
  · rw [show Operation.discardSection.after f = f' from after_map_of_ok hrun]
    exact .inr ⟨start, by rw [Code.sectionStart?, hsections]; rfl, hcut⟩

/-- An operation that fails leaves the function as it was, in any state, but for the three
that can stop halfway. So a register is taken only for a name that gets it, a jump out of a
loop is placed only if it is parked or aimed, and parked jumps are dropped only with
their code. -/
theorem Operation.failure_leaves_residue_or_nothing (f : FunctionBuilder) :
    (∀ (operation : Operation) error f', operation.run f = .error error f' →
      (f' = f ∧ ∀ g, ¬ Residue f operation g) ∨ (f' ≠ f ∧ Residue f operation f')) ∧
      (∀ name, ∀ operation ∈ [Operation.bindLocal name, .bindParameter name],
        operation.after f = f ∨ ∃ register, f.Binds name register (operation.after f)) ∧
      (∀ operation ∈ [Operation.breakLoop, .continueLoop], operation.after f = f ∨
        ∃ jump, (operation.after f).listing = f.listing ++ [jump] ∧ jump.op = .jmp ∧
          (f.pc ∈ (operation.after f).loops.parked ∨
            ∃ target, f.loops.head? = some target ∧ jump.b = Code.displacement f.pc target)) ∧
      (Operation.discardSection.after f = f ∨ ∃ start, f.code.sectionStart? = some start ∧
        (Operation.discardSection.after f).listing = f.listing.take start ∧
        (Operation.discardSection.after f).loops = f.loops.keepBelow start) := by
  refine ⟨?_, fun _ _ => Operation.binds_name, fun _ => Operation.exits_loop,
    Operation.discards_section⟩
  intro operation error f' hrun
  by_cases hresidue : ∃ g, Residue f operation g
  · obtain ⟨g, hg⟩ := hresidue
    have hleft := hg.of_error hrun
    exact .inr ⟨hleft.ne, hleft⟩
  · exact .inl ⟨Operation.run_spares (not_exists.mp hresidue) _ _ hrun, not_exists.mp hresidue⟩

/-- A loop with a jump out of it and one that has no target yet, and a temporary below a
register that is still taken. -/
def halted : FunctionBuilder :=
  [Operation.openLoop none, .breakLoop, .continueLoop, .pushTemporary, .allocate].foldl
    (fun f operation => operation.after f) (start "f" none 1)

theorem Operation.failure_leaves_residue_or_nothing_halted :
    (∃ error, Operation.popTemporary.run halted = .error error { halted with temporaries := [] }) ∧
      (∃ error, (Operation.loadConstant 0 300000).run halted =
        .error error (halted.placed [halted.stamped { op := .loadKX }])) ∧
      (∃ error f', Operation.closeLoop.run halted = .error error f' ∧
        Aims (Loop.Sends { breaks := [0], continues := [1] } 2) { halted with loops := ⟨[]⟩ } f') ∧
      ∃ error, Operation.keepSection.run halted = .error error halted := by
  obtain ⟨hfailure, -⟩ := Operation.failure_leaves_residue_or_nothing halted
  have htemporaries : halted.temporaries = [0] := by decide +kernel
  have hconstants : halted.constants.size = 0 := by decide +kernel
  have hstack : halted.loops.stack = [{ breaks := [0], continues := [1] }] := by decide +kernel
  have hpc : halted.pc = 2 := by decide +kernel
  refine ⟨?_, ?_, ?_, ?_⟩
  · obtain ⟨error, f', hrun⟩ := value?_eq_none
      (show Operation.popTemporary.run.value? halted = none by decide +kernel)
    rcases hfailure _ _ _ hrun with ⟨-, hnone⟩ | ⟨-, hresidue⟩
    · exact absurd (.popTemporary htemporaries) (hnone _)
    · cases hresidue with
      | popTemporary hnewest =>
        obtain ⟨-, rfl⟩ := List.cons.inj (htemporaries.symm.trans hnewest)
        exact ⟨error, hrun⟩
  · obtain ⟨error, f', hrun⟩ := value?_eq_none
      (show (Operation.loadConstant 0 300000).run.value? halted = none by decide +kernel)
    rcases hfailure _ _ _ hrun with ⟨-, hnone⟩ | ⟨-, hresidue⟩
    · exact absurd (.loadConstant 0 (by decide) (by decide) (by rw [hconstants]; decide)) (hnone _)
    · cases hresidue
      exact ⟨error, hrun⟩
  · obtain ⟨error, f', hrun⟩ := value?_eq_none
      (show Operation.closeLoop.run.value? halted = none by decide +kernel)
    rcases hfailure _ _ _ hrun with ⟨-, hnone⟩ | ⟨-, hresidue⟩
    · exact absurd (.closeLoop hstack (.refl _)) (hnone _)
    · cases hresidue with
      | closeLoop hopen haims =>
        obtain ⟨rfl, rfl⟩ := List.cons.inj (hstack.symm.trans hopen)
        rw [hpc] at haims
        exact ⟨error, f', hrun, haims⟩
  · obtain ⟨error, f', hrun⟩ := value?_eq_none
      (show Operation.keepSection.run.value? halted = none by decide +kernel)
    rcases hfailure _ _ _ hrun with ⟨rfl, -⟩ | ⟨-, hresidue⟩
    · exact ⟨error, hrun⟩
    · cases hresidue

end FunctionBuilder

end RegisterCode
