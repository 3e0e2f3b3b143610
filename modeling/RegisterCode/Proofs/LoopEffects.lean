import RegisterCode.Proofs.LoopExits

/-! What each operation does to the code and to the open loops, whether it succeeds or
fails. Everything about parked jumps follows from these few effects. -/
namespace RegisterCode.FunctionBuilder

open Action

variable {f f' : FunctionBuilder} {operation : Operation}

structure Idle (f f' : FunctionBuilder) : Prop where
  listing : f'.listing = f.listing
  loops : f'.loops = f.loops

theorem Idle.refl (f : FunctionBuilder) : f.Idle f :=
  ⟨rfl, rfl⟩

theorem Idle.trans {f'' : FunctionBuilder} (h : f.Idle f') (h' : f'.Idle f'') : f.Idle f'' :=
  ⟨h'.listing.trans h.listing, h'.loops.trans h.loops⟩

theorem allocate_idle (f : FunctionBuilder) : f.Idle (allocate.after f) := by
  unfold after allocate
  by_cases hlt : f.nextFree < maxRegisters
  · rw [if_pos hlt]
    exact ⟨rfl, rfl⟩
  · rw [if_neg hlt]
    exact .refl f

theorem Idle.bind {α β : Type} {action : Build α} {next : α → Build β}
    (h : f.Idle (action.after f)) (hnext : ∀ value g, Idle g ((next value).after g)) :
    f.Idle ((action >>= next).after f) := by
  unfold after at h ⊢
  rw [bind_apply]
  cases hrun : action f with
  | ok value g =>
    rw [hrun] at h
    exact h.trans (hnext value g)
  | error error g =>
    rw [hrun] at h
    exact h

theorem pushTemporary_idle (f : FunctionBuilder) : f.Idle (pushTemporary.after f) :=
  (allocate_idle f).bind fun _ _ => ⟨rfl, rfl⟩

theorem free_idle (register : UInt8) (f : FunctionBuilder) : f.Idle ((free register).after f) := by
  unfold after free
  by_cases howned : f.scopes.isOwned register = true
  · rw [if_pos howned]
    exact .refl f
  rw [if_neg howned]
  by_cases habove : f.nextFree < register.toNat
  · rw [if_pos habove]
    exact .refl f
  rw [if_neg habove]
  by_cases hbelow : register.toNat + 1 < f.nextFree
  · rw [if_pos hbelow]
    exact .refl f
  rw [if_neg hbelow]
  exact ⟨rfl, rfl⟩

theorem popTemporary_idle (f : FunctionBuilder) : f.Idle (popTemporary.after f) := by
  unfold after popTemporary
  cases f.temporaries with
  | nil => exact .refl f
  | cons register older =>
    have hforgotten : f.Idle { f with temporaries := older } := ⟨rfl, rfl⟩
    have hfreed := hforgotten.trans (free_idle register _)
    unfold after at hfreed
    dsimp only
    cases hrun : free register { f with temporaries := older } with
    | ok _ f' =>
      rw [hrun] at hfreed
      exact hfreed
    | error _ f' =>
      rw [hrun] at hfreed
      exact hfreed

theorem closeScope_idle (f : FunctionBuilder) : f.Idle (closeScope.after f) := by
  cases hstack : f.scopes.stack with
  | nil =>
    rw [after_of_error (closeScope_eq_error hstack)]
    exact .refl f
  | cons scope outer =>
    rw [after_of_ok (closeScope_apply hstack)]
    exact ⟨rfl, rfl⟩

theorem bindName_idle (name : String) (startPc : UInt32) (f : FunctionBuilder) :
    f.Idle ((bindName name startPc).after f) := by
  unfold after
  rw [bindName_apply]
  have htaken := allocate_idle f
  unfold after at htaken
  cases f.scopes.checkFresh name f.line with
  | error error => exact .refl f
  | ok _ =>
    cases hrun : allocate f with
    | error error g =>
      rw [hrun] at htaken
      exact htaken
    | ok register g =>
      rw [hrun] at htaken
      exact htaken.trans ⟨rfl, rfl⟩

theorem bindParameter_idle (name : String) (f : FunctionBuilder) :
    f.Idle ((bindParameter name).after f) := by
  unfold bindParameter after
  rw [get_bind_apply]
  exact Idle.bind (bindName_idle name _ f) fun _ _ => ⟨rfl, rfl⟩

theorem bindLocal_idle (name : String) (f : FunctionBuilder) :
    f.Idle ((bindLocal name).after f) := by
  have hsame : bindLocal name f = bindName name (.ofNat f.pc) f := rfl
  have hidle := bindName_idle name (.ofNat f.pc) f
  unfold after at hidle ⊢
  rwa [hsame]

theorem nameRegister_idle (name : String) (register : UInt8) (f : FunctionBuilder) :
    f.Idle ((nameRegister name register).after f) := by
  unfold after
  rw [nameRegister_apply]
  cases f.scopes.checkFresh name f.line with
  | error error => exact .refl f
  | ok _ => exact ⟨rfl, rfl⟩

theorem appendUpvalue_idle (up : Capture) (f : FunctionBuilder) :
    f.Idle ((appendUpvalue up).after f) := by
  unfold after appendUpvalue
  by_cases hlt : f.upvalues.length < maxUpvalues
  · rw [if_pos hlt]
    exact ⟨rfl, rfl⟩
  · rw [if_neg hlt]
    exact .refl f

theorem capture_idle (up : Capture) (f : FunctionBuilder) : f.Idle ((capture up).after f) := by
  unfold after capture
  cases f.upvalue? up.name with
  | some index => exact .refl f
  | none => exact appendUpvalue_idle up f

theorem addUpvalue_idle (up : Capture) (f : FunctionBuilder) :
    f.Idle ((addUpvalue up).after f) := by
  unfold after addUpvalue
  cases f.upvalue? up.name with
  | some index => exact .refl f
  | none => exact appendUpvalue_idle up f

theorem intern_idle (c : Constant) (f : FunctionBuilder) : f.Idle ((intern c).after f) := by
  rw [after_of_ok (intern_apply c f)]
  exact ⟨rfl, rfl⟩

theorem addChild_idle (child : Prototype) (f : FunctionBuilder) :
    f.Idle ((addChild child).after f) := by
  unfold after addChild
  by_cases hle : f.children.size ≤ Instruction.maxBx
  · rw [if_pos hle]
    exact ⟨rfl, rfl⟩
  · rw [if_neg hle]
    exact .refl f

theorem keepSection_idle (f : FunctionBuilder) : f.Idle (keepSection.after f) := by
  unfold after keepSection
  rw [onCode_apply]
  unfold Code.keepSection
  cases f.code.sections with
  | nil => exact .refl f
  | cons start outer => exact ⟨rfl, rfl⟩

def Parks (f : FunctionBuilder) : Operation → Prop
  | .breakLoop => f.loops.stack ≠ []
  | .continueLoop => ∃ loop ∈ f.loops.stack.head?, loop.continueTarget = none
  | _ => False

def Operation.parkedIn (loop : Loop) : Operation → List Nat
  | .breakLoop => loop.breaks
  | .continueLoop => loop.continues
  | _ => []

structure Gains (operation : Operation) (index : Nat) (loop loop' : Loop) : Prop where
  target : loop'.continueTarget = loop.continueTarget
  parked : loop'.parked.Perm (index :: loop.parked)
  same : operation.parkedIn loop' = operation.parkedIn loop ++ [index]
  other : ∀ statement : Operation, statement ≠ operation →
    statement.parkedIn loop' = statement.parkedIn loop

/-- What an operation that parks no jump can do to the code and the loops. -/
inductive Effect (f : FunctionBuilder) : Operation → FunctionBuilder → Prop
  | extend {operation : Operation} {f' : FunctionBuilder} (added : List Instruction) :
    f'.listing = f.listing ++ added → f'.loops = f.loops → Effect f operation f'
  | replace {f' : FunctionBuilder} (index : Nat) (i i' : Instruction) :
    f'.listing = f.listing.set index i' → f'.loops = f.loops → Effect f (.replace index i) f'
  | aim {operation : Operation} {f' : FunctionBuilder} {goes : Nat → Nat → Prop} :
    Aims goes f f' → Effect f operation f'
  /-- No parked jump is taken off alone. -/
  | drop {operation : Operation} {f' : FunctionBuilder} :
    0 < f.pc → f.pc - 1 ∉ f.loops.parked → f'.listing = f.listing.take (f.pc - 1) →
    f'.loops = f.loops → Effect f operation f'
  | discard {operation : Operation} {f' : FunctionBuilder} (start : Nat) :
    f'.listing = f.listing.take start → f'.loops = f.loops.keepBelow start →
    Effect f operation f'
  | openLoop {f' : FunctionBuilder} (target : Option Nat) :
    f'.listing = f.listing → f'.loops = f.loops.openLoop target → Effect f (.openLoop target) f'
  | aimContinue {f' : FunctionBuilder} (target : Nat) {loop : Loop} {outer : List Loop} :
    f.loops.stack = loop :: outer → f'.listing = f.listing →
    f'.loops = ⟨{ loop with continueTarget := some target } :: outer⟩ →
    Effect f (.aimContinue target) f'
  | closeLoop {f' : FunctionBuilder} {loop : Loop} {outer : List Loop} :
    f.loops.stack = loop :: outer → Aims (loop.Sends f.pc) { f with loops := ⟨outer⟩ } f' →
    Effect f .closeLoop f'

theorem Idle.effect (h : f.Idle f') : Effect f operation f' :=
  .extend [] (by simpa using h.listing) h.loops

theorem emit_effect (i : Instruction) (f : FunctionBuilder) :
    Effect f operation ((emit i).after f) := by
  rcases emit_cases i f with ⟨_, -, hrun⟩ | ⟨error, -, hrun⟩
  · rw [after_of_ok hrun]
    exact .extend _ (listing_placed _ _) rfl
  · rw [after_of_error hrun]
    exact (Idle.refl f).effect

theorem jump_effect (f : FunctionBuilder) : Effect f operation (jump.after f) := by
  rw [after_of_ok (jump_eq f)]
  exact .extend _ (listing_placed _ _) rfl

theorem jumpTo_effect (target : Nat) (f : FunctionBuilder) :
    Effect f operation ((jumpTo target).after f) := by
  unfold after
  rw [jumpTo_eq_emit]
  exact emit_effect _ f

theorem loadConstant_effect (register : UInt8) (slot : Nat) (f : FunctionBuilder) :
    Effect f operation ((loadConstant register slot).after f) := by
  by_cases hsmall : slot ≤ Instruction.maxBx
  · unfold after
    rw [loadConstant_eq_emit hsmall]
    exact emit_effect _ f
  by_cases hlarge : slot ≤ Instruction.maxAx
  · rcases loadConstant_wide (Nat.not_le.mp hsmall) hlarge register f with
      ⟨-, hrun⟩ | ⟨-, error, hrun⟩
    · rw [after_of_ok hrun]
      exact .extend _ (listing_placed _ _) rfl
    · rw [after_of_error hrun]
      exact .extend _ (listing_placed _ _) rfl
  · obtain ⟨error, hrun⟩ := loadConstant_eq_error (Nat.not_le.mp hlarge) register f
    rw [after_of_error hrun]
    exact (Idle.refl f).effect

theorem dropLast_effect (f : FunctionBuilder) : Effect f operation (dropLast.after f) := by
  rcases dropLast_cases f with
    ⟨-, hrun⟩ | ⟨-, error, hrun⟩ | ⟨hpos, hfree, last, f', hrun, hlisting, hloops⟩
  · rw [after_of_ok hrun]
    exact (Idle.refl f).effect
  · rw [after_of_error hrun]
    exact (Idle.refl f).effect
  · rw [after_of_ok hrun]
    exact .drop hpos hfree hlisting hloops

theorem replace_effect (index : Nat) (i : Instruction) (f : FunctionBuilder) :
    Effect f (.replace index i) ((replace index i).after f) := by
  rcases replace_cases index i f with ⟨old, -, hrun⟩ | ⟨error, hrun⟩
  · rw [after_of_ok hrun]
    exact .replace index i _ (listing_replaced _ _ _) rfl
  · rw [after_of_error hrun]
    exact (Idle.refl f).effect

theorem discardSection_effect (f : FunctionBuilder) :
    Effect f operation (discardSection.after f) := by
  rcases discardSection_cases f with ⟨-, error, hrun⟩ | ⟨start, outer, f', -, hrun, hcut, hloops⟩
  · rw [after_of_error hrun]
    exact (Idle.refl f).effect
  · rw [after_of_ok hrun]
    exact .discard start hcut hloops

theorem aim_effect (index target : Nat) (f : FunctionBuilder) :
    Effect f operation ((aim index target).after f) := by
  rcases aim_cases index target f with ⟨jump, hat, hrun⟩ | ⟨error, hrun, -⟩
  · rw [after_of_ok hrun]
    exact .aim (aims_replaced hat)
  · rw [after_of_error hrun]
    exact (Idle.refl f).effect

theorem aimHere_effect (index : Nat) (f : FunctionBuilder) :
    Effect f operation ((aimHere index).after f) := by
  unfold after
  rw [aimHere_eq_aim]
  exact aim_effect index f.pc f

theorem aimContinue_effect (target : Nat) (f : FunctionBuilder) :
    Effect f (.aimContinue target) ((aimContinue target).after f) := by
  unfold after aimContinue
  rw [onLoops_apply]
  unfold Loops.aimContinue Loops.onInnermost
  cases hstack : f.loops.stack with
  | nil => exact (Idle.refl f).effect
  | cons loop outer => exact .aimContinue target hstack rfl rfl

theorem closeLoop_effect (f : FunctionBuilder) : Effect f .closeLoop (closeLoop.after f) := by
  cases hstack : f.loops.stack with
  | nil =>
    rw [after_of_error (closeLoop_eq_error hstack)]
    exact (Idle.refl f).effect
  | cons loop outer =>
    rcases closeLoop_cases hstack with ⟨f', hrun, haims, -⟩ | ⟨error, f', hrun, haims, -⟩
    · rw [after_of_ok hrun]
      exact .closeLoop hstack haims
    · rw [after_of_error hrun]
      exact .closeLoop hstack haims

inductive ParksJump (f : FunctionBuilder) (operation : Operation) (f' : FunctionBuilder) : Prop
  | intro {loop loop' : Loop} {outer : List Loop} {jump : Instruction} :
    f.loops.stack = loop :: outer → Gains operation f.pc loop loop' → jump.op = .jmp →
    f'.listing = f.listing ++ [jump] → f'.loops = ⟨loop' :: outer⟩ → ParksJump f operation f'

theorem gains_breakLoop (index : Nat) (loop : Loop) :
    Gains .breakLoop index loop { loop with breaks := loop.breaks ++ [index] } := by
  refine ⟨rfl, ?_, rfl, ?_⟩
  · unfold Loop.parked
    rw [List.append_assoc]
    exact List.perm_middle
  · intro statement hother
    cases statement
    case breakLoop => exact absurd rfl hother
    all_goals rfl

theorem gains_continueLoop (index : Nat) (loop : Loop) :
    Gains .continueLoop index loop { loop with continues := loop.continues ++ [index] } := by
  refine ⟨rfl, ?_, rfl, ?_⟩
  · unfold Loop.parked
    rw [← List.append_assoc]
    exact List.perm_append_singleton index (loop.breaks ++ loop.continues)
  · intro statement hother
    cases statement
    case continueLoop => exact absurd rfl hother
    all_goals rfl

theorem breakLoop_effect (f : FunctionBuilder) :
    f.Parks .breakLoop ∧ ParksJump f .breakLoop (breakLoop.after f) ∨
      ¬ f.Parks .breakLoop ∧ Effect f .breakLoop (breakLoop.after f) := by
  rcases breakLoop_cases f with ⟨hstack, error, hrun⟩ | ⟨loop, outer, hstack, hrun⟩
  · rw [after_of_error hrun]
    exact .inr ⟨by simp [Parks, hstack], (Idle.refl f).effect⟩
  · rw [after_of_ok hrun]
    exact .inl ⟨by simp [Parks, hstack],
      .intro hstack (gains_breakLoop f.pc loop) rfl (listing_placed _ _) rfl⟩

theorem continueLoop_effect (f : FunctionBuilder) :
    f.Parks .continueLoop ∧ ParksJump f .continueLoop (continueLoop.after f) ∨
      ¬ f.Parks .continueLoop ∧ Effect f .continueLoop (continueLoop.after f) := by
  rcases continueLoop_cases f with ⟨hstack, error, hrun⟩ | ⟨loop, outer, hstack, hopen⟩
  · rw [after_of_error hrun]
    exact .inr ⟨by simp [Parks, hstack], (Idle.refl f).effect⟩
  rcases hopen with ⟨hnone, hrun⟩ | ⟨target, htarget, hrun | ⟨error, hrun⟩⟩
  · rw [after_of_ok hrun]
    exact .inl ⟨by simp [Parks, hstack, hnone],
      .intro hstack (gains_continueLoop f.pc loop) rfl (listing_placed _ _) rfl⟩
  · rw [after_of_ok hrun]
    exact .inr ⟨by simp [Parks, hstack, htarget], .extend _ (listing_placed _ _) rfl⟩
  · rw [after_of_error hrun]
    exact .inr ⟨by simp [Parks, hstack, htarget], (Idle.refl f).effect⟩

theorem Operation.effect (operation : Operation) (f : FunctionBuilder) :
    f.Parks operation ∧ ParksJump f operation (operation.after f) ∨
      ¬ f.Parks operation ∧ Effect f operation (operation.after f) := by
  have hmap : ∀ {α β : Type} {action : Build α} {change : α → β},
      Effect f operation (action.after f) →
        Effect f operation ((change <$> action).after f) := by
    intro α β action change heffect
    rw [after_map]
    exact heffect
  cases operation with
  | breakLoop =>
    rw [show Operation.breakLoop.after f = FunctionBuilder.breakLoop.after f from after_map _ _ f]
    exact breakLoop_effect f
  | continueLoop =>
    rw [show Operation.continueLoop.after f = FunctionBuilder.continueLoop.after f from
      after_map _ _ f]
    exact continueLoop_effect f
  | setVararg isVararg => exact .inr ⟨id, .extend [] (List.append_nil _).symm rfl⟩
  | setLine line => exact .inr ⟨id, .extend [] (List.append_nil _).symm rfl⟩
  | allocate => exact .inr ⟨id, hmap (allocate_idle f).effect⟩
  | pushTemporary => exact .inr ⟨id, hmap (pushTemporary_idle f).effect⟩
  | popTemporary => exact .inr ⟨id, hmap (popTemporary_idle f).effect⟩
  | free register => exact .inr ⟨id, hmap (free_idle register f).effect⟩
  | openScope name => exact .inr ⟨id, .extend [] (List.append_nil _).symm rfl⟩
  | closeScope => exact .inr ⟨id, hmap (closeScope_idle f).effect⟩
  | bindParameter name => exact .inr ⟨id, hmap (bindParameter_idle name f).effect⟩
  | bindLocal name => exact .inr ⟨id, hmap (bindLocal_idle name f).effect⟩
  | nameRegister name register =>
    exact .inr ⟨id, hmap (nameRegister_idle name register f).effect⟩
  | capture up => exact .inr ⟨id, hmap (capture_idle up f).effect⟩
  | addUpvalue up => exact .inr ⟨id, hmap (addUpvalue_idle up f).effect⟩
  | intern c => exact .inr ⟨id, hmap (intern_idle c f).effect⟩
  | addChild child => exact .inr ⟨id, hmap (addChild_idle child f).effect⟩
  | emit i => exact .inr ⟨id, hmap (emit_effect i f)⟩
  | loadConstant register slot => exact .inr ⟨id, hmap (loadConstant_effect register slot f)⟩
  | dropLast => exact .inr ⟨id, hmap (dropLast_effect f)⟩
  | replace index i => exact .inr ⟨id, hmap (replace_effect index i f)⟩
  | openSection => exact .inr ⟨id, .extend [] (List.append_nil _).symm rfl⟩
  | keepSection => exact .inr ⟨id, hmap (keepSection_idle f).effect⟩
  | discardSection => exact .inr ⟨id, hmap (discardSection_effect f)⟩
  | jump => exact .inr ⟨id, hmap (jump_effect f)⟩
  | jumpTo target => exact .inr ⟨id, hmap (jumpTo_effect target f)⟩
  | aim index target => exact .inr ⟨id, hmap (aim_effect index target f)⟩
  | aimHere index => exact .inr ⟨id, hmap (aimHere_effect index f)⟩
  | openLoop target => exact .inr ⟨id, .openLoop target rfl rfl⟩
  | aimContinue target => exact .inr ⟨id, hmap (aimContinue_effect target f)⟩
  | closeLoop => exact .inr ⟨id, hmap (closeLoop_effect f)⟩

end RegisterCode.FunctionBuilder
