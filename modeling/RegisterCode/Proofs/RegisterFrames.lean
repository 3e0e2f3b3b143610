import RegisterCode.Proofs.LoweringRuns
import RegisterCode.Proofs.NestingSteps
import RegisterCode.Proofs.RegisterUse

/-! What the steps of lowering leave alone. A step adds code behind the code that is there,
and this code disturbs only registers that it may: free ones, and those that it was given. -/
namespace RegisterCode

open Action

namespace Instruction

variable {i : Instruction} {r : Nat}

/-- The instruction can change register `r`. A call leaves nothing as it was from its
first register on. -/
@[grind =] def Disturbs (i : Instruction) (r : Nat) : Prop :=
  i.Writes r ∨ (i.op = .call ∧ i.a ≤ r)

theorem disturbs_aimed {index target : Nat} (hjump : i.op.isJump = true)
    (h : (FunctionBuilder.aimed i index target).Disturbs r) : i.Disturbs r := by
  obtain ⟨op, a, b, c, line⟩ := i
  rcases Opcode.isJump_cases hjump with rfl | rfl | rfl | rfl <;> exact h

end Instruction

theorem Scopes.Plain.isNamed {scopes : Scopes} (h : scopes.Plain) (register : UInt8) :
    scopes.isNamed register = scopes.isOwned register := by
  rw [Bool.eq_iff_iff, Scopes.isNamed, Scopes.isOwned, List.any_eq_true, List.any_eq_true]
  refine exists_congr fun l => and_congr_right fun hl => ?_
  obtain ⟨scope, hscope, hl⟩ := List.mem_flatMap.mp hl
  simp [h.2 scope hscope l hl]

namespace FunctionBuilder

variable {touched : Nat → Prop} {names : List String} {n : Nat} {operand : Operand}
  {dest : Option UInt8} {register : UInt8} {registers : List UInt8} {f f' f'' : FunctionBuilder}

/-- The function has some more code, which disturbs no other registers than these. Whatever
else can be open in it is open as it was. -/
structure Leaves (touched : Nat → Prop) (f f' : FunctionBuilder) : Prop where
  scopes : f'.scopes = f.scopes
  temporaries : f'.temporaries = f.temporaries
  loops : f'.loops = f.loops
  sections : f'.code.sections = f.code.sections
  code : ∃ added, f'.listing = f.listing ++ added ∧
    ∀ i ∈ added, ∀ r, i.Disturbs r → touched r

structure Restores (touched : Nat → Prop) (f f' : FunctionBuilder) : Prop extends
    Leaves touched f f' where
  nextFree : f'.nextFree = f.nextFree

structure Takes (touched : Nat → Prop) (register : UInt8) (f f' : FunctionBuilder) : Prop extends
    Leaves touched f f' where
  register : register.toNat = f.nextFree
  nextFree : f'.nextFree = f.nextFree + 1

structure Stacks (touched : Nat → Prop) (registers : List UInt8) (f f' : FunctionBuilder) : Prop
    extends Leaves touched f f' where
  row : registers.map UInt8.toNat = List.range' f.nextFree registers.length
  nextFree : f'.nextFree = f.nextFree + registers.length

/-- On top of `n` registers there is the operand and nothing else, and not even that if it
is outside of registers or in that of a local. -/
def Rests (n : Nat) (f : FunctionBuilder) : Operand → Prop
  | .register register => f.scopes.isOwned register = true ∧ f.nextFree = n ∨
      f.scopes.isOwned register = false ∧ register.toNat = n ∧ f.nextFree = n + 1
  | _ => f.nextFree = n

structure Obtains (touched : Nat → Prop) (operand : Operand) (f f' : FunctionBuilder) : Prop
    extends Leaves touched f f' where
  rests : f'.Rests f.nextFree operand

def Answers (touched : Nat → Prop) (dest : Option UInt8) (operand : Operand)
    (f f' : FunctionBuilder) : Prop :=
  match dest with
  | some target => operand = .register target ∧ f.Restores touched f'
  | none => f.Obtains touched operand f'

/-- What lowering may count on: free registers may be touched and belong to nobody, and so
may the registers of the locals of these names, as far as there are any. -/
structure Permits (touched : Nat → Prop) (names : List String) (f : FunctionBuilder) : Prop where
  free : ∀ r, f.nextFree ≤ r → touched r
  owned : ∀ register, f.scopes.isOwned register = true → register.toNat < f.nextFree
  known : ∀ name register, f.scopes.register? name = some register →
    f.scopes.isOwned register = true
  named : ∀ name ∈ names, ∀ register, f.scopes.register? name = some register →
    touched register.toNat

theorem Leaves.pc_le (h : f.Leaves touched f') : f.pc ≤ f'.pc := by
  obtain ⟨added, hcode, -⟩ := h.code
  rw [← length_listing, ← length_listing, hcode, List.length_append]
  exact Nat.le_add_right _ _

theorem Leaves.trans (h : f.Leaves touched f') (h' : f'.Leaves touched f'') :
    f.Leaves touched f'' where
  scopes := h'.scopes.trans h.scopes
  temporaries := h'.temporaries.trans h.temporaries
  loops := h'.loops.trans h.loops
  sections := h'.sections.trans h.sections
  code := by
    obtain ⟨added, hcode, hadded⟩ := h.code
    obtain ⟨more, hcode', hmore⟩ := h'.code
    refine ⟨added ++ more, by rw [hcode', hcode, List.append_assoc], ?_⟩
    intro i hi
    rcases List.mem_append.mp hi with hi | hi
    · exact hadded i hi
    · exact hmore i hi

theorem Leaves.of_eq (hscopes : f'.scopes = f.scopes)
    (htemporaries : f'.temporaries = f.temporaries) (hloops : f'.loops = f.loops)
    (hcode : f'.code = f.code) : f.Leaves touched f' :=
  ⟨hscopes, htemporaries, hloops, by rw [hcode], [], by simp [listing, hcode], by simp⟩

theorem Restores.refl (touched : Nat → Prop) (f : FunctionBuilder) : f.Restores touched f :=
  ⟨.of_eq rfl rfl rfl rfl, rfl⟩

theorem Restores.trans (h : f.Restores touched f') (h' : f'.Restores touched f'') :
    f.Restores touched f'' :=
  ⟨h.toLeaves.trans h'.toLeaves, h'.nextFree.trans h.nextFree⟩

theorem Takes.restores (h : f.Takes touched register f') (h' : f'.Restores touched f'') :
    f.Takes touched register f'' :=
  ⟨h.toLeaves.trans h'.toLeaves, h.register, h'.nextFree.trans h.nextFree⟩

theorem Restores.obtains (h : f.Restores touched f') (h' : f'.Obtains touched operand f'') :
    f.Obtains touched operand f'' :=
  ⟨h.toLeaves.trans h'.toLeaves, h.nextFree ▸ h'.rests⟩

theorem Obtains.restores (h : f.Obtains touched operand f') (h' : f'.Restores touched f'') :
    f.Obtains touched operand f'' := by
  refine ⟨h.toLeaves.trans h'.toLeaves, ?_⟩
  have hrests := h.rests
  unfold Rests at hrests ⊢
  rwa [h'.scopes, h'.nextFree]

theorem Answers.restores (h : f.Answers touched dest operand f') (h' : f'.Restores touched f'') :
    f.Answers touched dest operand f'' := by
  cases dest with
  | some target => exact ⟨h.1, h.2.trans h'⟩
  | none => exact Obtains.restores h h'

theorem Restores.obtains_of (h : f.Restores touched f')
    (howned : ∀ register, operand = .register register → f'.scopes.isOwned register = true) :
    f.Obtains touched operand f' := by
  refine ⟨h.toLeaves, ?_⟩
  cases operand with
  | register register => exact .inl ⟨howned register rfl, h.nextFree⟩
  | _ => exact h.nextFree

theorem Obtains.nextFree_le (h : f.Obtains touched operand f') : f.nextFree ≤ f'.nextFree := by
  have hrests := h.rests
  cases operand with
  | register register =>
    rcases hrests with ⟨-, hnext⟩ | ⟨-, -, hnext⟩ <;> omega
  | _ => exact Nat.le_of_eq hrests.symm

theorem Permits.after (h : f.Permits touched names) (hleaves : f.Leaves touched f')
    (hnext : f.nextFree ≤ f'.nextFree) : f'.Permits touched names where
  free r hr := h.free r (Nat.le_trans hnext hr)
  owned register howned := by
    rw [hleaves.scopes] at howned
    exact Nat.lt_of_lt_of_le (h.owned register howned) hnext
  known := by
    rw [hleaves.scopes]
    exact h.known
  named := by
    rw [hleaves.scopes]
    exact h.named

theorem Restores.permits (h : f.Restores touched f') (hpermits : f.Permits touched names) :
    f'.Permits touched names :=
  hpermits.after h.toLeaves (Nat.le_of_eq h.nextFree.symm)

theorem Obtains.permits (h : f.Obtains touched operand f') (hpermits : f.Permits touched names) :
    f'.Permits touched names :=
  hpermits.after h.toLeaves h.nextFree_le

theorem Takes.permits (h : f.Takes touched register f') (hpermits : f.Permits touched names) :
    f'.Permits touched names :=
  hpermits.after h.toLeaves (h.nextFree ▸ Nat.le_succ _)

theorem Answers.permits (h : f.Answers touched dest operand f')
    (hpermits : f.Permits touched names) : f'.Permits touched names := by
  cases dest with
  | some target => exact h.2.permits hpermits
  | none => exact Obtains.permits h hpermits

theorem Takes.permitted (h : f.Takes touched register f') (hpermits : f.Permits touched names) :
    touched register.toNat :=
  hpermits.free _ (Nat.le_of_eq h.register.symm)

theorem Takes.obtains (h : f.Takes touched register f') (hpermits : f.Permits touched names) :
    f.Obtains touched (.register register) f' := by
  refine ⟨h.toLeaves, .inr ⟨?_, h.register, h.nextFree⟩⟩
  rw [h.scopes, ← Bool.not_eq_true]
  intro howned
  have hlt := hpermits.owned register howned
  have hregister := h.register
  omega

theorem Captures.restores (h : f.Captures f') (child : Prototype) :
    f.Restores touched { f' with children := f'.children.push child } := by
  obtain ⟨captured, rfl⟩ := h
  exact ⟨.of_eq rfl rfl rfl rfl, rfl⟩

theorem restores_placed {code : List Instruction}
    (h : ∀ i ∈ code, ∀ r, i.Disturbs r → touched r) : f.Restores touched (f.placed code) :=
  ⟨⟨rfl, rfl, rfl, rfl, code, by simp, h⟩, rfl⟩

theorem Leaves.replaced (h : f.Leaves touched f') {index target : Nat} {jump : Instruction}
    (hindex : f.pc ≤ index) (hat : f'.JumpAt index jump) :
    f.Leaves touched (f'.replaced index (aimed jump index target)) where
  scopes := h.scopes
  temporaries := h.temporaries
  loops := h.loops
  sections := h.sections
  code := by
    obtain ⟨added, hcode, hadded⟩ := h.code
    have hindex' : f.listing.length ≤ index := by rwa [length_listing]
    refine ⟨added.set (index - f.listing.length) (aimed jump index target), ?_, ?_⟩
    · rw [listing_replaced, hcode, List.set_append_right _ _ hindex']
    · intro i hi r hdisturbs
      rcases List.mem_or_eq_of_mem_set hi with hi | rfl
      · exact hadded i hi r hdisturbs
      · have hjump : jump ∈ added := by
          have hget := hat.1
          rw [hcode, List.getElem?_append_right hindex'] at hget
          exact List.mem_of_getElem? hget
        exact hadded jump hjump r (Instruction.disturbs_aimed hat.2 hdisturbs)

end FunctionBuilder

namespace Lower
open ChunkBuilder FunctionBuilder

variable {touched : Nat → Prop} {names : List String} {operand : Operand} {dest : Option UInt8}
  {target : UInt8} {f : FunctionBuilder} {b b' : ChunkBuilder}

theorem allocate_takes (touched : Nat → Prop) (b : ChunkBuilder) :
    allocate.Promises b fun register b' => b.current.Takes touched register b'.current := by
  refine ⟨fun hrun => ?_⟩
  obtain ⟨_, hallocate, rfl⟩ := onCurrent_eq_ok.mp hrun
  obtain ⟨-, hregister, rfl⟩ := (FunctionBuilder.allocate_ensures _).of_ok hallocate
  exact ⟨.of_eq rfl rfl rfl rfl, hregister, rfl⟩

theorem place_answers (h : b.current.Permits touched names)
    (hdest : ∀ target ∈ dest, touched target.toNat) :
    (place dest).Promises b fun target b' =>
      b.current.Answers touched dest (.register target) b'.current ∧ touched target.toNat := by
  cases dest with
  | some target => exact promises_pure ⟨⟨rfl, .refl _ _⟩, hdest target rfl⟩
  | none =>
    exact (allocate_takes touched b).mono fun _ _ htaken => ⟨htaken.obtains h, htaken.permitted h⟩

theorem free_restores (h : f.Obtains touched operand b.current) :
    (free operand).Promises b fun _ b' => f.Restores touched b'.current := by
  cases operand with
  | register register =>
    refine ⟨fun hrun => ?_⟩
    obtain ⟨_, hfree, rfl⟩ := onCurrent_eq_ok.mp hrun
    rcases h.rests with ⟨howned, hnext⟩ | ⟨howned, hregister, hnext⟩
    · rw [free_of_owned howned] at hfree
      cases hfree
      exact ⟨h.toLeaves, hnext⟩
    · rw [free_of_newest howned (by omega)] at hfree
      cases hfree
      exact ⟨⟨h.scopes, h.temporaries, h.loops, h.sections, h.code⟩, hregister⟩
  | _ => exact promises_pure ⟨h.toLeaves, h.rests⟩

theorem emit_restores {op : Opcode} {x y z : Int} (b : ChunkBuilder)
    (h : ∀ r, Instruction.Disturbs { op, a := x, b := y, c := z } r → touched r) :
    (emit op x y z).Promises b fun _ b' => b.current.Restores touched b'.current := by
  refine ⟨fun hrun => ?_⟩
  obtain ⟨-, rfl⟩ := (emit_ensures op x y z b).of_ok hrun
  refine restores_placed ?_
  rintro i hi r hdisturbs
  rw [List.mem_singleton.mp hi] at hdisturbs
  exact h r hdisturbs

theorem jump_restores (b : ChunkBuilder) :
    jump.Promises b fun index b' =>
      index = b.current.pc ∧ b.current.Restores touched b'.current := by
  refine ⟨fun hrun => ?_⟩
  obtain ⟨hindex, -, rfl⟩ := (jump_ensures b).of_ok hrun
  refine ⟨hindex, restores_placed ?_⟩
  grind [stamped]

theorem aimHere_restores {index : Nat} (hindex : f.pc ≤ index)
    (h : f.Restores touched b.current) :
    (aimHere index).Promises b fun _ b' => f.Restores touched b'.current := by
  refine ⟨fun hrun => ?_⟩
  obtain ⟨_, haim, rfl⟩ := onCurrent_eq_ok.mp hrun
  rw [aimHere_eq_aim] at haim
  rcases aim_cases index b.current.pc b.current with ⟨jump, hat, haimed⟩ | ⟨error, herror, -⟩
  · rw [haimed] at haim
    cases haim
    exact ⟨h.toLeaves.replaced hindex hat, h.nextFree⟩
  · simp [herror] at haim

theorem loadConstant_restores (slot : Nat) (b : ChunkBuilder) (htarget : touched target.toNat) :
    (loadConstant target slot).Promises b fun _ b' => b.current.Restores touched b'.current := by
  refine ⟨fun hrun => ?_⟩
  obtain ⟨_, b₁, hcurrent, hrun⟩ := bind_eq_ok.mp hrun
  cases hrun
  obtain ⟨_, hload, rfl⟩ := onCurrent_eq_ok.mp hcurrent
  obtain ⟨-, rfl⟩ := (loadConstant_ensures target slot b.current).of_ok hload
  refine restores_placed ?_
  unfold constantLoad
  grind [stamped]

theorem intern_restores (c : Constant) (b : ChunkBuilder) :
    (onCurrent (FunctionBuilder.intern c)).Promises b fun _ b' =>
      b.current.Restores touched b'.current := by
  refine ⟨fun hrun => ?_⟩
  obtain ⟨_, hintern, rfl⟩ := onCurrent_eq_ok.mp hrun
  rw [intern_apply] at hintern
  cases hintern
  exact ⟨.of_eq rfl rfl rfl rfl, rfl⟩

theorem constant_obtains (c : Constant) (b : ChunkBuilder) :
    (constant c).Promises b fun operand b' => b.current.Obtains touched operand b'.current := by
  apply (intern_restores c b).bind
  intro slot b' hinterned
  exact promises_pure ⟨hinterned.toLeaves, hinterned.nextFree⟩

theorem resolve_restores (name : String) (b : ChunkBuilder) :
    (resolve name).Promises b fun found b' => b.current.Restores touched b'.current ∧
      ∀ register, found = .register register →
        b'.current.scopes.register? name = some register := by
  refine ⟨fun hrun => ?_⟩
  obtain ⟨hfound, current, enclosing, ⟨hcaptures, -⟩, rfl⟩ := (resolve_ensures name b).of_ok hrun
  obtain ⟨captured, rfl⟩ : ∃ captured,
    current = { b.current with upvalues := b.current.upvalues ++ captured } := hcaptures
  refine ⟨⟨.of_eq rfl rfl rfl rfl, rfl⟩, ?_⟩
  rintro register rfl
  exact hfound

theorem resolve_obtains (h : b.current.Permits touched names) (name : String) :
    (resolve name).Promises b fun found b' =>
      b.current.Obtains touched found.operand b'.current := by
  apply (resolve_restores name b).mono
  rintro found b' ⟨hfound, hregister⟩
  refine hfound.obtains_of ?_
  cases found with
  | register register =>
    rintro _ ⟨⟩
    exact (hfound.permits h).known name register (hregister register rfl)
  | _ => rintro _ ⟨⟩

theorem toKey_obtains (h : b.current.Permits touched names) (name : String) :
    (toKey name).Promises b fun short b' =>
      b.current.Obtains touched short.holder b'.current := by
  rw [toKey_eq]
  apply (intern_restores (.string name) b).bind
  intro slot b₁ hinterned
  have hpermits := hinterned.permits h
  cases hshort : (Operand.constant slot).short? with
  | some field =>
    rw [toShort_of_some hshort]
    exact promises_pure ⟨hinterned.toLeaves, hinterned.nextFree⟩
  | none =>
    rw [toShort_constant hshort]
    apply (allocate_takes touched b₁).bind
    intro target b₂ htaken
    apply (loadConstant_restores slot.toNat b₂ (htaken.permitted hpermits)).bind
    intro _ b₃ hloaded
    exact promises_pure (hinterned.obtains ((htaken.restores hloaded).obtains hpermits))

theorem environment_restores (h : b.current.Permits touched names) (name : String)
    {access : Short → Variable → Lower Unit}
    (haccess : ∀ (short : Short) (found : Variable) (b' : ChunkBuilder),
      b.current.Obtains touched short.holder b'.current →
      (access short found).Promises b' fun _ b'' => b.current.Restores touched b''.current) :
    Promises (do access (← toKey name) (← resolve environmentName)) b fun _ b' =>
      b.current.Restores touched b'.current := by
  apply (toKey_obtains h name).bind
  intro short b₁ hkey
  apply (resolve_restores environmentName b₁).bind
  rintro found b₂ ⟨hfound, -⟩
  exact haccess short found b₂ (hkey.restores hfound)

theorem emit_free_restores (h : f.Obtains touched operand b.current) {op : Opcode} {x y z : Int}
    (hdisturbs : ∀ r, Instruction.Disturbs { op, a := x, b := y, c := z } r → touched r) :
    Promises (do emit op x y z; free operand) b fun _ b' => f.Restores touched b'.current := by
  apply (emit_restores b hdisturbs).bind
  intro _ b' hemitted
  exact free_restores (h.restores hemitted)

theorem releasing_restores (h : f.Obtains touched operand b.current) {op : Opcode} {x y z : Int}
    (hdisturbs : ∀ r, Instruction.Disturbs { op, a := x, b := y, c := z } r → touched r) :
    (releasing operand (emit op x y z)).Promises b fun _ b' => f.Restores touched b'.current :=
  ⟨fun hrun => (emit_free_restores h hdisturbs).of_ok (releasing_eq_ok_iff.mp hrun)⟩

theorem loadGlobal_restores (h : b.current.Permits touched names) (name : String)
    (htarget : touched target.toNat) :
    (loadGlobal name target).Promises b fun _ b' => b.current.Restores touched b'.current := by
  rw [loadGlobal_eq]
  refine environment_restores h name ?_
  intro short found b' hheld
  cases found with
  | upvalue index => exact releasing_restores hheld (by grind)
  | register index => exact releasing_restores hheld (by grind)
  | global global =>
    refine ⟨fun hrun => ?_⟩
    obtain ⟨_, hthrow, -⟩ := releasing_eq_ok.mp hrun
    cases hthrow

theorem storeGlobal_restores (h : b.current.Permits touched names) (name : String)
    (value : Short) :
    (storeGlobal name value.holder).Promises b fun _ b' =>
      b.current.Restores touched b'.current := by
  rw [storeGlobal_eq]
  refine environment_restores h name ?_
  intro short found b' hheld
  cases found with
  | upvalue index => exact emit_free_restores hheld (by grind)
  | register index => exact emit_free_restores hheld (by grind)
  | global global =>
    refine ⟨fun hrun => ?_⟩
    obtain ⟨_, _, hthrow, -⟩ := bind_eq_ok.mp hrun
    cases hthrow

theorem load_restores (h : b.current.Permits touched names) (operand : Operand)
    (htarget : touched target.toNat) :
    (load operand target).Promises b fun _ b' => b.current.Restores touched b'.current := by
  cases operand with
  | register index =>
    by_cases hsame : index = target
    · simp only [load, hsame, ↓reduceIte]
      exact promises_pure (.refl _ _)
    · simp only [load, hsame, ↓reduceIte]
      exact emit_restores b (by grind)
  | constant slot => exact loadConstant_restores slot.toNat b htarget
  | global name => exact loadGlobal_restores h name htarget
  -- booleans, nil and upvalues take one instruction that writes its target alone
  | _ => exact emit_restores b (by grind)

theorem toRegister_obtains (hpermits : f.Permits touched names)
    (h : f.Obtains touched operand b.current) :
    (toRegister operand).Promises b fun register b' =>
      f.Obtains touched (.register register) b'.current := by
  by_cases hregister : ∃ index, operand = .register index
  · obtain ⟨index, rfl⟩ := hregister
    rw [toRegister_register]
    exact promises_pure h
  · rw [not_exists] at hregister
    rw [toRegister_of_ne hregister]
    have hrestores : f.Restores touched b.current := by
      refine ⟨h.toLeaves, ?_⟩
      have hrests := h.rests
      cases operand with
      | register register => exact absurd rfl (hregister register)
      | _ => exact hrests
    have hpermits' := hrestores.permits hpermits
    apply (allocate_takes touched b).bind
    intro target b₁ htaken
    apply (load_restores (htaken.permits hpermits') operand (htaken.permitted hpermits')).bind
    intro _ b₂ hloaded
    exact promises_pure (hrestores.obtains ((htaken.restores hloaded).obtains hpermits'))

theorem toShort_obtains (hpermits : f.Permits touched names)
    (h : f.Obtains touched operand b.current) :
    (toShort operand).Promises b fun short b' =>
      f.Obtains touched short.holder b'.current := by
  rcases toShort_cases operand with ⟨short, rfl, hsame⟩ | hheld
  · rw [hsame]
    exact promises_pure h
  · rw [hheld]
    apply (toRegister_obtains hpermits h).bind
    intro target b' hheld
    exact promises_pure hheld

theorem settle_answers (hpermits : f.Permits touched names)
    (h : f.Obtains touched operand b.current) (hdest : ∀ target ∈ dest, touched target.toNat) :
    (settle operand dest).Promises b fun result b' =>
      f.Answers touched dest result b'.current := by
  cases dest with
  | none => exact promises_pure h
  | some target =>
    apply (load_restores (h.permits hpermits) operand (hdest target rfl)).bind
    intro _ b₁ hloaded
    apply (free_restores (h.restores hloaded)).bind
    intro _ b₂ hfreed
    exact promises_pure ⟨rfl, hfreed⟩

end Lower

end RegisterCode
