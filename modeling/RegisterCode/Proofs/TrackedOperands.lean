import RegisterCode.Proofs.TrackedFunctions

/-! The steps of lowering and the registers they find set. A step leaves everything set that
was, and what it hands on is set behind its code. The locals in sight always are, those of
the functions around the current one where they stopped. -/
namespace RegisterCode

open Action

theorem Action.Ensures.and_promises {σ α : Type} {action : Action σ α} {state : σ}
    {post post' : α → σ → Prop} (h : action.Ensures state post)
    (h' : action.Promises state post') :
    action.Promises state fun value after => post value after ∧ post' value after :=
  ⟨fun hrun => ⟨h.of_ok hrun, h'.of_ok hrun⟩⟩

namespace FunctionBuilder

variable {f f' : FunctionBuilder} {operand : Operand} {field : Int}

/-- The operand can be used behind the code: its register is set, or its slot is too small
to be taken for a register. -/
def Has (f : FunctionBuilder) : Operand → Prop
  | .register register => f.IsSet f.pc register.toNat
  | .constant slot => slot.toNat < capacity
  | .upvalue _ | .global _ | .boolean _ | .nil => True

def HasField (f : FunctionBuilder) (field : Int) : Prop :=
  ∀ r : Nat, field = r → f.IsSet f.pc r

theorem Carries.has (h : f.Carries f') (hhas : f.Has operand) : f'.Has operand := by
  cases operand with
  | register register => exact h.at_end hhas
  | _ => exact hhas

theorem Carries.hasField (h : f.Carries f') (hfield : f.HasField field) : f'.HasField field :=
  fun r hr => h.at_end (hfield r hr)

theorem hasField_register {register : UInt8} (h : f.IsSet f.pc register.toNat) :
    f.HasField register.toNat := by
  intro r hr
  obtain rfl : register.toNat = r := Int.ofNat.inj hr
  exact h

theorem Has.short (h : f.Has operand) (hshort : operand.short? = some field) :
    f.HasField field := by
  cases operand with
  | register register =>
    obtain rfl := Option.some.inj hshort
    exact hasField_register h
  | constant slot =>
    intro r hr
    have hnegative := Instruction.constantOperand_neg slot.toNat
    rw [← Operand.eq_of_short? h hshort] at hnegative
    omega
  | _ => exact absurd hshort nofun

end FunctionBuilder

namespace ChunkBuilder
open FunctionBuilder

variable {b b' b'' : ChunkBuilder} {f : FunctionBuilder}

/-- What a function captures from the frame around it are locals there, and so on outwards. -/
def Anchored : List Capture → List FunctionBuilder → Prop
  | _, [] => True
  | upvalues, outer :: rest =>
    (∀ up ∈ upvalues, up.inStack = true → up.index.toNat ∈ outer.scopes.registers) ∧
      Anchored outer.upvalues rest

structure Tracks (b : ChunkBuilder) : Prop where
  ready : b.Ready
  tracked : b.current.Tracked
  anchored : Anchored b.current.upvalues b.enclosing
  locals : ∀ r ∈ b.current.scopes.registers, b.current.IsSet b.current.pc r

structure Retains (b b' : ChunkBuilder) : Prop where
  carries : b.current.Carries b'.current
  tracks : b'.Tracks

theorem Retains.trans (h : b.Retains b') (h' : b'.Retains b'') : b.Retains b'' :=
  ⟨h.carries.trans h'.carries, h'.tracks⟩

theorem Tracks.retains (h : b.Tracks) : b.Retains b :=
  ⟨.of_same rfl rfl, h⟩

theorem Tracks.grow (h : b.Tracks) (hready : Ready { b with current := f })
    (hcarries : b.current.Carries f) (htracked : f.Tracked)
    (hupvalues : f.upvalues = b.current.upvalues) (hscopes : f.scopes = b.current.scopes) :
    b.Retains { b with current := f } where
  carries := hcarries
  tracks := {
    ready := hready
    tracked := htracked
    anchored := by
      rw [hupvalues]
      exact h.anchored
    locals := by
      rw [hscopes]
      exact fun r hr => hcarries.at_end (h.locals r hr) }

theorem Tracks.same (h : b.Tracks) (hready : Ready { b with current := f })
    (hparams : f.paramCount = b.current.paramCount) (hlisting : f.listing = b.current.listing)
    (hchildren : f.children = b.current.children) (hloops : f.loops = b.current.loops)
    (hupvalues : f.upvalues = b.current.upvalues) (hscopes : f.scopes = b.current.scopes) :
    b.Retains { b with current := f } :=
  h.grow hready (.of_same hparams hlisting)
    (h.tracked.of_same hparams hlisting hchildren (by rw [hloops])) hupvalues hscopes

theorem Tracks.regain (h : b.Tracks) (h' : b'.Tracks) (hready : Ready { b' with current := f })
    (hcarries : b.current.Carries f) (htracked : f.Tracked)
    (hupvalues : f.upvalues = b'.current.upvalues)
    (hstack : f.scopes.stack = b.current.scopes.stack) :
    b.Retains { b' with current := f } where
  carries := hcarries
  tracks := {
    ready := hready
    tracked := htracked
    anchored := by
      rw [hupvalues]
      exact h'.anchored
    locals := by
      rw [Scopes.registers, hstack]
      exact fun r hr => hcarries.at_end (h.locals r hr) }

theorem addCapture_anchored {up : Capture} {outer : FunctionBuilder} {rest : List FunctionBuilder}
    (h : Anchored f.upvalues (outer :: rest))
    (hup : up.inStack = true → up.index.toNat ∈ outer.scopes.registers) :
    match captureFrom.addCapture up f (outer :: rest) with
    | .ok _ after => Anchored after.1.upvalues after.2
    | .error _ _ => True := by
  unfold captureFrom.addCapture
  have happend := appendUpvalue_ensures up f
  cases hrun : appendUpvalue up f with
  | error error f' => trivial
  | ok index f' =>
    obtain ⟨-, -, rfl⟩ := happend.of_ok hrun
    refine ⟨fun other hother => ?_, h.2⟩
    rcases List.mem_append.mp hother with hother | hother
    · exact h.1 other hother
    · rw [List.mem_singleton.mp hother]
      exact hup

theorem captureFrom_anchored (name : String) (f : FunctionBuilder)
    (enclosing : List FunctionBuilder) (h : Anchored f.upvalues enclosing) :
    match captureFrom name f enclosing with
    | .ok _ after => Anchored after.1.upvalues after.2
    | .error _ _ => True := by
  induction f, enclosing using captureFrom.induct name with
  | case1 f => trivial
  | case2 f outer rest index hindex =>
    simp only [captureFrom, hindex]
    exact h
  | case3 f outer rest hnone register hregister =>
    simp only [captureFrom, hnone, hregister]
    exact addCapture_anchored h fun _ => Scopes.mem_registers_of_register? hregister
  | case4 f outer rest hnone hlocal error outer' rest' hrun ih =>
    simp only [captureFrom, hnone, hlocal, hrun]
  | case5 f outer rest hnone hlocal outer' rest' hrun ih =>
    have hsearched := captureFrom_searched name outer rest
    have hinner := ih h.2
    simp only [hrun] at hsearched hinner
    simp only [captureFrom, hnone, hlocal, hrun]
    refine ⟨?_, hinner⟩
    rw [hsearched.1.scopes]
    exact h.1
  | case6 f outer rest hnone hlocal index outer' rest' hrun ih =>
    have hsearched := captureFrom_searched name outer rest
    have hinner := ih h.2
    simp only [hrun] at hsearched hinner
    simp only [captureFrom, hnone, hlocal, hrun]
    refine addCapture_anchored ⟨?_, hinner⟩ (fun hstack => absurd hstack (by simp))
    rw [hsearched.1.scopes]
    exact h.1

theorem resolve_anchored {name : String} {found : Variable}
    (h : Anchored b.current.upvalues b.enclosing) (hrun : resolve name b = .ok found b') :
    Anchored b'.current.upvalues b'.enclosing := by
  have hsearch := captureFrom_anchored name b.current b.enclosing h
  unfold resolve at hrun
  split at hrun
  · injection hrun with _ hstate
    rwa [← hstate]
  · split at hrun
    · next hcapture =>
      injection hrun with _ hstate
      rw [hcapture] at hsearch
      rwa [← hstate]
    · next hcapture =>
      injection hrun with _ hstate
      rw [hcapture] at hsearch
      rwa [← hstate]
    · simp at hrun

end ChunkBuilder

namespace Lower
open ChunkBuilder FunctionBuilder

variable {b b' : ChunkBuilder} {weight : Nat} {operand : Operand} {target : UInt8}

theorem allocate_retains (h : b.Tracks) :
    allocate.Promises b fun register b' => (b.Grows 0 b' ∧
      register.toNat = b.current.nextFree ∧ b'.current.nextFree = b.current.nextFree + 1) ∧
      b.Retains b' := by
  have hensures := allocate_ensures h.ready
  refine hensures.and_promises ⟨fun {register b'} hrun => ?_⟩
  have hready := (hensures.of_ok hrun).1.ready h.ready
  obtain ⟨f, ⟨-, -, rfl⟩, rfl⟩ :=
    (onCurrent_ensures (FunctionBuilder.allocate_ensures b.current)).of_ok hrun
  exact h.same hready rfl rfl rfl rfl rfl rfl

theorem place_retains (h : b.Tracks) (dest : Option UInt8) :
    (place dest).Promises b fun target b' =>
      b.Delivers dest 0 (.register target) b' ∧ b.Retains b' := by
  refine (place_delivers h.ready dest).and_promises ?_
  cases dest with
  | some asked => exact promises_pure h.retains
  | none => exact (allocate_retains h).mono fun _ _ hpost => hpost.2

theorem free_retains (h : b.Ready) (hyields : b.Yields weight operand b') (h' : b'.Tracks) :
    (free operand).Promises b' fun _ b'' => b.Balanced weight b'' ∧ b'.Retains b'' := by
  have hensures := free_balanced h hyields
  refine hensures.and_promises ⟨fun {_ b''} hrun => ?_⟩
  have hready := (hensures.of_ok hrun).ready h
  obtain ⟨next, rfl⟩ := free_eq hrun
  exact h'.same hready rfl rfl rfl rfl rfl rfl

theorem emit_retains (h : b.Tracks) {op : Opcode} {x y z : Int}
    (hplain : Instruction.IsPlain { op, a := x, b := y, c := z })
    (hsupplies : b.current.Supplies b.current.pc { op, a := x, b := y, c := z }) :
    (emit op x y z).Promises b fun _ b' => b.Balanced 1 b' ∧ b.Retains b' ∧
      ∀ r, Instruction.Writes { op, a := x, b := y, c := z } r →
        b'.current.IsSet b'.current.pc r := by
  have hensures := emit_balanced h.ready hplain
  refine hensures.and_promises ⟨fun {_ b'} hrun => ?_⟩
  have hready := (hensures.of_ok hrun).ready h.ready
  obtain ⟨-, rfl⟩ := (emit_ensures op x y z b).of_ok hrun
  have hfalls : (b.current.stamped { op, a := x, b := y, c := z }).Falls :=
    Instruction.falls_of_isPlain hplain
  obtain ⟨hcarries, htracked, hset⟩ := h.tracked.fall hfalls hsupplies
  refine ⟨h.grow hready hcarries htracked rfl rfl, fun r hr => ?_⟩
  rw [pc_placed]
  exact hset r hr

theorem emit_reading (h : b.Tracks) {op : Opcode} {x y z : Int}
    (hplain : Instruction.IsPlain { op, a := x, b := y, c := z }) (hop : op ≠ .closure)
    (hreads : ∀ r, Instruction.Reads { op, a := x, b := y, c := z } r →
      b.current.IsSet b.current.pc r) :
    (emit op x y z).Promises b fun _ b' => b.Balanced 1 b' ∧ b.Retains b' ∧
      ∀ r, Instruction.Writes { op, a := x, b := y, c := z } r →
        b'.current.IsSet b'.current.pc r :=
  emit_retains h hplain (supplies_of_reads hop hreads)

theorem loadConstant_retains (h : b.Tracks) (target : UInt8) (slot : Nat) :
    (loadConstant target slot).Promises b fun _ b' => b.Balanced 2 b' ∧ b.Retains b' ∧
      b'.current.IsSet b'.current.pc target.toNat := by
  have hensures := loadConstant_balanced h.ready target slot
  refine hensures.and_promises ⟨fun {_ b'} hrun => ?_⟩
  have hready := (hensures.of_ok hrun).ready h.ready
  obtain ⟨index, b₁, hload, hreturn⟩ := bind_eq_ok.mp hrun
  obtain ⟨-, rfl⟩ := pure_eq_ok.mp hreturn
  obtain ⟨f, ⟨-, rfl⟩, rfl⟩ := (onCurrent_ensures
    (FunctionBuilder.loadConstant_ensures target slot b.current)).of_ok hload
  obtain ⟨hcarries, htracked, hset⟩ := h.tracked.constantLoad target slot
  refine ⟨h.grow hready hcarries htracked rfl rfl, ?_⟩
  rwa [pc_placed]

theorem intern_retains (h : b.Tracks) (hroom : b.current.Room 1) (c : Constant) :
    (onCurrent (FunctionBuilder.intern c)).Promises b fun slot b' => b.Balanced 1 b' ∧
      b.Retains b' ∧ b'.current.Has (.constant slot) := by
  have hensures := intern_balanced h.ready c
  refine hensures.and_promises ⟨fun {slot b'} hrun => ?_⟩
  have hready := (hensures.of_ok hrun).ready h.ready
  rw [onCurrent_apply, FunctionBuilder.intern_apply] at hrun
  injection hrun with hslot hstate
  subst hslot hstate
  refine ⟨h.same hready rfl rfl rfl rfl rfl rfl, ?_⟩
  have hsize := b.current.constants.size_intern_le c
  have hle : (b.current.constants.intern c).2.size ≤ capacity := by
    have := hroom.2
    omega
  exact Nat.lt_of_lt_of_le
    (Pool.slot_lt_size_intern (Nat.le_trans hle (by decide))) hle

theorem constant_retains (h : b.Tracks) (hroom : b.current.Room 1) (c : Constant) :
    (constant c).Promises b fun operand b' => b.Yields 1 operand b' ∧ b.Retains b' ∧
      b'.current.Has operand := by
  refine (constant_yields h.ready c).and_promises ?_
  apply (intern_retains h hroom c).bind
  rintro slot b' ⟨-, hretains, hhas⟩
  exact promises_pure ⟨hretains, hhas⟩

theorem resolve_retains (h : b.Tracks) (name : String) :
    (resolve name).Promises b fun found b' => b.Balanced 0 b' ∧ b.Retains b' ∧
      b'.current.Has found.operand := by
  have hensures := resolve_balanced h.ready name
  refine ⟨fun {found b'} hrun => ?_⟩
  have hbalanced := (hensures.of_ok hrun).1
  have hanchored := resolve_anchored h.anchored hrun
  have hready := hbalanced.ready h.ready
  obtain ⟨hfound, current, enclosing, ⟨hcurrent, -⟩, rfl⟩ := (resolve_ensures name b).of_ok hrun
  obtain ⟨captured, rfl⟩ : ∃ captured,
    current = { b.current with upvalues := b.current.upvalues ++ captured } := hcurrent
  have hcarries : b.current.Carries
      { b.current with upvalues := b.current.upvalues ++ captured } := .of_same rfl rfl
  refine ⟨hbalanced, ⟨hcarries, hready, ?_, hanchored, h.locals⟩, ?_⟩
  · exact h.tracked.of_same rfl rfl rfl rfl
  · cases found with
    | register register => exact h.locals _ (Scopes.mem_registers_of_register? hfound)
    | _ => trivial

theorem resolve_has (h : b.Tracks) (name : String) :
    (resolve name).Promises b fun found b' => b.Yields 0 found.operand b' ∧ b.Retains b' ∧
      b'.current.Has found.operand := by
  refine (resolve_yields h.ready name).and_promises ?_
  exact (resolve_retains h name).mono fun _ _ hpost => hpost.2

theorem toKey_retains (h : b.Tracks) (hroom : b.current.Room 1) (name : String) :
    (toKey name).Promises b fun short b' => b.Yields 3 short.holder b' ∧ b.Retains b' ∧
      b'.current.HasField short.field := by
  refine (toKey_yields h.ready name).and_promises ?_
  rw [toKey_eq]
  apply (intern_retains h hroom (.string name)).bind
  rintro slot b₁ ⟨-, hinterned, hhas⟩
  cases hshort : (Operand.constant slot).short? with
  | some field =>
    rw [toShort_of_some hshort]
    exact promises_pure ⟨hinterned, hhas.short hshort⟩
  | none =>
    rw [toShort_constant hshort]
    apply (allocate_retains hinterned.tracks).bind
    rintro target b₂ ⟨-, htaken⟩
    apply (loadConstant_retains htaken.tracks target slot.toNat).bind
    rintro _ b₃ ⟨-, hloaded, hset⟩
    exact promises_pure ⟨hinterned.trans (htaken.trans hloaded), hasField_register hset⟩

theorem emit_free_reading (h : b.Ready) (hyields : b.Yields weight operand b') (h' : b'.Tracks)
    {op : Opcode} {x y z : Int}
    (hplain : Instruction.IsPlain { op, a := x, b := y, c := z }) (hop : op ≠ .closure)
    (hreads : ∀ r, Instruction.Reads { op, a := x, b := y, c := z } r →
      b'.current.IsSet b'.current.pc r) :
    Promises (do emit op x y z; free operand) b' fun _ b'' => b'.Retains b'' ∧
      ∀ r, Instruction.Writes { op, a := x, b := y, c := z } r →
        b''.current.IsSet b''.current.pc r := by
  apply (emit_reading h' hplain hop hreads).bind
  rintro _ b₁ ⟨hemitted, hretains, hset⟩
  apply (free_retains h (hyields.balanced hemitted) hretains.tracks).mono
  rintro _ b₂ ⟨-, hfreed⟩
  exact ⟨hretains.trans hfreed, fun r hr => hfreed.carries.at_end (hset r hr)⟩

theorem releasing_reading (h : b.Ready) (hyields : b.Yields weight operand b') (h' : b'.Tracks)
    {op : Opcode} {x y z : Int}
    (hplain : Instruction.IsPlain { op, a := x, b := y, c := z }) (hop : op ≠ .closure)
    (hreads : ∀ r, Instruction.Reads { op, a := x, b := y, c := z } r →
      b'.current.IsSet b'.current.pc r) :
    (releasing operand (emit op x y z)).Promises b' fun _ b'' => b'.Retains b'' ∧
      ∀ r, Instruction.Writes { op, a := x, b := y, c := z } r →
        b''.current.IsSet b''.current.pc r :=
  ⟨fun hrun => (emit_free_reading h hyields h' hplain hop hreads).of_ok
    (releasing_eq_ok_iff.mp hrun)⟩

theorem loadGlobal_retains (h : b.Tracks) (hroom : b.current.Room 1) (name : String)
    (target : UInt8) :
    (loadGlobal name target).Promises b fun _ b' => b.Retains b' ∧
      b'.current.IsSet b'.current.pc target.toNat := by
  rw [loadGlobal_eq]
  apply (toKey_retains h hroom name).bind
  rintro key b₁ ⟨hkey, hretains, hfield⟩
  apply (resolve_retains hretains.tracks environmentName).bind
  rintro found b₂ ⟨hfound, hresolved, hhas⟩
  have hheld := hkey.balanced hfound
  have hfield' := hresolved.carries.hasField hfield
  have hboth := hretains.trans hresolved
  cases found with
  | upvalue index =>
    refine Promises.mono (releasing_reading h.ready hheld hresolved.tracks
      (Instruction.isPlain_of_op rfl) (by decide) hfield') ?_
    rintro _ b₃ ⟨hdone, hset⟩
    exact ⟨hboth.trans hdone, hset _ rfl⟩
  | register index =>
    refine Promises.mono (releasing_reading h.ready hheld hresolved.tracks
      (Instruction.isPlain_of_op rfl) (by decide) ?_) ?_
    · rintro r (hr | hr)
      · exact hasField_register hhas r hr
      · exact hfield' r hr
    · rintro _ b₃ ⟨hdone, hset⟩
      exact ⟨hboth.trans hdone, hset _ rfl⟩
  | global global =>
    refine ⟨fun hrun => ?_⟩
    obtain ⟨_, hthrow, -⟩ := releasing_eq_ok.mp hrun
    cases hthrow

theorem storeGlobal_retains (h : b.Tracks) (hroom : b.current.Room 1) (name : String)
    {value : Short} (hvalue : b.current.HasField value.field) :
    (storeGlobal name value.holder).Promises b fun _ b' => b.Balanced 4 b' ∧ b.Retains b' := by
  refine (storeGlobal_balanced h.ready name value).and_promises ?_
  rw [storeGlobal_eq]
  apply (toKey_retains h hroom name).bind
  rintro key b₁ ⟨hkey, hretains, hfield⟩
  apply (resolve_retains hretains.tracks environmentName).bind
  rintro found b₂ ⟨hfound, hresolved, hhas⟩
  have hheld := hkey.balanced hfound
  have hboth := hretains.trans hresolved
  have hfield' := hresolved.carries.hasField hfield
  have hvalue' := hboth.carries.hasField hvalue
  cases found with
  | upvalue index =>
    refine Promises.mono (emit_free_reading h.ready hheld hresolved.tracks
      (Instruction.isPlain_of_op rfl) (by decide) ?_) fun _ _ hdone => hboth.trans hdone.1
    rintro r (hr | hr)
    · exact hfield' r hr
    · exact hvalue' r hr
  | register index =>
    refine Promises.mono (emit_free_reading h.ready hheld hresolved.tracks
      (Instruction.isPlain_of_op rfl) (by decide) ?_) fun _ _ hdone => hboth.trans hdone.1
    rintro r (hr | hr | hr)
    · exact hasField_register hhas r hr
    · exact hfield' r hr
    · exact hvalue' r hr
  | global global =>
    refine ⟨fun hrun => ?_⟩
    obtain ⟨_, _, hthrow, -⟩ := bind_eq_ok.mp hrun
    cases hthrow

theorem load_retains (h : b.Tracks) (hroom : b.current.Room 1) (hhas : b.current.Has operand)
    (target : UInt8) :
    (load operand target).Promises b fun _ b' => b.Balanced 4 b' ∧ b.Retains b' ∧
      b'.current.IsSet b'.current.pc target.toNat := by
  refine (load_balanced h.ready operand target).and_promises ?_
  cases operand with
  | register index =>
    by_cases hsame : index = target
    · simp only [load, hsame, ↓reduceIte]
      rw [hsame] at hhas
      exact promises_pure ⟨h.retains, hhas⟩
    · simp only [load, hsame, ↓reduceIte]
      exact Promises.mono (emit_reading h (Instruction.isPlain_of_op rfl) (by decide)
        (hasField_register hhas)) fun _ _ hemitted => ⟨hemitted.2.1, hemitted.2.2 _ rfl⟩
  | constant slot => exact (loadConstant_retains h target _).mono fun _ _ hpost => hpost.2
  | boolean value =>
    exact Promises.mono (emit_reading h ⟨rfl, rfl, by simp, by simp, by simp, fun _ => rfl⟩
      (by decide) fun _ => False.elim) fun _ _ hemitted => ⟨hemitted.2.1, hemitted.2.2 _ rfl⟩
  | nil =>
    exact Promises.mono (emit_reading h (Instruction.isPlain_of_op rfl) (by decide)
      fun _ => False.elim) fun _ _ hemitted =>
        ⟨hemitted.2.1, hemitted.2.2 _ ⟨Int.le_refl _, by simp⟩⟩
  | upvalue index =>
    exact Promises.mono (emit_reading h (Instruction.isPlain_of_op rfl) (by decide)
      fun _ => False.elim) fun _ _ hemitted => ⟨hemitted.2.1, hemitted.2.2 _ rfl⟩
  | global name => exact loadGlobal_retains h hroom name target

theorem toRegister_retains (h : b.Ready) (hyields : b.Yields weight operand b') (h' : b'.Tracks)
    (hroom : b'.current.Room 1) (hhas : b'.current.Has operand) :
    (toRegister operand).Promises b' fun register b'' =>
      b.Yields (weight + 4) (.register register) b'' ∧ b'.Retains b'' ∧
        b''.current.IsSet b''.current.pc register.toNat := by
  refine (toRegister_yields h hyields).and_promises ?_
  rcases toRegister_cases operand with ⟨index, rfl, hsame⟩ | hfresh
  · rw [hsame]
    exact promises_pure ⟨h'.retains, hhas⟩
  · rw [hfresh]
    apply (allocate_retains h').bind
    rintro target b₁ ⟨⟨hgrows, -⟩, htaken⟩
    apply (load_retains htaken.tracks (hroom.after hgrows.current (by omega))
      (htaken.carries.has hhas) target).bind
    rintro _ b₂ ⟨-, hloaded, hset⟩
    exact promises_pure ⟨htaken.trans hloaded, hset⟩

theorem toShort_retains (h : b.Ready) (hyields : b.Yields weight operand b') (h' : b'.Tracks)
    (hroom : b'.current.Room 1) (hhas : b'.current.Has operand) :
    (toShort operand).Promises b' fun short b'' =>
      b.Yields (weight + 4) short.holder b'' ∧ b'.Retains b'' ∧
        b''.current.Has short.holder ∧ b''.current.HasField short.field := by
  refine (toShort_yields h hyields).and_promises ?_
  rcases toShort_cases operand with ⟨short, rfl, hsame⟩ | hheld
  · rw [hsame]
    exact promises_pure ⟨h'.retains, hhas, hhas.short short.isShort⟩
  · rw [hheld]
    apply (toRegister_retains h hyields h' hroom hhas).bind
    rintro target b₁ ⟨-, hretains, hset⟩
    exact promises_pure ⟨hretains, hset, hasField_register hset⟩

theorem settle_retains (h : b.Ready) (hyields : b.Yields weight operand b') (h' : b'.Tracks)
    (hroom : b'.current.Room 1) (hhas : b'.current.Has operand) (dest : Option UInt8) :
    (settle operand dest).Promises b' fun result b'' => b'.Retains b'' ∧
      b''.current.Has result := by
  cases dest with
  | none => exact promises_pure ⟨h'.retains, hhas⟩
  | some target =>
    apply (load_retains h' hroom hhas target).bind
    rintro _ b₁ ⟨hloaded, hretains, hset⟩
    apply (free_retains h (hyields.balanced hloaded) hretains.tracks).bind
    rintro _ b₂ ⟨-, hfreed⟩
    exact promises_pure ⟨hretains.trans hfreed, hfreed.carries.at_end hset⟩

end Lower

end RegisterCode
