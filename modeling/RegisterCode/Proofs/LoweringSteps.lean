import RegisterCode.Proofs.Captures
import RegisterCode.Proofs.LoweringForms

/-! The steps of lowering. Each leaves the invariant intact and hands back every
register it took, apart from the one that holds its result. -/
namespace RegisterCode

open Action

namespace FunctionBuilder

/-- An operand in place above `n` registers: it holds no register of its own, or it
is alone in the next one. -/
def Holds (n : Nat) (f : FunctionBuilder) : Operand → Prop
  | .register register => (register.toNat < f.scopes.count ∧ f.nextFree = n) ∨
      (register.toNat = n ∧ f.nextFree = n + 1)
  | _ => f.nextFree = n

theorem Holds.congr {n : Nat} {f f' : FunctionBuilder} {operand : Operand}
    (h : f.Holds n operand) (hscopes : f'.scopes = f.scopes) (hnext : f'.nextFree = f.nextFree) :
    f'.Holds n operand := by
  unfold Holds at h ⊢
  rwa [hscopes, hnext]

end FunctionBuilder

namespace ChunkBuilder

structure Balanced (weight : Nat) (b b' : ChunkBuilder) : Prop extends Grows weight b b' where
  nextFree : b'.current.nextFree = b.current.nextFree

/-- Grown, with at most the register of an operand kept. -/
structure Yields (weight : Nat) (operand : Operand) (b b' : ChunkBuilder) : Prop extends
    Grows weight b b' where
  holds : b'.current.Holds b.current.nextFree operand

/-- Grown and balanced, but for a jump that still waits for its target. -/
structure Awaits (jump weight : Nat) (b b' : ChunkBuilder) : Prop extends
    Extends none [jump] weight b b' where
  scopes : b'.current.scopes = b.current.scopes
  loops : b'.current.loops = b.current.loops
  line : b'.current.line = b.current.line
  nextFree : b'.current.nextFree = b.current.nextFree

/-- Grown by a value that goes to the register asked for, or else to any operand. -/
def Delivers (dest : Option UInt8) (weight : Nat) (operand : Operand) (b b' : ChunkBuilder) :
    Prop :=
  match dest with
  | some target => operand = .register target ∧ b.Balanced weight b'
  | none => b.Yields weight operand b'

variable {weight weight' : Nat} {operand : Operand} {b b' b'' : ChunkBuilder}

theorem Balanced.trans (h : b.Balanced weight b') (h' : b'.Balanced weight' b'') :
    b.Balanced (weight + weight') b'' :=
  ⟨h.toGrows.trans h'.toGrows, h'.nextFree.trans h.nextFree⟩

theorem Balanced.weaken (h : b.Balanced weight b') (hle : weight ≤ weight') :
    b.Balanced weight' b' :=
  ⟨h.toGrows.weaken hle, h.nextFree⟩

theorem Balanced.yields (h : b.Balanced weight b') (h' : b'.Yields weight' operand b'') :
    b.Yields (weight + weight') operand b'' :=
  ⟨h.toGrows.trans h'.toGrows, by rw [← h.nextFree]; exact h'.holds⟩

theorem Yields.balanced (h : b.Yields weight operand b') (h' : b'.Balanced weight' b'') :
    b.Yields (weight + weight') operand b'' :=
  ⟨h.toGrows.trans h'.toGrows, h.holds.congr h'.scopes h'.nextFree⟩

theorem Yields.weaken (h : b.Yields weight operand b') (hle : weight ≤ weight') :
    b.Yields weight' operand b' :=
  ⟨h.toGrows.weaken hle, h.holds⟩

theorem Delivers.balanced {dest : Option UInt8} (h : b.Delivers dest weight operand b')
    (h' : b'.Balanced weight' b'') : b.Delivers dest (weight + weight') operand b'' := by
  cases dest with
  | some target => exact ⟨h.1, h.2.trans h'⟩
  | none => exact Yields.balanced h h'

theorem Delivers.weaken {dest : Option UInt8} (h : b.Delivers dest weight operand b')
    (hle : weight ≤ weight') : b.Delivers dest weight' operand b' := by
  cases dest with
  | some target => exact ⟨h.1, h.2.weaken hle⟩
  | none => exact Yields.weaken h hle

theorem Delivers.grows {dest : Option UInt8} (h : b.Delivers dest weight operand b') :
    b.Grows weight b' := by
  cases dest with
  | some target => exact h.2.toGrows
  | none => exact Yields.toGrows h

theorem Balanced.awaits {jump : Nat} (h : b.Balanced weight b')
    (h' : b'.Awaits jump weight' b'') : b.Awaits jump (weight + weight') b'' where
  toExtends := h.toExtends.trans h'.toExtends
  scopes := h'.scopes.trans h.scopes
  loops := h'.loops.trans h.loops
  line := h'.line.trans h.line
  nextFree := h'.nextFree.trans h.nextFree

theorem Awaits.balanced {jump : Nat} (h : b.Awaits jump weight b')
    (h' : b'.Balanced weight' b'') : b.Awaits jump (weight + weight') b'' where
  toExtends := h.toExtends.trans h'.toExtends
  scopes := h'.scopes.trans h.scopes
  loops := h'.loops.trans h.loops
  line := h'.line.trans h.line
  nextFree := h'.nextFree.trans h.nextFree

end ChunkBuilder

namespace Lower
open ChunkBuilder

variable {b b' : ChunkBuilder} {weight : Nat} {operand : Operand}

theorem onCurrent_ensures {α : Type} {action : Build α} {post : α → FunctionBuilder → Prop}
    (h : action.Ensures b.current post) :
    (onCurrent action).Ensures b fun value b' =>
      ∃ current, post value current ∧ b' = { b with current } := by
  rw [ensures_iff] at h ⊢
  rw [onCurrent_apply]
  cases hrun : action b.current with
  | ok value current =>
    rw [hrun] at h
    exact ⟨current, h, rfl⟩
  | error error current =>
    rw [hrun] at h
    exact h

theorem onCurrent_eq_ok {α : Type} {action : Build α} {value : α} :
    onCurrent action b = .ok value b' ↔
      ∃ current, action b.current = .ok value current ∧ b' = { b with current } := by
  rw [onCurrent_apply]
  cases action b.current with
  | ok value' current =>
    constructor
    · rintro ⟨⟩
      exact ⟨current, rfl, rfl⟩
    · rintro ⟨_, ⟨⟩, rfl⟩
      rfl
  | error error current => simp

theorem onCurrent_modify_eq_ok {change : FunctionBuilder → FunctionBuilder} :
    onCurrent (modify change) b = .ok () b' ↔
      b' = { b with current := change b.current } := by
  rw [onCurrent_eq_ok]
  constructor
  · rintro ⟨_, ⟨⟩, rfl⟩
    rfl
  · rintro rfl
    exact ⟨_, rfl, rfl⟩

theorem grows_of_extends {weight : Nat} {current : FunctionBuilder}
    (h : b.current.Extends none [] weight current) (hscopes : current.scopes = b.current.scopes)
    (hloops : current.loops = b.current.loops) (hline : current.line = b.current.line) :
    b.Grows weight { b with current } where
  current := h
  around := .of_eq rfl rfl
  scopes := hscopes
  loops := hloops
  line := hline

theorem balanced_refl (h : b.Ready) : b.Balanced 0 b :=
  ⟨grows_of_extends ((FunctionBuilder.Captures.refl b.current).extends h.sound) rfl rfl rfl, rfl⟩

theorem allocate_ensures (h : b.Ready) :
    allocate.Ensures b fun register b' => b.Grows 0 b' ∧
      register.toNat = b.current.nextFree ∧ b'.current.nextFree = b.current.nextFree + 1 := by
  apply (onCurrent_ensures (FunctionBuilder.allocate_ensures b.current)).mono
  rintro register _ ⟨_, ⟨hlt, hregister, rfl⟩, rfl⟩
  have hcount := h.sound.count_le
  have hhigh := h.sound.highWater_le
  refine ⟨grows_of_extends ?_ rfl rfl rfl, hregister, rfl⟩
  exact FunctionBuilder.extends_withRegisters h.sound (by omega) (Nat.le_max_right _ _)
    (Nat.le_max_left _ _) (by omega)

theorem allocate_yields (h : b.Ready) :
    allocate.Ensures b fun register b' => b.Yields 0 (.register register) b' :=
  (allocate_ensures h).mono fun _ _ hpost => ⟨hpost.1, .inr hpost.2⟩

theorem place_delivers (h : b.Ready) (dest : Option UInt8) :
    (place dest).Ensures b fun target b' => b.Delivers dest 0 (.register target) b' := by
  cases dest with
  | some asked => exact ensures_pure ⟨rfl, balanced_refl h⟩
  | none => exact allocate_yields h

theorem free_succeeds (h : b.Ready) {n : Nat} (hcount : b.current.scopes.count ≤ n)
    (hholds : b.current.Holds n operand) :
    ∃ b', free operand b = .ok () b' ∧ b.Grows 0 b' ∧ b'.current.nextFree = n := by
  have hhigh := h.sound.highWater_le
  have hnext := h.sound.nextFree_le
  unfold free
  split
  · next register =>
    rcases hholds with ⟨howned, hfree⟩ | ⟨hnewest, hfree⟩
    · have hrun := FunctionBuilder.free_of_owned ((h.sound.isOwned_iff register).mpr howned)
      exact ⟨b, onCurrent_eq_ok.mpr ⟨b.current, hrun, rfl⟩, (balanced_refl h).toGrows, hfree⟩
    · have hnotOwned : b.current.scopes.isOwned register = false := by
        rw [← Bool.not_eq_true, h.sound.isOwned_iff]
        omega
      have hrun := FunctionBuilder.free_of_newest hnotOwned (by omega)
      refine ⟨_, onCurrent_eq_ok.mpr ⟨_, hrun, rfl⟩, grows_of_extends ?_ rfl rfl rfl, hnewest⟩
      exact FunctionBuilder.extends_withRegisters h.sound (by omega) (by omega)
        (Nat.le_refl _) hhigh
  · next hother =>
    refine ⟨b, rfl, (balanced_refl h).toGrows, ?_⟩
    cases operand with
    | register register => exact absurd rfl (hother register)
    | _ => exact hholds

theorem free_grows (h : b.Ready) {n : Nat} (hcount : b.current.scopes.count ≤ n)
    (hholds : b.current.Holds n operand) :
    (free operand).Ensures b fun _ b' => b.Grows 0 b' ∧ b'.current.nextFree = n := by
  obtain ⟨b', hrun, hpost⟩ := free_succeeds h hcount hholds
  exact ensures_of_eq_ok hrun hpost

theorem free_balanced (h : b.Ready) (hyields : b.Yields weight operand b') :
    (free operand).Ensures b' fun _ b'' => b.Balanced weight b'' := by
  have hcount : b'.current.scopes.count ≤ b.current.nextFree := by
    rw [hyields.scopes]
    exact h.sound.count_le
  apply (free_grows (hyields.ready h) hcount hyields.holds).mono
  intro _ b'' hfreed
  exact ⟨hyields.toGrows.trans hfreed.1, hfreed.2⟩

theorem placed_balanced (h : b.Ready) {code : List Instruction}
    (hencodes : ∀ i ∈ code, ∃ word, i.encode = .ok word)
    (hflow : Flow none b.current.pc code []) (hweight : code.length ≤ weight) :
    b.Balanced weight { b with current := b.current.placed code } :=
  ⟨grows_of_extends (FunctionBuilder.extends_placed h.sound hencodes hflow hweight) rfl rfl rfl,
    rfl⟩

theorem emit_ensures (op : Opcode) (x y z : Int) (b : ChunkBuilder) :
    (emit op x y z).Ensures b fun _ b' =>
      (∃ word, (b.current.stamped { op, a := x, b := y, c := z }).encode = .ok word) ∧
        b' = { b with
          current := b.current.placed [b.current.stamped { op, a := x, b := y, c := z }] } := by
  apply (onCurrent_ensures (FunctionBuilder.emit_ensures _ b.current)).bind
  rintro _ _ ⟨_, ⟨-, hencode, rfl⟩, rfl⟩
  exact ensures_pure ⟨hencode, rfl⟩

theorem emit_balanced (h : b.Ready) {op : Opcode} {x y z : Int}
    (hplain : Instruction.IsPlain { op, a := x, b := y, c := z }) :
    (emit op x y z).Ensures b fun _ b' => b.Balanced 1 b' := by
  apply (emit_ensures op x y z b).mono
  rintro _ _ ⟨hencode, rfl⟩
  exact placed_balanced h (by simpa using hencode) (.plain hplain) (by simp)

theorem loadConstant_balanced (h : b.Ready) (target : UInt8) (slot : Nat) :
    (loadConstant target slot).Ensures b fun _ b' => b.Balanced 2 b' := by
  apply (onCurrent_ensures (FunctionBuilder.loadConstant_ensures target slot b.current)).bind
  rintro _ _ ⟨_, ⟨hencodes, rfl⟩, rfl⟩
  refine ensures_pure (placed_balanced h hencodes (FunctionBuilder.flow_constantLoad _ _) ?_)
  unfold FunctionBuilder.constantLoad
  split <;> simp

theorem intern_balanced (h : b.Ready) (c : Constant) :
    (onCurrent (FunctionBuilder.intern c)).Ensures b fun _ b' => b.Balanced 1 b' := by
  have hrun := FunctionBuilder.intern_apply c b.current
  refine (onCurrent_ensures (ensures_of_eq_ok hrun rfl : Ensures _ b.current fun _ f =>
    f = { b.current with constants := (b.current.constants.intern c).2 })).mono ?_
  rintro _ _ ⟨_, rfl, rfl⟩
  exact ⟨grows_of_extends (FunctionBuilder.extends_interned h.sound c) rfl rfl rfl, rfl⟩

theorem constant_yields (h : b.Ready) (c : Constant) :
    (constant c).Ensures b fun operand b' => b.Yields 1 operand b' := by
  apply (intern_balanced h c).bind
  intro slot b' hinterned
  exact ensures_pure ⟨hinterned.toGrows, hinterned.nextFree⟩

theorem count_of_register? {f : FunctionBuilder} (h : f.Sound) {name : String} {register : UInt8}
    (hfound : f.scopes.register? name = some register) : register.toNat < f.scopes.count := by
  have hmem := Scopes.mem_registers_of_register? hfound
  rwa [h.registers, List.mem_range] at hmem

theorem resolve_balanced (h : b.Ready) (name : String) :
    (resolve name).Ensures b fun found b' => b.Balanced 0 b' ∧
      match found with
      | .register register => register.toNat < b'.current.scopes.count
      | .upvalue _ => True
      | .global global => global = name ∧ name ≠ FunctionBuilder.environmentName := by
  apply (resolve_ensures name b).mono
  rintro found _ ⟨hfound, current, enclosing, ⟨hcurrent, henclosing⟩, rfl⟩
  have hextends : b.current.Extends none [] 0 current := hcurrent.extends h.sound
  obtain ⟨captured, rfl⟩ : ∃ captured,
    current = { b.current with upvalues := b.current.upvalues ++ captured } := hcurrent
  refine ⟨⟨⟨⟨hextends, rfl, henclosing⟩, rfl, rfl, rfl⟩, rfl⟩, ?_⟩
  cases found with
  | register register => exact count_of_register? h.sound hfound
  | upvalue index => trivial
  | global global =>
    obtain ⟨rfl, after, hrun⟩ := hfound
    refine ⟨rfl, ?_⟩
    rintro rfl
    exact captureFrom_environment h.environment after hrun

theorem resolve_yields (h : b.Ready) (name : String) :
    (resolve name).Ensures b fun found b' => b.Yields 0 found.operand b' := by
  apply (resolve_balanced h name).mono
  intro found b' hpost
  refine ⟨hpost.1.toGrows, ?_⟩
  cases found with
  | register register => exact .inl ⟨hpost.2, hpost.1.nextFree⟩
  | upvalue index => exact hpost.1.nextFree
  | global global => exact hpost.1.nextFree

theorem toKey_yields (h : b.Ready) (name : String) :
    (toKey name).Ensures b fun short b' => b.Yields 3 short.holder b' := by
  rw [toKey_eq]
  apply (intern_balanced h (.string name)).bind
  intro slot b' hinterned
  have hready := hinterned.ready h
  cases hshort : (Operand.constant slot).short? with
  | some field =>
    rw [toShort_of_some hshort]
    exact ensures_pure ⟨hinterned.toGrows.weaken (by omega), hinterned.nextFree⟩
  | none =>
    rw [toShort_constant hshort]
    apply (allocate_yields hready).bind
    intro target b'' htaken
    apply (loadConstant_balanced (htaken.ready hready) target slot.toNat).bind
    intro _ c hloaded
    exact ensures_pure (hinterned.yields (htaken.balanced hloaded))

theorem emit_eq_error {op : Opcode} {x y z : Int} {error : Error}
    (hrun : emit op x y z b = .error error b') : b' = b := by
  unfold emit at hrun
  rw [bind_apply, onCurrent_apply, FunctionBuilder.emit, FunctionBuilder.onCode_apply] at hrun
  unfold Code.append at hrun
  dsimp only at hrun
  cases haccept : Instruction.accept _ b.current.tables b.current.code.instructions.back? with
  | error fault =>
    rw [haccept] at hrun
    cases hrun
    rfl
  | ok word =>
    rw [haccept] at hrun
    cases hrun

theorem emit_free_balanced (h : b.Ready) (hyields : b.Yields weight operand b') {op : Opcode}
    {x y z : Int} (hplain : Instruction.IsPlain { op, a := x, b := y, c := z }) :
    Ensures (do emit op x y z; free operand) b' fun _ b'' => b.Balanced (weight + 1) b'' := by
  apply (emit_balanced (hyields.ready h) hplain).bind
  intro _ c hemitted
  exact free_balanced h (hyields.balanced hemitted)

theorem releasing_emit_balanced (h : b.Ready) (hyields : b.Yields weight operand b') {op : Opcode}
    {x y z : Int} (hplain : Instruction.IsPlain { op, a := x, b := y, c := z }) :
    (releasing operand (emit op x y z)).Ensures b' fun _ b'' => b.Balanced (weight + 1) b'' := by
  apply releasing_ensures (emit_balanced (hyields.ready h) hplain)
  · intro error after hrun
    exact emit_eq_error hrun
  · have hcount : b'.current.scopes.count ≤ b.current.nextFree := by
      rw [hyields.scopes]
      exact h.sound.count_le
    obtain ⟨freed, hfreed, -⟩ := free_succeeds (hyields.ready h) hcount hyields.holds
    exact ⟨freed, hfreed⟩
  · intro c hemitted
    exact free_balanced h (hyields.balanced hemitted)

theorem loadGlobal_balanced (h : b.Ready) (name : String) (target : UInt8) :
    (loadGlobal name target).Ensures b fun _ b' => b.Balanced 4 b' := by
  rw [loadGlobal_eq]
  apply (toKey_yields h name).bind
  intro key b' hkey
  apply (resolve_balanced (hkey.ready h) FunctionBuilder.environmentName).bind
  intro found b'' hfound
  have hheld := hkey.balanced hfound.1
  cases found with
  | upvalue index => exact releasing_emit_balanced h hheld (Instruction.isPlain_of_op rfl)
  | register index => exact releasing_emit_balanced h hheld (Instruction.isPlain_of_op rfl)
  | global global => exact absurd rfl hfound.2.2

theorem storeGlobal_balanced (h : b.Ready) (name : String) (value : Short) :
    (storeGlobal name value.holder).Ensures b fun _ b' => b.Balanced 4 b' := by
  rw [storeGlobal_eq]
  apply (toKey_yields h name).bind
  intro key b' hkey
  apply (resolve_balanced (hkey.ready h) FunctionBuilder.environmentName).bind
  intro found b'' hfound
  have hheld := hkey.balanced hfound.1
  cases found with
  | upvalue index => exact emit_free_balanced h hheld (Instruction.isPlain_of_op rfl)
  | register index => exact emit_free_balanced h hheld (Instruction.isPlain_of_op rfl)
  | global global => exact absurd rfl hfound.2.2

theorem load_balanced (h : b.Ready) (operand : Operand) (target : UInt8) :
    (load operand target).Ensures b fun _ b' => b.Balanced 4 b' := by
  have hone : ∀ {op : Opcode} {x y z : Int},
      Instruction.IsPlain { op, a := x, b := y, c := z } →
      (emit op x y z).Ensures b fun _ b' => b.Balanced 4 b' :=
    fun hplain => (emit_balanced h hplain).mono fun _ _ hpost => hpost.weaken (by omega)
  cases operand with
  | register index =>
    by_cases hsame : index = target
    · simp only [load, hsame, ↓reduceIte]
      exact ensures_pure ((balanced_refl h).weaken (by omega))
    · simp only [load, hsame, ↓reduceIte]
      exact hone (Instruction.isPlain_of_op rfl)
  | constant slot =>
    exact (loadConstant_balanced h target _).mono fun _ _ hpost => hpost.weaken (by omega)
  | boolean value => exact hone ⟨rfl, rfl, by simp, by simp, by simp, fun _ => rfl⟩
  | nil => exact hone (Instruction.isPlain_of_op rfl)
  | upvalue index => exact hone (Instruction.isPlain_of_op rfl)
  | global name => exact loadGlobal_balanced h name target

theorem toRegister_yields (h : b.Ready) (hyields : b.Yields weight operand b') :
    (toRegister operand).Ensures b' fun register b'' =>
      b.Yields (weight + 4) (.register register) b'' := by
  have hready := hyields.ready h
  by_cases hregister : ∃ index, operand = .register index
  · obtain ⟨index, rfl⟩ := hregister
    rw [toRegister_register]
    exact ensures_pure (hyields.weaken (by omega))
  · rw [not_exists] at hregister
    rw [toRegister_of_ne hregister]
    have hbalanced : b.Balanced weight b' := by
      refine ⟨hyields.toGrows, ?_⟩
      have hholds := hyields.holds
      cases operand with
      | register register => exact absurd rfl (hregister register)
      | _ => exact hholds
    apply (allocate_yields hready).bind
    intro target b'' htaken
    apply (load_balanced (htaken.ready hready) operand target).bind
    intro _ c hloaded
    exact ensures_pure ((hbalanced.yields (htaken.balanced hloaded)).weaken (by omega))

theorem toShort_yields (h : b.Ready) (hyields : b.Yields weight operand b') :
    (toShort operand).Ensures b' fun short b'' => b.Yields (weight + 4) short.holder b'' := by
  cases hshort : operand.short? with
  | some field =>
    rw [toShort_of_some hshort]
    exact ensures_pure (hyields.weaken (by omega))
  | none =>
    rw [toShort_of_none hshort]
    apply (toRegister_yields h hyields).bind
    intro target c htarget
    exact ensures_pure htarget

theorem settle_delivers (h : b.Ready) (hyields : b.Yields weight operand b')
    (dest : Option UInt8) :
    (settle operand dest).Ensures b' fun result b'' => b.Delivers dest (weight + 4) result b'' := by
  cases dest with
  | none => exact ensures_pure (hyields.weaken (by omega))
  | some target =>
    apply (load_balanced (hyields.ready h) operand target).bind
    intro _ b'' hloaded
    apply (free_balanced h (hyields.balanced hloaded)).bind
    intro _ c hfreed
    exact ensures_pure ⟨rfl, hfreed⟩

theorem jump_ensures (b : ChunkBuilder) :
    jump.Ensures b fun index b' => index = b.current.pc ∧
      (∃ word, (b.current.stamped { op := .jmp }).encode = .ok word) ∧
      b' = { b with current := b.current.placed [b.current.stamped { op := .jmp }] } := by
  apply (onCurrent_ensures (FunctionBuilder.emit_ensures _ b.current)).mono
  rintro index _ ⟨_, ⟨hindex, hencode, rfl⟩, rfl⟩
  exact ⟨hindex, hencode, rfl⟩

theorem aimHere_ensures {index : Nat} {jump : Instruction}
    (hat : b.current.listing[index]? = some jump) (hjump : jump.op.isJump = true) :
    (aimHere index).Ensures b fun _ b' =>
      (∃ word, (FunctionBuilder.aimed jump index b.current.pc).encode = .ok word) ∧
      b' = { b with
        current := b.current.replaced index (FunctionBuilder.aimed jump index b.current.pc) } := by
  apply (onCurrent_ensures ((FunctionBuilder.aim_ensures b.current hat hjump).congr
    (FunctionBuilder.aimHere_eq_aim index b.current))).mono
  rintro _ _ ⟨_, ⟨hencode, rfl⟩, rfl⟩
  exact ⟨hencode, rfl⟩

theorem aimHere_extends {head : Option Nat} {pending pending' : List Nat} {p : Nat}
    (h : b.Extends head pending weight b')
    (hcapacity : b'.current.pc ≤ FunctionBuilder.capacity) (hwait : p ∈ pending)
    (hrest : ∀ q ∈ pending, q = p ∨ q ∈ pending') (hsub : ∀ q ∈ pending', q ∈ pending) :
    (aimHere p).Ensures b' fun _ b'' => b.Extends head pending' weight b'' ∧
      ∃ i, b'' = { b' with current := b'.current.replaced p i } := by
  apply (onCurrent_ensures ((FunctionBuilder.aim_extends h.current hcapacity hwait hrest hsub).congr
    (FunctionBuilder.aimHere_eq_aim p b'.current))).mono
  rintro _ _ ⟨_, ⟨hextends, i, rfl⟩, rfl⟩
  exact ⟨⟨hextends, h.around.options, h.around.enclosing⟩, i, rfl⟩

theorem aimHere_balanced {jump : Nat} (h : b.Awaits jump weight b')
    (hcapacity : b'.current.pc ≤ FunctionBuilder.capacity) :
    (aimHere jump).Ensures b' fun _ b'' => b.Balanced weight b'' := by
  have hrest : ∀ q ∈ [jump], q = jump ∨ q ∈ [] := by simp
  apply (aimHere_extends h.toExtends hcapacity (by simp) hrest (by simp)).mono
  rintro _ _ ⟨hextends, i, rfl⟩
  exact ⟨⟨hextends, h.scopes, h.loops, h.line⟩, h.nextFree⟩

end Lower

end RegisterCode
