import RegisterCode.Proofs.TrackedOperands

/-! The forms of expressions and the registers they find set. Operands are used only when
their code is behind, and of two ways to a result each writes it. -/
namespace RegisterCode

open Action

namespace Lower
open ChunkBuilder FunctionBuilder

variable {b b' : ChunkBuilder} {weight weight' : Nat} {target : UInt8}
  {left right value callee : Option UInt8 → Lower Operand} {compute : UInt8 → Lower Unit}
  {args : Lower (List UInt8)}

structure Setting (weight : Nat) (value : Option UInt8 → Lower Operand) : Prop where
  serving : Serving weight value
  retains : ∀ (dest : Option UInt8) (b : ChunkBuilder), b.Tracks → b.current.Room weight →
    (value dest).Promises b fun operand b' => b.Retains b' ∧ b'.current.Has operand

structure Writing (weight : Nat) (compute : UInt8 → Lower Unit) : Prop where
  balancing : ∀ target, Balancing weight (compute target)
  retains : ∀ (target : UInt8) (b : ChunkBuilder), b.Tracks → b.current.Room weight →
    (compute target).Promises b fun _ b' => b.Retains b' ∧
      b'.current.IsSet b'.current.pc target.toNat

theorem Setting.promises (h : Setting weight value) (dest : Option UInt8) (hb : b.Tracks)
    (hroom : b.current.Room weight) :
    (value dest).Promises b fun operand b' => b.Delivers dest weight operand b' ∧
      b.Retains b' ∧ b'.current.Has operand :=
  (h.serving dest b hb.ready hroom).and_promises (h.retains dest b hb hroom)

theorem Setting.weaken (h : Setting weight value) (hle : weight ≤ weight') :
    Setting weight' value where
  serving := h.serving.weaken hle
  retains := fun dest b hb hroom => h.retains dest b hb (hroom.weaken hle)

theorem Setting.writing (h : Setting weight value) :
    Writing weight fun target => do let _ ← value (some target) where
  balancing := fun target => (h.serving (some target)).ignoring
  retains := by
    intro target b hb hroom
    apply (h.promises (some target) hb hroom).bind
    rintro _ b' ⟨⟨rfl, -⟩, hretains, hset⟩
    exact promises_pure ⟨hretains, hset⟩

theorem inPlace_setting (h : Writing weight compute) : Setting weight (inPlace compute) where
  serving := inPlace_serving h.balancing
  retains := by
    intro dest b hb hroom
    apply (place_retains hb dest).bind
    rintro target b₁ ⟨hplaced, hretains₁⟩
    apply (h.retains target b₁ hretains₁.tracks
      (hroom.after hplaced.grows.current (by omega))).bind
    rintro _ b₂ ⟨hretains₂, hset⟩
    exact promises_pure ⟨hretains₁.trans hretains₂, hset⟩

theorem setting_constant (c : Constant) :
    Setting 5 (fun dest => do settle (← constant c) dest) where
  serving := serving_constant c
  retains := by
    intro dest b hb hroom
    apply (constant_retains hb (hroom.weaken (by omega)) c).bind
    rintro operand b₁ ⟨hyields, hretains, hhas⟩
    apply (settle_retains hb.ready hyields hretains.tracks
      (hroom.after hyields.current (by omega)) hhas dest).mono
    rintro result b₂ ⟨hsettled, hresult⟩
    exact ⟨hretains.trans hsettled, hresult⟩

theorem setting_immediate {operand : Operand} (hoperand : operand.register? = none)
    (hhas : ∀ f : FunctionBuilder, f.Has operand) : Setting 4 (settle operand) where
  serving := serving_immediate hoperand
  retains := by
    intro dest b hb hroom
    have hyields : b.Yields 0 operand b := by
      refine ⟨(balanced_refl hb.ready).toGrows, ?_⟩
      cases operand with
      | register register => simp [Operand.register?] at hoperand
      | _ => rfl
    exact settle_retains hb.ready hyields hb (hroom.weaken (by omega)) (hhas _) dest

theorem setting_name (name : String) :
    Setting 4 (fun dest => do settle (← resolve name).operand dest) where
  serving := serving_name name
  retains := by
    intro dest b hb hroom
    apply (resolve_has hb name).bind
    rintro found b₁ ⟨hyields, hretains, hhas⟩
    apply (settle_retains hb.ready hyields hretains.tracks
      (hroom.after hyields.current (by omega)) hhas dest).mono
    rintro result b₂ ⟨hsettled, hresult⟩
    exact ⟨hretains.trans hsettled, hresult⟩

theorem setting_throw {error : Error} (h : error.IsProgramFault) :
    Setting weight fun _ => throw error where
  serving := serving_throw h
  retains := fun _ _ _ _ => promises_throw

theorem unaryInto_writing (hvalue : Setting weight value) (op : UnaryOp) :
    Writing (weight + 5) (unaryInto op value) where
  balancing := unaryInto_balancing hvalue.serving op
  retains := by
    intro target b hb hroom
    rw [unaryInto_eq]
    apply (hvalue.promises none hb (hroom.weaken (by omega))).bind
    rintro operand b₁ ⟨hlowered, hretains₁, hhas⟩
    apply (toRegister_retains hb.ready hlowered hretains₁.tracks
      (hroom.after hlowered.grows.current (by omega)) hhas).bind
    rintro register b₂ ⟨hheld, hretains₂, hset⟩
    apply (free_retains hb.ready hheld hretains₂.tracks).bind
    rintro _ b₃ ⟨-, hretains₃⟩
    have hfield := hasField_register (hretains₃.carries.at_end hset)
    have hplain : ∀ x y : Int,
        Instruction.IsPlain { op := op.opcode, a := x, b := y, c := 0 } := by
      intro x y
      cases op <;> exact Instruction.isPlain_of_op rfl
    have hbefore := hretains₁.trans (hretains₂.trans hretains₃)
    refine Promises.mono (emit_reading hretains₃.tracks (hplain _ _) ?_ ?_) ?_
    · cases op <;> decide
    · cases op <;> exact hfield
    · rintro _ b₄ ⟨-, hretains₄, hwritten⟩
      exact ⟨hbefore.trans hretains₄, hwritten _ (by cases op <;> rfl)⟩

theorem shortPair_retains (hleft : Setting weight left) (hright : Setting weight' right)
    (hb : b.Tracks) (hroom : b.current.Room (weight + weight' + 8)) :
    (shortPair (left none) (right none)).Promises b fun fields b' =>
      b.Balanced (weight + weight' + 8) b' ∧ b.Retains b' ∧
        b'.current.HasField fields.1 ∧ b'.current.HasField fields.2 := by
  refine (shortPair_balancing (hleft.serving none) (hright.serving none) b hb.ready
    hroom).and_promises ?_
  rw [shortPair_eq]
  apply (hleft.promises none hb (hroom.weaken (by omega))).bind
  rintro first b₁ ⟨hlowered₁, hretains₁, hhas₁⟩
  apply (toShort_retains hb.ready hlowered₁ hretains₁.tracks
    (hroom.after hlowered₁.grows.current (by omega)) hhas₁).bind
  rintro short b₂ ⟨hshort, hretains₂, -, hfield⟩
  have hb₂ := hretains₂.tracks
  have hroom₂ : b₂.current.Room (weight' + 4) := hroom.after hshort.current (by omega)
  apply (hright.promises none hb₂ (hroom₂.weaken (by omega))).bind
  rintro second b₃ ⟨hlowered₃, hretains₃, hhas₃⟩
  apply (toShort_retains hb₂.ready hlowered₃ hretains₃.tracks
    (hroom₂.after hlowered₃.grows.current (by omega)) hhas₃).bind
  rintro short' b₄ ⟨hshort', hretains₄, -, hfield'⟩
  apply (free_retains hb₂.ready hshort' hretains₄.tracks).bind
  rintro _ b₅ ⟨hfreed, hretains₅⟩
  apply (free_retains hb.ready (hshort.balanced hfreed) hretains₅.tracks).bind
  rintro _ b₆ ⟨-, hretains₆⟩
  have hlate := hretains₅.trans hretains₆
  have hsince := hretains₃.trans (hretains₄.trans hlate)
  exact promises_pure ⟨hretains₁.trans (hretains₂.trans hsince), hsince.carries.hasField hfield,
    hlate.carries.hasField hfield'⟩

theorem arithmetic_operands {op : BinaryOp} {opcode : Opcode} (h : op.shape = .arithmetic opcode)
    (x y z : Int) : opcode ≠ .closure ∧
      (∀ r : Nat, Instruction.Reads { op := opcode, a := x, b := y, c := z } r →
        y = r ∨ z = r) ∧
      ∀ r : Nat, x = r → Instruction.Writes { op := opcode, a := x, b := y, c := z } r := by
  cases op <;> simp only [BinaryOp.shape, reduceCtorEq, BinaryOp.Shape.arithmetic.injEq] at h <;>
    rw [← h] <;> exact ⟨by decide, fun _ hr => hr, fun _ hr => hr⟩

theorem comparison_operands {op : BinaryOp} {opcode : Opcode} {expected swapped : Bool}
    (h : op.shape = .comparison opcode expected swapped) (x y z : Int) :
    opcode ≠ .closure ∧ ∀ r : Nat,
      Instruction.Reads { op := opcode, a := x, b := y, c := z } r → y = r ∨ z = r := by
  cases op <;> simp only [BinaryOp.shape, reduceCtorEq, BinaryOp.Shape.comparison.injEq] at h <;>
    rw [← h.1] <;> exact ⟨by decide, fun _ hr => hr⟩

theorem compare_retains {op : BinaryOp} {opcode : Opcode} {expected swapped : Bool}
    (hshape : op.shape = .comparison opcode expected swapped) {x y : Int} (hb : b.Tracks)
    (hroom : b.current.Room 4) (hx : b.current.HasField x) (hy : b.current.HasField y)
    (target : UInt8) :
    (compare opcode expected x y target).Promises b fun _ b' => b.Retains b' ∧
      b'.current.IsSet b'.current.pc target.toNat := by
  have htest := isTest_of_comparison hshape
  have hensures := compare_balancing htest expected x y target b hb.ready hroom
  refine ⟨fun {_ b'} hrun => ?_⟩
  have hready := (hensures.of_ok hrun).ready hb.ready
  obtain ⟨-, rfl⟩ := (compare_ensures opcode expected x y target hroom.1).of_ok hrun
  obtain ⟨hop, hreads⟩ := comparison_operands hshape expected.toNat x y
  have hsupplies : b.current.Supplies b.current.pc
      { op := opcode, a := expected.toNat, b := x, c := y } := by
    refine supplies_of_reads hop fun r hr => ?_
    rcases hreads r hr with hr | hr
    · exact hx r hr
    · exact hy r hr
  obtain ⟨hcarries, htracked, hset⟩ := hb.tracked.comparison htest hsupplies
  refine ⟨hb.grow hready hcarries htracked rfl rfl, ?_⟩
  rw [pc_placed]
  exact hset

theorem concatenation_retains (hleft : Setting weight left) (hright : Setting weight' right)
    (hb : b.Tracks) (hroom : b.current.Room (weight + weight')) (target : UInt8) :
    (binaryInto .concat left right target).Promises b fun _ b' => b.Retains b' ∧
      b'.current.IsSet b'.current.pc target.toNat := by
  apply (allocate_retains hb).bind
  rintro first b₁ ⟨⟨hgrows₁, hfirst, hnext₁⟩, hretains₁⟩
  have hroom₁ : b₁.current.Room (weight + weight') := hroom.after hgrows₁.current (by omega)
  apply (hleft.promises (some first) hretains₁.tracks (hroom₁.weaken (by omega))).bind
  rintro _ b₂ ⟨⟨rfl, hlowered₂⟩, hretains₂, hset⟩
  have hb₂ := hretains₂.tracks
  have hroom₂ : b₂.current.Room weight' := hroom₁.after hlowered₂.current (by omega)
  apply (allocate_retains hb₂).bind
  rintro second b₃ ⟨⟨hgrows₃, hsecond, hnext₃⟩, hretains₃⟩
  have hneighbour : second.toNat = first.toNat + 1 := by
    rw [hsecond, hlowered₂.nextFree, hnext₁, hfirst]
  have htaken : b₂.Yields 0 (.register second) b₃ := ⟨hgrows₃, .inr ⟨hsecond, hnext₃⟩⟩
  apply (hright.promises (some second) hretains₃.tracks
    (hroom₂.after hgrows₃.current (by omega))).bind
  rintro _ b₄ ⟨⟨rfl, hlowered₄⟩, hretains₄, hset'⟩
  apply (free_retains hb₂.ready (htaken.balanced hlowered₄) hretains₄.tracks).bind
  rintro _ b₅ ⟨hfreed, hretains₅⟩
  have hheld : b.Yields 0 (.register first) b₁ := ⟨hgrows₁, .inr ⟨hfirst, hnext₁⟩⟩
  apply (free_retains hb.ready (hheld.balanced (hlowered₂.trans hfreed)) hretains₅.tracks).bind
  rintro _ b₆ ⟨-, hretains₆⟩
  have hlate := hretains₅.trans hretains₆
  have hsince := hretains₃.trans (hretains₄.trans hlate)
  refine Promises.mono (emit_reading hlate.tracks (Instruction.isPlain_of_op rfl) (by decide) ?_) ?_
  · rintro r ⟨hle, hge⟩
    have hlow : (first.toNat : Int) ≤ r := hle
    have hhigh : (r : Int) ≤ second.toNat := hge
    have hr : r = first.toNat ∨ r = second.toNat := by omega
    rcases hr with rfl | rfl
    · exact hsince.carries.at_end hset
    · exact hlate.carries.at_end hset'
  · rintro _ b₇ ⟨-, hretains₇, hwritten⟩
    exact ⟨hretains₁.trans (hretains₂.trans (hsince.trans hretains₇)), hwritten _ rfl⟩

theorem binaryInto_writing (hleft : Setting weight left) (hright : Setting weight' right)
    (op : BinaryOp) : Writing (weight + weight' + 12) (binaryInto op left right) where
  balancing := binaryInto_balancing hleft.serving hright.serving op
  retains := by
    intro target b hb hroom
    have hpair := shortPair_retains hleft hright hb (hroom.weaken (by omega))
    unfold binaryInto
    split
    · exact concatenation_retains hleft hright hb (hroom.weaken (by omega)) target
    · next opcode hshape =>
      apply hpair.bind
      rintro ⟨x, y⟩ b₁ ⟨-, hretains₁, hx, hy⟩
      obtain ⟨hop, hreads, hwrites⟩ := arithmetic_operands hshape target.toNat x y
      refine Promises.mono (emit_reading hretains₁.tracks (isPlain_of_arithmetic hshape) hop ?_) ?_
      · intro r hr
        rcases hreads r hr with hr | hr
        · exact hx r hr
        · exact hy r hr
      · rintro _ b₂ ⟨-, hretains₂, hwritten⟩
        exact ⟨hretains₁.trans hretains₂, hwritten _ (hwrites _ rfl)⟩
    · next opcode expected swapped hshape =>
      apply hpair.bind
      rintro ⟨x, y⟩ b₁ ⟨hfields, hretains₁, hx, hy⟩
      have hroom₁ : b₁.current.Room 4 := hroom.after hfields.current (by omega)
      dsimp only
      split
      · apply (compare_retains hshape hretains₁.tracks hroom₁ hy hx target).mono
        rintro _ b₂ ⟨hretains₂, hset⟩
        exact ⟨hretains₁.trans hretains₂, hset⟩
      · apply (compare_retains hshape hretains₁.tracks hroom₁ hx hy target).mono
        rintro _ b₂ ⟨hretains₂, hset⟩
        exact ⟨hretains₁.trans hretains₂, hset⟩

/-- A jump of the code since `b` is aimed at the end of it, where the same locals are in
sight as in `b`. -/
theorem aimHere_retains {p : Nat} (hb : b.Tracks) (h : b.Retains b') (hp : b.current.pc ≤ p)
    (hat : ∃ jump, b'.current.listing[p]? = some jump ∧ jump.op = .jmp)
    (hheads : b'.current.loops.heads = b.current.loops.heads)
    (hstack : b'.current.scopes.stack = b.current.scopes.stack)
    (hcapacity : b'.current.pc ≤ capacity) :
    (aimHere p).Promises b' fun _ b'' => b.Retains b'' ∧
      b''.current.scopes.stack = b.current.scopes.stack := by
  refine ⟨fun {_ b''} hrun => ?_⟩
  obtain ⟨jump, hat, hop⟩ := hat
  obtain ⟨hencode, rfl⟩ := (aimHere_ensures hat (by rw [hop]; rfl)).of_ok hrun
  obtain ⟨hcarries, htracked⟩ :=
    hb.tracked.aimed h.carries h.tracks.tracked hheads hp hat hop hcapacity
  have hready := h.tracks.ready
  refine ⟨hb.regain h.tracks ?_ hcarries htracked rfl hstack, hstack⟩
  exact hready.withCurrent (hready.sound.replaced hencode) List.prefix_rfl

theorem test_jump_retains (hb : b.Tracks) {register : UInt8}
    (hset : b.current.IsSet b.current.pc register.toNat) (expected : Int) :
    (do emit .test register.toNat 0 expected; jump).Promises b fun index b' =>
      b.Awaits index 2 b' ∧ b.Retains b' := by
  have hensures := test_jump_awaits hb.ready register expected
  refine hensures.and_promises ⟨fun {index b'} hrun => ?_⟩
  have hready := (hensures.of_ok hrun).ready hb.ready
  obtain ⟨_, b₁, htest, hjump⟩ := bind_eq_ok.mp hrun
  obtain ⟨-, rfl⟩ := (emit_ensures _ _ _ _ b).of_ok htest
  obtain ⟨rfl, -, rfl⟩ := (jump_ensures _).of_ok hjump
  simp only [placed_placed, stamped_placed, List.cons_append, List.nil_append] at hready ⊢
  have hsupplies : b.current.Supplies b.current.pc (b.current.stamped
      { op := .test, a := register.toNat, b := 0, c := expected }) :=
    supplies_of_reads nofun (hasField_register hset)
  have hop : (b.current.stamped { op := .jmp }).op = .jmp := rfl
  obtain ⟨hcarries, htracked⟩ := hb.tracked.testJump rfl hop rfl hsupplies
  exact hb.grow hready hcarries htracked rfl rfl

theorem logicalInto_writing (hleft : Setting weight left) (hright : Setting weight' right)
    (op : LogicalOp) : Writing (weight + weight' + 2) (logicalInto op left right) where
  balancing := logicalInto_balancing hleft.serving hright.serving op
  retains := by
    intro target b hb hroom
    apply (hleft.promises (some target) hb (hroom.weaken (by omega))).bind
    rintro _ b₁ ⟨⟨rfl, hlowered₁⟩, hretains₁, hset⟩
    have hb₁ := hretains₁.tracks
    have hroom₁ : b₁.current.Room (weight' + 2) := hroom.after hlowered₁.current (by omega)
    rw [← bind_assoc]
    apply (test_jump_retains hb₁ hset _).bind
    rintro done b₂ ⟨hawaits, hretains₂⟩
    have hroom₂ : b₂.current.Room weight' := hroom₁.after hawaits.current (by omega)
    apply (hright.promises (some target) hretains₂.tracks hroom₂).bind
    rintro _ b₃ ⟨⟨-, hlowered₃⟩, hretains₃, -⟩
    -- what is set since the left side is there holds on both ways to the end
    have hwaiting := hawaits.balanced hlowered₃
    obtain ⟨hle, hat⟩ := hwaiting.current.waiting (List.mem_singleton_self done)
    have hroom₃ : b₃.current.Room 0 := hroom₁.after hwaiting.current (by omega)
    apply (aimHere_retains hb₁ (hretains₂.trans hretains₃) hle hat (by rw [hwaiting.loops])
      (by rw [hwaiting.scopes]) hroom₃.1).mono
    rintro _ b₄ ⟨hretains₄, -⟩
    exact ⟨hretains₁.trans hretains₄, hretains₄.carries.at_end hset⟩

theorem store_retains (hvalue : Setting weight value) (name : String) (isLogical : Bool)
    (hb : b.Tracks) (hroom : b.current.Room (weight + 8)) :
    (store name isLogical value).Promises b fun operand b' =>
      b.Yields (weight + 8) operand b' ∧ b.Retains b' ∧ b'.current.Has operand := by
  refine (store_delivering name isLogical hvalue.serving b hb.ready hroom).and_promises ?_
  rw [store_eq]
  apply (resolve_retains hb name).bind
  rintro found b₁ ⟨hfound, hretains₁, -⟩
  have hb₁ := hretains₁.tracks
  have hroom₁ : b₁.current.Room (weight + 8) := hroom.after hfound.current (by omega)
  have hroom₂ : b₁.current.Room weight := hroom₁.weaken (by omega)
  cases found with
  | register target =>
    cases isLogical with
    | true =>
      apply (hvalue.promises none hb₁ hroom₂).bind
      rintro operand b₂ ⟨hlowered, hretains₂, hhas⟩
      apply (toRegister_retains hb₁.ready hlowered hretains₂.tracks
        (hroom₁.after hlowered.grows.current (by omega)) hhas).bind
      rintro stored b₃ ⟨hheld, hretains₃, hstored⟩
      have hhas₃ : b₃.current.Has (.register stored) := hstored
      apply (load_retains hretains₃.tracks (hroom₁.after hheld.current (by omega)) hhas₃
        target).bind
      rintro _ b₄ ⟨hloaded, hretains₄, hset⟩
      apply (free_retains hb₁.ready (hheld.balanced hloaded) hretains₄.tracks).bind
      rintro _ b₅ ⟨-, hretains₅⟩
      have hsince := hretains₂.trans (hretains₃.trans (hretains₄.trans hretains₅))
      exact promises_pure ⟨hretains₁.trans hsince, hretains₅.carries.at_end hset⟩
    | false =>
      apply (hvalue.promises (some target) hb₁ hroom₂).bind
      rintro _ b₂ ⟨⟨rfl, -⟩, hretains₂, hset⟩
      exact promises_pure ⟨hretains₁.trans hretains₂, hset⟩
  | upvalue index =>
    apply (hvalue.promises none hb₁ hroom₂).bind
    rintro operand b₂ ⟨hlowered, hretains₂, hhas⟩
    apply (toRegister_retains hb₁.ready hlowered hretains₂.tracks
      (hroom₁.after hlowered.grows.current (by omega)) hhas).bind
    rintro stored b₃ ⟨-, hretains₃, hstored⟩
    refine Promises.bind (emit_reading hretains₃.tracks (Instruction.isPlain_of_op rfl) (by decide)
      (hasField_register hstored)) ?_
    rintro _ b₄ ⟨-, hretains₄, -⟩
    have hsince := hretains₂.trans (hretains₃.trans hretains₄)
    exact promises_pure ⟨hretains₁.trans hsince, hretains₄.carries.at_end hstored⟩
  | global name =>
    apply (hvalue.promises none hb₁ hroom₂).bind
    rintro operand b₂ ⟨hlowered, hretains₂, hhas⟩
    apply (toShort_retains hb₁.ready hlowered hretains₂.tracks
      (hroom₁.after hlowered.grows.current (by omega)) hhas).bind
    rintro short b₃ ⟨hshort, hretains₃, hholder, hfield⟩
    apply (storeGlobal_retains hretains₃.tracks (hroom₁.after hshort.current (by omega)) name
      hfield).bind
    rintro _ b₄ ⟨-, hretains₄⟩
    have hsince := hretains₂.trans (hretains₃.trans hretains₄)
    exact promises_pure ⟨hretains₁.trans hsince, hretains₄.carries.has hholder⟩

theorem assignInto_writing (hvalue : Setting weight value) (name : String) (isLogical : Bool) :
    Writing (weight + 12) (assignInto name isLogical value) where
  balancing := assignInto_balancing hvalue.serving name isLogical
  retains := by
    intro target b hb hroom
    apply (store_retains hvalue name isLogical hb (hroom.weaken (by omega))).bind
    rintro stored b₁ ⟨hstored, hretains₁, hhas⟩
    apply (load_retains hretains₁.tracks (hroom.after hstored.current (by omega)) hhas target).bind
    rintro _ b₂ ⟨hloaded, hretains₂, hset⟩
    apply (free_retains hb.ready (hstored.balanced hloaded) hretains₂.tracks).mono
    rintro _ b₃ ⟨-, hretains₃⟩
    exact ⟨hretains₁.trans (hretains₂.trans hretains₃), hretains₃.carries.at_end hset⟩

structure Stacked (weight : Nat) (args : Lower (List UInt8)) : Prop where
  stacking : Stacking weight args
  retains : ∀ b : ChunkBuilder, b.Tracks → b.current.Room weight →
    args.Promises b fun registers b' => b.Retains b' ∧
      ∀ register ∈ registers, b'.current.IsSet b'.current.pc register.toNat

theorem stacked_nil : Stacked 0 (pure []) where
  stacking := stacking_nil
  retains := fun _ hb _ => promises_pure ⟨hb.retains, by simp⟩

theorem stacked_cons (hvalue : Setting weight value) (hargs : Stacked weight' args) :
    Stacked (weight + weight') (do
      let register ← allocate
      let _ ← value (some register)
      let registers ← args
      return register :: registers) where
  stacking := stacking_cons hvalue.serving hargs.stacking
  retains := by
    intro b hb hroom
    apply (allocate_retains hb).bind
    rintro register b₁ ⟨⟨hgrows, -⟩, hretains₁⟩
    have hroom₁ : b₁.current.Room (weight + weight') := hroom.after hgrows.current (by omega)
    apply (hvalue.promises (some register) hretains₁.tracks (hroom₁.weaken (by omega))).bind
    rintro _ b₂ ⟨⟨rfl, hlowered⟩, hretains₂, hset⟩
    apply (hargs.retains b₂ hretains₂.tracks (hroom₁.after hlowered.current (by omega))).bind
    rintro registers b₃ ⟨hretains₃, hall⟩
    refine promises_pure ⟨hretains₁.trans (hretains₂.trans hretains₃), ?_⟩
    simp only [List.forall_mem_cons]
    exact ⟨hretains₃.carries.at_end hset, hall⟩

theorem freeAll_eq (registers : List UInt8)
    (hrun : (registers.forM fun register => free (.register register)) b = .ok () b') :
    ∃ next, b' = { b with current := { b.current with nextFree := next } } := by
  induction registers generalizing b with
  | nil =>
    obtain ⟨-, rfl⟩ := pure_eq_ok.mp hrun
    exact ⟨b.current.nextFree, rfl⟩
  | cons register rest ih =>
    rw [List.forM_eq_forM, List.forM_cons] at hrun
    obtain ⟨_, b₁, hfree, hrest⟩ := bind_eq_ok.mp hrun
    obtain ⟨next, rfl⟩ := free_eq hfree
    obtain ⟨next', rfl⟩ := ih hrest
    exact ⟨next', rfl⟩

theorem call_retains {base : UInt8} (hcallee : Setting weight callee) (hargs : Stacked weight' args)
    (results : Nat) (hb : b.Tracks) (hroom : b.current.Room (weight + weight' + 1))
    (hbase : base.toNat + 1 = b.current.nextFree) :
    (call base (callee (some base)) args results).Promises b fun _ b' =>
      b.Balanced (weight + weight' + 1) b' ∧ b.Retains b' ∧
        (results = 1 → b'.current.IsSet b'.current.pc base.toNat) := by
  have hensures := call_balancing (hcallee.serving (some base)) hargs.stacking results b hb.ready
    hroom
  refine ⟨fun {_ b'} hrun => ?_⟩
  have hbalanced := hensures.of_ok hrun
  obtain ⟨_, b₁, hlower, hrun⟩ := bind_eq_ok.mp hrun
  obtain ⟨registers, b₂, hlist, hrun⟩ := bind_eq_ok.mp hrun
  obtain ⟨_, b₃, hemit, hfree⟩ := bind_eq_ok.mp hrun
  obtain ⟨⟨rfl, hlowered⟩, hretains₁, hset⟩ :=
    (hcallee.promises (some base) hb (hroom.weaken (by omega))).of_ok hlower
  have hroom₁ : b₁.current.Room weight' := hroom.after hlowered.current (by omega)
  obtain ⟨-, hregisters, -⟩ := (hargs.stacking b₁ hretains₁.tracks.ready hroom₁).of_ok hlist
  obtain ⟨hretains₂, hall⟩ := (hargs.retains b₁ hretains₁.tracks hroom₁).of_ok hlist
  rw [hlowered.nextFree, ← hbase] at hregisters
  have hreads : ∀ r, Instruction.Reads
      { op := .call, a := base.toNat, b := registers.length + 1, c := results + 1 } r →
      b₂.current.IsSet b₂.current.pc r := by
    rintro r ⟨hle, hlt⟩
    have hlow : (base.toNat : Int) ≤ r := hle
    have hhigh : (r : Int) < base.toNat + (registers.length + 1) := hlt (by simp; omega)
    rcases Nat.lt_or_eq_of_le (show base.toNat ≤ r by omega) with habove | rfl
    · have hmem : r ∈ registers.map UInt8.toNat := by
        rw [hregisters, List.mem_range'_1]
        omega
      obtain ⟨register, hregister, rfl⟩ := List.mem_map.mp hmem
      exact hall register hregister
    · exact hretains₂.carries.at_end hset
  obtain ⟨-, hretains₃, hwritten⟩ := (emit_reading hretains₂.tracks
    (Instruction.isPlain_of_op rfl) (by decide) hreads).of_ok hemit
  obtain ⟨next, rfl⟩ := freeAll_eq registers.reverse hfree
  have hretains₄ := hretains₃.tracks.same (hbalanced.ready hb.ready) rfl rfl rfl rfl rfl rfl
  refine ⟨hbalanced, hretains₁.trans (hretains₂.trans (hretains₃.trans hretains₄)), ?_⟩
  rintro rfl
  have hwrites : (base.toNat : Int) < base.toNat + (1 + 1) - 1 := by omega
  exact hretains₄.carries.at_end (hwritten _ ⟨Int.le_refl _, fun _ => hwrites⟩)

theorem callInto_writing (hcallee : Setting weight callee) (hargs : Stacked weight' args) :
    Writing (weight + weight' + 2) (callInto callee args) where
  balancing := callInto_balancing hcallee.serving hargs.stacking
  retains := by
    intro target b hb hroom
    apply (isFreshTop_promises target b).bind
    rintro fresh _ ⟨rfl, hfresh⟩
    cases fresh with
    | true =>
      apply (call_retains hcallee hargs 1 hb (hroom.weaken (by omega)) (hfresh rfl)).mono
      rintro _ b₁ ⟨-, hretains₁, hset⟩
      exact ⟨hretains₁, hset rfl⟩
    | false =>
      apply (allocate_retains hb).bind
      rintro base b₁ ⟨⟨hgrows, hbase, hnext⟩, hretains₁⟩
      apply (call_retains hcallee hargs 1 hretains₁.tracks (hroom.after hgrows.current (by omega))
        (by omega)).bind
      rintro _ b₂ ⟨hcalled, hretains₂, hset⟩
      have htaken : b.Yields 0 (.register base) b₁ := ⟨hgrows, .inr ⟨hbase, hnext⟩⟩
      refine Promises.mono (emit_free_reading hb.ready (htaken.balanced hcalled) hretains₂.tracks
        (Instruction.isPlain_of_op rfl) (by decide) (hasField_register (hset rfl))) ?_
      rintro _ b₃ ⟨hretains₃, hwritten⟩
      exact ⟨hretains₁.trans (hretains₂.trans hretains₃), hwritten _ rfl⟩

end Lower

end RegisterCode
