import RegisterCode.Proofs.LoweringSteps

/-! The forms of expressions. Each form keeps the invariant if its parts do, and
brings its value to where it was asked for. -/
namespace RegisterCode

open Action

namespace FunctionBuilder

@[simp] theorem stamped_placed (code : List Instruction) (i : Instruction) (f : FunctionBuilder) :
    (f.placed code).stamped i = f.stamped i :=
  rfl

def comparison (f : FunctionBuilder) (op : Opcode) (expected : Bool) (x y : Int)
    (target : UInt8) : List Instruction :=
  [f.stamped { op, a := expected.toNat, b := x, c := y },
    f.stamped { op := .jmp, b := 1 },
    f.stamped { op := .loadBool, a := target.toNat, b := 0, c := 1 },
    f.stamped { op := .loadBool, a := target.toNat, b := 1 }]

end FunctionBuilder

namespace Lower
open ChunkBuilder

variable {b b' : ChunkBuilder} {weight weight' : Nat}

def Delivering (dest : Option UInt8) (weight : Nat) (action : Lower Operand) : Prop :=
  ∀ b : ChunkBuilder, b.Ready → b.current.Room weight →
    action.Ensures b fun operand b' => b.Delivers dest weight operand b'

/-- From any state with room, every register is given back. -/
def Balancing {α : Type} (weight : Nat) (action : Lower α) : Prop :=
  ∀ b : ChunkBuilder, b.Ready → b.current.Room weight →
    action.Ensures b fun _ b' => b.Balanced weight b'

def Serving (weight : Nat) (value : Option UInt8 → Lower Operand) : Prop :=
  ∀ dest : Option UInt8, Delivering dest weight (value dest)

theorem Serving.weaken {value : Option UInt8 → Lower Operand} (h : Serving weight value)
    (hle : weight ≤ weight') : Serving weight' value :=
  fun dest b hb hroom => (h dest b hb (hroom.weaken hle)).mono fun _ _ hpost => hpost.weaken hle

theorem compare_ensures (op : Opcode) (expected : Bool) (x y : Int) (target : UInt8)
    (hroom : b.current.pc + 4 ≤ FunctionBuilder.capacity) :
    (compare op expected x y target).Ensures b fun _ b' =>
      (∀ i ∈ b.current.comparison op expected x y target, ∃ word, i.encode = .ok word) ∧
        b' = { b with current :=
          b.current.placed (b.current.comparison op expected x y target) } := by
  apply (emit_ensures _ _ _ _ b).bind
  rintro _ _ ⟨htest, rfl⟩
  apply (jump_ensures _).bind
  rintro _ _ ⟨rfl, hjump, rfl⟩
  apply (emit_ensures _ _ _ _ _).bind
  rintro _ _ ⟨hno, rfl⟩
  -- the jump is the second of the three instructions so far
  have hat : ∀ code : List Instruction, code[1]? = some (b.current.stamped { op := .jmp }) →
      (b.current.placed code).listing[b.current.pc + 1]? =
        some (b.current.stamped { op := .jmp }) := by
    intro code hcode
    rw [FunctionBuilder.listing_placed, List.getElem?_append_right (by simp),
      FunctionBuilder.length_listing, Nat.add_sub_cancel_left, hcode]
  simp only [FunctionBuilder.placed_placed, FunctionBuilder.pc_placed,
    FunctionBuilder.stamped_placed, List.length_singleton, List.cons_append, List.nil_append]
  apply (aimHere_ensures (hat _ rfl) rfl).bind
  rintro _ _ ⟨haimed, rfl⟩
  apply (emit_ensures _ _ _ _ _).mono
  rintro _ _ ⟨hyes, rfl⟩
  have hdisplacement : Code.displacement (b.current.pc + 1) (b.current.pc + 3) = 1 := by
    rw [FunctionBuilder.displacement_eq (by omega) (by omega)]
    omega
  have haimedAt : FunctionBuilder.aimed (b.current.stamped { op := .jmp }) (b.current.pc + 1)
      (b.current.pc + 3) = b.current.stamped { op := .jmp, b := 1 } := by
    simp [FunctionBuilder.aimed, FunctionBuilder.stamped, hdisplacement]
  simp only [FunctionBuilder.pc_placed, List.length_cons, List.length_nil, Nat.zero_add,
    Nat.reduceAdd, haimedAt, FunctionBuilder.replaced_placed] at haimed ⊢
  simp only [List.set_cons_succ, List.set_cons_zero, FunctionBuilder.placed_placed,
    List.cons_append, List.nil_append] at hyes ⊢
  refine ⟨?_, rfl⟩
  simp only [FunctionBuilder.comparison, List.forall_mem_cons]
  exact ⟨htest, haimed, hno, hyes, by simp⟩

theorem compare_balancing {op : Opcode} (htest : op.isTest = true) (expected : Bool) (x y : Int)
    (target : UInt8) : Balancing 4 (compare op expected x y target) := by
  intro b h hroom
  apply (compare_ensures op expected x y target hroom.1).mono
  rintro _ _ ⟨hencodes, rfl⟩
  exact placed_balanced h hencodes (.compare htest rfl rfl rfl rfl rfl) (Nat.le_refl _)

theorem shortPair_balancing {left right : Lower Operand} (hleft : Delivering none weight left)
    (hright : Delivering none weight' right) :
    Balancing (weight + weight' + 8) (shortPair left right) := by
  intro b h hroom
  rw [shortPair_eq]
  apply (hleft b h (hroom.weaken (by omega))).bind
  intro first b₁ hfirst
  apply (toShort_yields h hfirst).bind
  intro short b₂ hshort
  have hready := hshort.ready h
  apply (hright b₂ hready (hroom.after hshort.current (by omega))).bind
  intro second b₃ hsecond
  apply (toShort_yields hready hsecond).bind
  intro short' b₄ hshort'
  apply (free_balanced hready hshort').bind
  intro _ b₅ hfreed
  apply (free_balanced h (hshort.balanced hfreed)).bind
  intro _ b₆ hall
  exact ensures_pure (hall.weaken (by omega))

/-- The operand of an instruction, in a register that is free again by then. -/
def operandRegister (value : Lower Operand) : Lower UInt8 := do
  let register ← toRegister (← value)
  free (.register register)
  return register

theorem operandRegister_balancing {value : Lower Operand} (hvalue : Delivering none weight value) :
    Balancing (weight + 4) (operandRegister value) := by
  intro b h hroom
  apply (hvalue b h (hroom.weaken (by omega))).bind
  intro operand b₁ hlowered
  apply (toRegister_yields h hlowered).bind
  intro register b₂ hregister
  apply (free_balanced h hregister).bind
  intro _ b₃ hfreed
  exact ensures_pure hfreed

theorem unaryInto_operand (op : UnaryOp) (value : Option UInt8 → Lower Operand) (target : UInt8) :
    unaryInto op value target = (do
      let register ← operandRegister (value none)
      emit op.opcode target.toNat register.toNat 0) := by
  simp only [unaryInto_eq, operandRegister, bind_assoc, pure_bind]

def adjacentPair (left right : Option UInt8 → Lower Operand) : Lower (UInt8 × UInt8) := do
  let first ← allocate
  let _ ← left (some first)
  let second ← allocate
  let _ ← right (some second)
  free (.register second)
  free (.register first)
  return (first, second)

theorem adjacentPair_balancing {left right : Option UInt8 → Lower Operand}
    (hleft : Serving weight left) (hright : Serving weight' right) :
    Balancing (weight + weight') (adjacentPair left right) := by
  intro b h hroom
  apply (allocate_yields h).bind
  intro first b₁ hfirst
  have hready₁ := hfirst.ready h
  have hroom₁ : b₁.current.Room (weight + weight') := hroom.after hfirst.current (by omega)
  apply (hleft (some first) b₁ hready₁ (hroom₁.weaken (by omega))).bind
  rintro _ b₂ ⟨-, hlowered⟩
  have hready₂ := hlowered.ready hready₁
  apply (allocate_yields hready₂).bind
  intro second b₃ hsecond
  have hroom₂ : b₂.current.Room weight' := hroom₁.after hlowered.current (by omega)
  apply (hright (some second) b₃ (hsecond.ready hready₂)
    (hroom₂.after hsecond.current (by omega))).bind
  rintro _ b₄ ⟨-, hlowered'⟩
  apply (free_balanced hready₂ (hsecond.balanced hlowered')).bind
  intro _ b₅ hfreed
  apply (free_balanced h (hfirst.balanced (hlowered.trans hfreed))).bind
  intro _ b₆ hfreed'
  exact ensures_pure (hfreed'.weaken (by omega))

theorem binaryInto_concatenation {op : BinaryOp} (hshape : op.shape = .concatenation)
    (left right : Option UInt8 → Lower Operand) (target : UInt8) :
    binaryInto op left right target = (do
      let pair ← adjacentPair left right
      emit .concat target.toNat pair.1.toNat pair.2.toNat) := by
  simp only [binaryInto, hshape, adjacentPair, bind_assoc, pure_bind]

/-- Arguments are lowered into the registers above those in use, one after the other. -/
def Stacking (weight : Nat) (action : Lower (List UInt8)) : Prop :=
  ∀ b : ChunkBuilder, b.Ready → b.current.Room weight →
    action.Ensures b fun registers b' => b.Grows weight b' ∧
      registers.map UInt8.toNat = List.range' b.current.nextFree registers.length ∧
      b'.current.nextFree = b.current.nextFree + registers.length

theorem stacking_nil : Stacking 0 (pure []) :=
  fun _ h _ => ensures_pure ⟨(balanced_refl h).toGrows, rfl, rfl⟩

theorem stacking_cons {arg : Option UInt8 → Lower Operand} {rest : Lower (List UInt8)}
    (harg : Serving weight arg) (hrest : Stacking weight' rest) :
    Stacking (weight + weight') (do
      let register ← allocate
      let _ ← arg (some register)
      let registers ← rest
      return register :: registers) := by
  intro b h hroom
  apply (allocate_ensures h).bind
  rintro register b₁ ⟨htaken, hregister, hnext⟩
  have hready := htaken.ready h
  have hroom₁ : b₁.current.Room (weight + weight') := hroom.after htaken.current (by omega)
  apply (harg (some register) b₁ hready (hroom₁.weaken (by omega))).bind
  intro _ b₂ hlowered
  have hbalanced := hlowered.2
  apply (hrest b₂ (hbalanced.ready hready) (hroom₁.after hbalanced.current (by omega))).bind
  rintro registers b₃ ⟨hgrows, hregisters, hnext'⟩
  rw [hbalanced.nextFree, hnext] at hregisters hnext'
  refine ensures_pure ⟨((htaken.trans hbalanced.toGrows).trans hgrows).weaken (by omega), ?_, ?_⟩
  · rw [List.map_cons, hregister, hregisters, List.length_cons, List.range'_succ]
  · rw [hnext', List.length_cons]
    omega

theorem free_stacked (h : b.Ready) {n : Nat} (hcount : b.current.scopes.count ≤ n)
    (registers : List UInt8)
    (hregisters : registers.map UInt8.toNat = List.range' n registers.length)
    (hnext : b.current.nextFree = n + registers.length) :
    (registers.reverse.forM fun register => free (.register register)).Ensures b fun _ b' =>
      b.Grows 0 b' ∧ b'.current.nextFree = n := by
  induction registers generalizing n with
  | nil => exact ensures_pure ⟨(balanced_refl h).toGrows, hnext⟩
  | cons oldest newer ih =>
    rw [List.length_cons] at hnext
    rw [List.map_cons, List.length_cons, List.range'_succ] at hregisters
    injection hregisters with holdest hnewer
    rw [List.reverse_cons, List.forM_eq_forM, List.forM_append, List.forM_cons]
    apply (ih (n := n + 1) (by omega) hnewer (by omega)).bind
    rintro _ b' ⟨hgrows, hnext'⟩
    rw [← hgrows.scopes] at hcount
    have hholds : b'.current.Holds n (.register oldest) := .inr ⟨holdest, hnext'⟩
    apply (free_grows (hgrows.ready h) hcount hholds).bind
    rintro _ b'' ⟨hfreed, hnext''⟩
    exact ensures_pure ⟨hgrows.trans hfreed, hnext''⟩

theorem call_balancing {base : UInt8} {callee : Lower Operand} {args : Lower (List UInt8)}
    (hcallee : Delivering (some base) weight callee) (hargs : Stacking weight' args)
    (results : Nat) : Balancing (weight + weight' + 1) (call base callee args results) := by
  intro b h hroom
  apply (hcallee b h (hroom.weaken (by omega))).bind
  rintro _ b₁ ⟨-, hlowered⟩
  have hready := hlowered.ready h
  apply (hargs b₁ hready (hroom.after hlowered.current (by omega))).bind
  rintro registers b₂ ⟨hgrows, hregisters, hnext⟩
  apply (emit_balanced (hgrows.ready hready) (Instruction.isPlain_of_op rfl)).bind
  intro _ b₃ hemitted
  have hgrown := hgrows.trans hemitted.toGrows
  have hcount : b₃.current.scopes.count ≤ b₁.current.nextFree := by
    rw [hgrown.scopes]
    exact hready.sound.count_le
  apply (free_stacked (hgrown.ready hready) hcount registers hregisters
    (hemitted.nextFree.trans hnext)).mono
  rintro _ b₄ ⟨hfreed, hnext'⟩
  have hall : b₁.Balanced (weight' + 1) b₄ := ⟨hgrown.trans hfreed, hnext'⟩
  exact (hlowered.trans hall).weaken (by omega)

theorem store_delivering (name : String) (isLogical : Bool) {value : Option UInt8 → Lower Operand}
    (hvalue : Serving weight value) :
    Delivering none (weight + 8) (store name isLogical value) := by
  intro b h hroom
  rw [store_eq]
  apply (resolve_balanced h name).bind
  rintro found b₁ ⟨hresolved, hfound⟩
  have hready := hresolved.ready h
  have hroom₁ : b₁.current.Room (weight + 8) := hroom.after hresolved.current (by omega)
  cases found with
  | register target =>
    have htarget : ∀ {b₂ : ChunkBuilder}, b₁.Balanced (weight + 8) b₂ →
        b.Delivers none (weight + 8) (.register target) b₂ := by
      intro b₂ hstored
      refine ⟨(hresolved.toGrows.trans hstored.toGrows).weaken (by omega), .inl ⟨?_, ?_⟩⟩
      · rw [hstored.scopes]
        exact hfound
      · rw [hstored.nextFree, hresolved.nextFree]
    cases isLogical with
    | true =>
      apply (hvalue none b₁ hready (hroom₁.weaken (by omega))).bind
      intro operand b₂ hlowered
      apply (toRegister_yields hready hlowered).bind
      intro stored b₃ hstored
      apply (load_balanced (hstored.ready hready) (.register stored) target).bind
      intro _ b₄ hloaded
      apply (free_balanced hready (hstored.balanced hloaded)).bind
      intro _ b₅ hfreed
      exact ensures_pure (htarget (hfreed.weaken (by omega)))
    | false =>
      apply (hvalue (some target) b₁ hready (hroom₁.weaken (by omega))).bind
      rintro _ b₂ ⟨-, hlowered⟩
      exact ensures_pure (htarget (hlowered.weaken (by omega)))
  | upvalue index =>
    apply (hvalue none b₁ hready (hroom₁.weaken (by omega))).bind
    intro operand b₂ hlowered
    apply (toRegister_yields hready hlowered).bind
    intro stored b₃ hstored
    apply (emit_balanced (hstored.ready hready) (Instruction.isPlain_of_op rfl)).bind
    intro _ b₄ hemitted
    exact ensures_pure ((hresolved.yields (hstored.balanced hemitted)).weaken (by omega))
  | global name =>
    apply (hvalue none b₁ hready (hroom₁.weaken (by omega))).bind
    intro operand b₂ hlowered
    apply (toShort_yields hready hlowered).bind
    intro short b₃ hshort
    apply (storeGlobal_balanced (hshort.ready hready) name short).bind
    intro _ b₄ hstored
    exact ensures_pure ((hresolved.yields (hshort.balanced hstored)).weaken (by omega))

theorem serving_constant (c : Constant) :
    Serving 5 (fun dest => do settle (← constant c) dest) := by
  intro dest b h hroom
  apply (constant_yields h c).bind
  intro operand b' hconstant
  exact settle_delivers h hconstant dest

theorem serving_immediate {operand : Operand} (hoperand : operand.register? = none) :
    Serving 4 (settle operand) := by
  intro dest b h hroom
  have hyields : b.Yields 0 operand b := by
    refine ⟨(balanced_refl h).toGrows, ?_⟩
    cases operand with
    | register register => simp [Operand.register?] at hoperand
    | _ => rfl
  exact (settle_delivers h hyields dest).mono fun _ _ hsettled => hsettled.weaken (by omega)

theorem serving_name (name : String) :
    Serving 4 (fun dest => do settle (← resolve name).operand dest) := by
  intro dest b h hroom
  apply (resolve_yields h name).bind
  intro found b' hresolved
  exact (settle_delivers h hresolved dest).mono fun _ _ hsettled => hsettled.weaken (by omega)

theorem serving_throw {error : Error} (h : error.IsProgramFault) :
    Serving weight fun _ => throw error :=
  fun _ _ _ _ => ensures_throw h

theorem inPlace_serving {compute : UInt8 → Lower Unit}
    (hcompute : ∀ target, Balancing weight (compute target)) :
    Serving weight (inPlace compute) := by
  intro dest b h hroom
  apply (place_delivers h dest).bind
  intro target b₁ hplaced
  apply (hcompute target b₁ (hplaced.grows.ready h)
    (hroom.after hplaced.grows.current (by omega))).bind
  intro _ b₂ hcomputed
  exact ensures_pure ((hplaced.balanced hcomputed).weaken (by omega))

theorem isPlain_of_unary (op : UnaryOp) {x y z : Int} :
    Instruction.IsPlain { op := op.opcode, a := x, b := y, c := z } := by
  cases op <;> exact Instruction.isPlain_of_op rfl

theorem unaryInto_balancing {value : Option UInt8 → Lower Operand} (hvalue : Serving weight value)
    (op : UnaryOp) (target : UInt8) : Balancing (weight + 5) (unaryInto op value target) := by
  intro b h hroom
  rw [unaryInto_operand]
  apply (operandRegister_balancing (hvalue none) b h (hroom.weaken (by omega))).bind
  intro register b₁ hoperand
  apply (emit_balanced (hoperand.ready h) (isPlain_of_unary op)).mono
  intro _ b₂ hemitted
  exact hoperand.trans hemitted

theorem isPlain_of_arithmetic {op : BinaryOp} {opcode : Opcode} {x y z : Int}
    (h : op.shape = .arithmetic opcode) :
    Instruction.IsPlain { op := opcode, a := x, b := y, c := z } := by
  apply Instruction.isPlain_of_op
  cases op <;> simp only [BinaryOp.shape, reduceCtorEq, BinaryOp.Shape.arithmetic.injEq] at h <;>
    rw [← h] <;> rfl

theorem isTest_of_comparison {op : BinaryOp} {opcode : Opcode} {expected swapped : Bool}
    (h : op.shape = .comparison opcode expected swapped) : opcode.isTest = true := by
  cases op <;> simp only [BinaryOp.shape, reduceCtorEq, BinaryOp.Shape.comparison.injEq] at h <;>
    rw [← h.1] <;> decide

theorem binaryInto_balancing {left right : Option UInt8 → Lower Operand}
    (hleft : Serving weight left) (hright : Serving weight' right) (op : BinaryOp)
    (target : UInt8) : Balancing (weight + weight' + 12) (binaryInto op left right target) := by
  intro b h hroom
  have hpair := shortPair_balancing (hleft none) (hright none) b h (hroom.weaken (by omega))
  cases hshape : op.shape with
  | concatenation =>
    rw [binaryInto_concatenation hshape]
    apply (adjacentPair_balancing hleft hright b h (hroom.weaken (by omega))).bind
    intro pair b₁ hadjacent
    apply (emit_balanced (hadjacent.ready h) (Instruction.isPlain_of_op rfl)).mono
    intro _ b₂ hemitted
    exact (hadjacent.trans hemitted).weaken (by omega)
  | arithmetic opcode =>
    simp only [binaryInto, hshape]
    apply hpair.bind
    intro fields b₁ hfields
    apply (emit_balanced (hfields.ready h) (isPlain_of_arithmetic hshape)).mono
    intro _ b₂ hemitted
    exact (hfields.trans hemitted).weaken (by omega)
  | comparison opcode expected swapped =>
    simp only [binaryInto, hshape]
    apply hpair.bind
    intro fields b₁ hfields
    have hroom₁ : b₁.current.Room 4 := hroom.after hfields.current (by omega)
    have hcompare : ∀ x y : Int, (compare opcode expected x y target).Ensures b₁ fun _ b' =>
        b.Balanced (weight + weight' + 12) b' := by
      intro x y
      apply (compare_balancing (isTest_of_comparison hshape) expected x y target b₁
        (hfields.ready h) hroom₁).mono
      intro _ b₂ hcompared
      exact hfields.trans hcompared
    split
    · exact hcompare _ _
    · exact hcompare _ _

theorem test_jump_awaits (h : b.Ready) (register : UInt8) (expected : Int) :
    (do emit .test register.toNat 0 expected; jump).Ensures b fun index b' =>
      b.Awaits index 2 b' := by
  apply (emit_ensures _ _ _ _ b).bind
  rintro _ _ ⟨htest, rfl⟩
  apply (jump_ensures _).mono
  rintro index _ ⟨rfl, hjump, rfl⟩
  have hencodes : ∀ i ∈ [
      b.current.stamped { op := .test, a := register.toNat, b := 0, c := expected },
      b.current.stamped { op := .jmp }], ∃ word, i.encode = .ok word := by
    simp only [List.forall_mem_cons]
    exact ⟨htest, hjump, by simp⟩
  simp only [FunctionBuilder.placed_placed, FunctionBuilder.pc_placed,
    FunctionBuilder.stamped_placed, List.length_singleton, List.cons_append, List.nil_append]
  refine ⟨⟨?_, .of_eq rfl rfl⟩, rfl, rfl, rfl, rfl⟩
  exact FunctionBuilder.extends_placed h.sound hencodes (.testJump rfl rfl) (Nat.le_refl _)

theorem logicalInto_balancing {left right : Option UInt8 → Lower Operand}
    (hleft : Serving weight left) (hright : Serving weight' right) (op : LogicalOp)
    (target : UInt8) : Balancing (weight + weight' + 2) (logicalInto op left right target) := by
  intro b h hroom
  apply (hleft (some target) b h (hroom.weaken (by omega))).bind
  rintro _ b₁ ⟨-, hlowered⟩
  rw [← bind_assoc]
  apply (test_jump_awaits (hlowered.ready h) target _).bind
  intro done b₂ htested
  have hwaiting := hlowered.awaits htested
  apply (hright (some target) b₂ (hwaiting.ready h) (hroom.after hwaiting.current (by omega))).bind
  rintro _ b₃ ⟨-, hlowered'⟩
  have hwaiting' := hwaiting.balanced hlowered'
  have hroom₃ : b₃.current.Room 0 := hroom.after hwaiting'.current (by omega)
  apply (aimHere_balanced hwaiting' hroom₃.1).mono
  intro _ b₄ hdone
  exact hdone.weaken (by omega)

theorem assignInto_balancing {value : Option UInt8 → Lower Operand} (hvalue : Serving weight value)
    (name : String) (isLogical : Bool) (target : UInt8) :
    Balancing (weight + 12) (assignInto name isLogical value target) := by
  intro b h hroom
  apply (store_delivering name isLogical hvalue b h (hroom.weaken (by omega))).bind
  intro stored b₁ hstored
  apply (load_balanced (hstored.grows.ready h) stored target).bind
  intro _ b₂ hloaded
  have hyields : b.Yields (weight + 8) stored b₁ := hstored
  exact free_balanced h (hyields.balanced hloaded)

theorem callInto_balancing {callee : Option UInt8 → Lower Operand} {args : Lower (List UInt8)}
    (hcallee : Serving weight callee) (hargs : Stacking weight' args) (target : UInt8) :
    Balancing (weight + weight' + 2) (callInto callee args target) := by
  intro b h hroom
  have hfresh : (isFreshTop target).Ensures b fun _ b₁ => b₁ = b := ensures_of_eq_ok rfl rfl
  apply hfresh.bind
  intro isFresh b₁ hsame
  subst b₁
  cases isFresh with
  | true =>
    apply (call_balancing (hcallee (some target)) hargs 1 b h (hroom.weaken (by omega))).mono
    intro _ b₁ hcalled
    exact hcalled.weaken (by omega)
  | false =>
    apply (allocate_yields h).bind
    intro base b₁ hbase
    apply (call_balancing (hcallee (some base)) hargs 1 b₁ (hbase.ready h)
      (hroom.after hbase.current (by omega))).bind
    intro _ b₂ hcalled
    have hheld := hbase.balanced hcalled
    apply (emit_balanced (hheld.ready h) (Instruction.isPlain_of_op rfl)).bind
    intro _ b₃ hemitted
    apply (free_balanced h (hheld.balanced hemitted)).mono
    intro _ b₄ hfreed
    exact hfreed.weaken (by omega)

end Lower

end RegisterCode
