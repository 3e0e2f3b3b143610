import RegisterCode.Proofs.FailedOperations
import RegisterCode.Proofs.TrackedFunctions

/-! Values in their registers. Whatever is lowered into a register writes the register on
every way through its own code, so a local that is bound to the register finds its value
there. -/
namespace RegisterCode

open Action

namespace FunctionBuilder

variable {f f' f'' : FunctionBuilder} {r weight : Nat} {block : List Instruction}

/-- The function grew by code that never leaves itself, and every way through this code
writes the register. -/
def Fills (r : Nat) (f f' : FunctionBuilder) : Prop :=
  ∃ own, f'.listing = f.listing ++ own ∧ Flow none f.pc own [] ∧ SetAt 0 own own.length r

theorem fills_placed (hflow : Flow none f.pc block []) (hset : SetAt 0 block block.length r) :
    f.Fills r (f.placed block) :=
  ⟨block, listing_placed _ _, hflow, hset⟩

theorem Fills.after (h : f.Extends none [] weight f') (h' : f'.Fills r f'') : f.Fills r f'' := by
  obtain ⟨code, hcode, hflow⟩ := h.code
  obtain ⟨own, hown, hflow', hset⟩ := h'
  have hpc : f'.pc = f.pc + code.length := by
    rw [← length_listing, hcode, List.length_append, length_listing]
  rw [hpc] at hflow'
  refine ⟨code ++ own, by rw [hown, hcode, List.append_assoc], hflow.append hflow', ?_⟩
  rw [List.length_append]
  exact hset.prepend hflow.closed

theorem Fills.before (h : f.Fills r f') (h' : f'.Extends none [] weight f'') : f.Fills r f'' := by
  obtain ⟨own, hown, hflow, hset⟩ := h
  obtain ⟨code, hcode, hflow'⟩ := h'.code
  have hpc : f'.pc = f.pc + own.length := by
    rw [← length_listing, hown, List.length_append, length_listing]
  rw [hpc] at hflow'
  exact ⟨own ++ code, by rw [hcode, hown, List.append_assoc], hflow.append hflow',
    hset.onward hflow.closed (by simp)⟩

/-- A register that is in use, but not by a local. -/
def Spare (register : UInt8) (f : FunctionBuilder) : Prop :=
  f.scopes.count ≤ register.toNat ∧ register.toNat < f.nextFree

/-- A name gets the next register, and every way through the code writes the register. -/
def Installs (name : String) (f f' : FunctionBuilder) : Prop :=
  ∃ register, f.Binds name register f' ∧ f.Fills register.toNat f'

end FunctionBuilder

namespace Lower
open ChunkBuilder FunctionBuilder

variable {b b' : ChunkBuilder} {r weight weight' : Nat} {operand : Operand} {target : UInt8}
  {value left right : Option UInt8 → Lower Operand} {args : Lower (List UInt8)}
  {compute : UInt8 → Lower Unit}

theorem emit_fills {op : Opcode} {x y z : Int}
    (hplain : Instruction.IsPlain { op, a := x, b := y, c := z })
    (hwrites : Instruction.Writes { op, a := x, b := y, c := z } r) :
    (emit op x y z).Promises b fun _ b' => b.current.Fills r b'.current := by
  constructor
  intro _ _ hrun
  obtain ⟨-, rfl⟩ := (emit_ensures op x y z b).of_ok hrun
  exact fills_placed (.plain hplain) (setAt_single hwrites)

theorem loadConstant_fills (target : UInt8) (slot : Nat) :
    (loadConstant target slot).Promises b fun _ b' => b.current.Fills target.toNat b'.current := by
  apply Promises.bind
    ⟨(onCurrent_ensures (FunctionBuilder.loadConstant_ensures target slot b.current)).of_ok⟩
  rintro _ _ ⟨_, ⟨-, rfl⟩, rfl⟩
  exact promises_pure (fills_placed (flow_constantLoad _ _) (setAt_constantLoad _ _))

theorem free_fills (h : b.current.Fills r b'.current) :
    (free operand).Promises b' fun _ b'' => b.current.Fills r b''.current := by
  constructor
  intro _ _ hfree
  obtain ⟨next, rfl⟩ := free_eq hfree
  exact h

theorem releasing_fills {use : Lower Unit}
    (h : use.Promises b fun _ b' => b.current.Fills r b'.current) :
    (releasing operand use).Promises b fun _ b' => b.current.Fills r b'.current := by
  constructor
  intro _ _ hrun
  obtain ⟨b₁, huse, hfree⟩ := releasing_eq_ok.mp hrun
  exact (free_fills (h.of_ok huse)).of_ok hfree

theorem fills_behind {α : Type} {action : Lower α} (hbefore : b.Grows weight b')
    (h : action.Promises b' fun _ b'' => b'.current.Fills r b''.current) :
    action.Promises b' fun _ b'' => b.current.Fills r b''.current :=
  h.mono fun _ _ hfills => hfills.after hbefore.current

theorem loadGlobal_fills (h : b.Ready) (name : String) (target : UInt8) :
    (loadGlobal name target).Promises b fun _ b' => b.current.Fills target.toNat b'.current := by
  rw [loadGlobal_eq]
  apply Promises.bind ⟨(toKey_yields h name).of_ok⟩
  intro key b₁ hkey
  apply Promises.bind ⟨(resolve_balanced (hkey.ready h) environmentName).of_ok⟩
  rintro found b₂ ⟨hfound, -⟩
  apply fills_behind (hkey.toGrows.trans hfound.toGrows)
  cases found with
  | upvalue index => exact releasing_fills (emit_fills (Instruction.isPlain_of_op rfl) rfl)
  | register index => exact releasing_fills (emit_fills (Instruction.isPlain_of_op rfl) rfl)
  | global global =>
    constructor
    intro _ _ hrun
    obtain ⟨_, hthrow, -⟩ := releasing_eq_ok.mp hrun
    cases hthrow

theorem load_fills (h : b.Ready) (hother : operand ≠ .register target) :
    (load operand target).Promises b fun _ b' => b.current.Fills target.toNat b'.current := by
  cases operand with
  | register index =>
    rw [load, if_neg fun hsame => hother (by rw [hsame])]
    exact emit_fills (Instruction.isPlain_of_op rfl) rfl
  | constant slot => exact loadConstant_fills target slot.toNat
  | boolean value => exact emit_fills ⟨rfl, rfl, by simp, by simp, by simp, fun _ => rfl⟩ rfl
  | nil => exact emit_fills (Instruction.isPlain_of_op rfl) ⟨Int.le_refl _, by simp⟩
  | upvalue index => exact emit_fills (Instruction.isPlain_of_op rfl) rfl
  | global name => exact loadGlobal_fills h name target

theorem ne_register_of_yields (hyields : b.Yields weight operand b')
    (hspare : b.current.Spare target) : operand ≠ .register target := by
  rintro rfl
  rcases hyields.holds with ⟨hlocal, -⟩ | ⟨hown, -⟩
  · rw [hyields.scopes] at hlocal
    exact absurd hspare.1 (Nat.not_le_of_lt hlocal)
  · exact absurd hspare.2 (by omega)

theorem settle_fills (h : b.Ready) (hother : operand ≠ .register target) :
    (settle operand (some target)).Promises b fun _ b' =>
      b.current.Fills target.toNat b'.current := by
  apply (load_fills h hother).bind
  intro _ b₁ hfills
  exact (free_fills hfills).bind fun _ _ hfreed => promises_pure hfreed

theorem settle_yielded_fills (h : b.Ready) (hyields : b.Yields weight operand b')
    (hspare : b.current.Spare target) :
    (settle operand (some target)).Promises b' fun _ b'' =>
      b.current.Fills target.toNat b''.current :=
  fills_behind hyields.toGrows
    (settle_fills (hyields.ready h) (ne_register_of_yields hyields hspare))

structure Arriving (weight : Nat) (value : Option UInt8 → Lower Operand) : Prop where
  serving : Serving weight value
  fills : ∀ (target : UInt8) (b : ChunkBuilder), b.Ready → b.current.Room weight →
    b.current.Spare target → (value (some target)).Promises b fun _ b' =>
      b.current.Fills target.toNat b'.current

structure Storing (weight : Nat) (compute : UInt8 → Lower Unit) : Prop where
  balancing : ∀ target, Balancing weight (compute target)
  fills : ∀ (target : UInt8) (b : ChunkBuilder), b.Ready → b.current.Room weight →
    b.current.Spare target → (compute target).Promises b fun _ b' =>
      b.current.Fills target.toNat b'.current

theorem Arriving.weaken (h : Arriving weight value) (hle : weight ≤ weight') :
    Arriving weight' value where
  serving := h.serving.weaken hle
  fills target b hb hroom := h.fills target b hb (hroom.weaken hle)

theorem inPlace_arriving (h : Storing weight compute) : Arriving weight (inPlace compute) where
  serving := inPlace_serving h.balancing
  fills target b hb hroom hspare := by
    constructor
    intro _ _ hrun
    obtain ⟨_, _, hplace, hcompute, -⟩ := inPlace_eq_ok.mp hrun
    obtain ⟨rfl, rfl⟩ := pure_eq_ok.mp hplace
    exact (h.fills _ _ hb hroom hspare).of_ok hcompute

theorem arriving_immediate (hoperand : operand.register? = none) :
    Arriving 4 (settle operand) where
  serving := serving_immediate hoperand
  fills target b hb _ _ := by
    have hother : operand ≠ .register target := by
      rintro rfl
      simp [Operand.register?] at hoperand
    exact settle_fills hb hother

theorem arriving_constant (c : Constant) :
    Arriving 5 (fun dest => do settle (← constant c) dest) where
  serving := serving_constant c
  fills _ _ hb _ hspare :=
    Promises.bind ⟨(constant_yields hb c).of_ok⟩ fun _ _ hyields =>
      settle_yielded_fills hb hyields hspare

theorem arriving_name (name : String) :
    Arriving 4 (fun dest => do settle (← resolve name).operand dest) where
  serving := serving_name name
  fills _ _ hb _ hspare :=
    Promises.bind ⟨(resolve_yields hb name).of_ok⟩ fun _ _ hyields =>
      settle_yielded_fills hb hyields hspare

theorem unaryInto_storing (hvalue : Serving weight value) (op : UnaryOp) :
    Storing (weight + 5) (unaryInto op value) where
  balancing := unaryInto_balancing hvalue op
  fills target b h hroom _ := by
    rw [unaryInto_operand]
    apply Promises.bind
      ⟨(operandRegister_balancing (hvalue none) b h (hroom.weaken (by omega))).of_ok⟩
    intro register b₁ hoperand
    apply fills_behind hoperand.toGrows
    exact emit_fills (isPlain_of_unary op) (by cases op <;> rfl)

theorem writes_of_arithmetic {op : BinaryOp} {opcode : Opcode} {y z : Int}
    (h : op.shape = .arithmetic opcode) :
    Instruction.Writes { op := opcode, a := r, b := y, c := z } r := by
  cases op <;> simp only [BinaryOp.shape, reduceCtorEq, BinaryOp.Shape.arithmetic.injEq] at h <;>
    rw [← h] <;> rfl

theorem compare_fills {op : Opcode} (htest : op.isTest = true) (expected : Bool) (x y : Int)
    (hroom : b.current.Room 4) :
    (compare op expected x y target).Promises b fun _ b' =>
      b.current.Fills target.toNat b'.current := by
  constructor
  intro _ _ hrun
  obtain ⟨-, rfl⟩ := (compare_ensures op expected x y target hroom.1).of_ok hrun
  exact fills_placed (.compare htest rfl rfl rfl rfl rfl) (setAt_comparison htest)

theorem binaryInto_storing (hleft : Serving weight left) (hright : Serving weight' right)
    (op : BinaryOp) : Storing (weight + weight' + 12) (binaryInto op left right) where
  balancing := binaryInto_balancing hleft hright op
  fills target b h hroom _ := by
    have hpair := shortPair_balancing (hleft none) (hright none) b h (hroom.weaken (by omega))
    cases hshape : op.shape with
    | concatenation =>
      rw [binaryInto_concatenation hshape]
      apply Promises.bind
        ⟨(adjacentPair_balancing hleft hright b h (hroom.weaken (by omega))).of_ok⟩
      intro pair b₁ hadjacent
      apply fills_behind hadjacent.toGrows
      exact emit_fills (Instruction.isPlain_of_op rfl) rfl
    | arithmetic opcode =>
      simp only [binaryInto, hshape]
      apply Promises.bind ⟨hpair.of_ok⟩
      intro fields b₁ hfields
      apply fills_behind hfields.toGrows
      exact emit_fills (isPlain_of_arithmetic hshape) (writes_of_arithmetic hshape)
    | comparison opcode expected swapped =>
      simp only [binaryInto, hshape]
      apply Promises.bind ⟨hpair.of_ok⟩
      intro fields b₁ hfields
      apply fills_behind hfields.toGrows
      have hroom₁ : b₁.current.Room 4 := hroom.after hfields.current (by omega)
      split
      · exact compare_fills (isTest_of_comparison hshape) _ _ _ hroom₁
      · exact compare_fills (isTest_of_comparison hshape) _ _ _ hroom₁

/-- The value of the left operand is there already where the right one is skipped. -/
theorem logicalInto_storing (hleft : Arriving weight left) (hright : Serving weight' right)
    (op : LogicalOp) : Storing (weight + weight' + 2) (logicalInto op left right) where
  balancing := logicalInto_balancing hleft.serving hright op
  fills target b h hroom hspare := by
    have hfilled := hleft.fills target b h (hroom.weaken (by omega)) hspare
    have hserved := hleft.serving (some target) b h (hroom.weaken (by omega))
    apply Promises.bind ⟨fun hrun => And.intro (hfilled.of_ok hrun) (hserved.of_ok hrun)⟩
    rintro _ b₁ ⟨hfills, -, hlowered⟩
    rw [← bind_assoc]
    have hready := hlowered.ready h
    have hroom₁ : b₁.current.Room (weight' + 2) := hroom.after hlowered.current (by omega)
    apply Promises.bind ⟨(test_jump_awaits hready target _).of_ok⟩
    intro done b₂ htested
    apply Promises.bind ⟨(hright (some target) b₂ (htested.ready hready)
      (hroom₁.after htested.current (by omega))).of_ok⟩
    rintro _ b₃ ⟨-, hlowered'⟩
    have hwaiting := htested.balanced hlowered'
    have hroom₃ : b₃.current.Room 0 := hroom₁.after hwaiting.current (by omega)
    exact ⟨fun hrun => hfills.before ((aimHere_balanced hwaiting hroom₃.1).of_ok hrun).current⟩

theorem assignInto_storing (hvalue : Serving weight value) (name : String) (isLogical : Bool) :
    Storing (weight + 12) (assignInto name isLogical value) where
  balancing := assignInto_balancing hvalue name isLogical
  fills target b h hroom hspare := by
    apply Promises.bind
      ⟨(store_delivering name isLogical hvalue b h (hroom.weaken (by omega))).of_ok⟩
    intro stored b₁ hstored
    have hyields : b.Yields (weight + 8) stored b₁ := hstored
    apply (fills_behind hyields.toGrows
      (load_fills (hyields.ready h) (ne_register_of_yields hyields hspare))).bind
    intro _ b₂ hfills
    exact free_fills hfills

theorem call_fills {base : UInt8} {callee : Lower Operand}
    (hcallee : Delivering (some base) weight callee) (hargs : Stacking weight' args) (h : b.Ready)
    (hroom : b.current.Room (weight + weight' + 1)) :
    (call base callee args 1).Promises b fun _ b' => b.current.Fills base.toNat b'.current := by
  apply Promises.bind ⟨(hcallee b h (hroom.weaken (by omega))).of_ok⟩
  rintro _ b₁ ⟨-, hlowered⟩
  have hready := hlowered.ready h
  apply Promises.bind ⟨(hargs b₁ hready (hroom.after hlowered.current (by omega))).of_ok⟩
  rintro registers b₂ ⟨hgrows, -⟩
  have hcall : Instruction.Writes
      { op := .call, a := base.toNat, b := registers.length + 1, c := 1 + 1 } base.toNat :=
    ⟨Int.le_refl _, fun _ => by dsimp only; omega⟩
  apply (fills_behind (hlowered.toGrows.trans hgrows)
    (emit_fills (Instruction.isPlain_of_op rfl) hcall)).bind
  intro _ b₃ hfills
  -- giving the arguments back places no code
  induction registers.reverse generalizing b₃ with
  | nil => exact promises_pure hfills
  | cons register rest ih => exact (free_fills hfills).bind fun _ b₄ => ih b₄

theorem callInto_storing (hvalue : Serving weight value) (hargs : Stacking weight' args) :
    Storing (weight + weight' + 2) (callInto value args) where
  balancing := callInto_balancing hvalue hargs
  fills target b h hroom _ := by
    apply promises_get_bind
    split
    · exact call_fills (hvalue (some target)) hargs h (hroom.weaken (by omega))
    · apply Promises.bind ⟨(allocate_yields h).of_ok⟩
      intro base b₁ hbase
      apply Promises.bind ⟨(call_balancing (hvalue (some base)) hargs 1 b₁ (hbase.ready h)
        (hroom.after hbase.current (by omega))).of_ok⟩
      intro _ b₂ hcalled
      refine Promises.bind (fills_behind (hbase.balanced hcalled).toGrows
        (emit_fills (Instruction.isPlain_of_op rfl) rfl)) fun _ b₃ hfills => ?_
      exact free_fills hfills

theorem functionInto_fills {body : Lower Unit} (hbody : Advancing weight body) (h : b.Ready)
    (hle : weight + 1 ≤ FunctionBuilder.capacity) (params : List String) (name : String)
    (line lastLine : UInt32) :
    (functionInto params body name line lastLine target).Promises b fun _ b' =>
      b.current.Fills target.toNat b'.current := by
  rw [functionInto_eq, ← bind_assoc]
  apply Promises.bind ⟨(nested_balanced hbody h hle params name line lastLine).of_ok⟩
  intro index b₁ hclosed
  apply fills_behind hclosed.toGrows
  exact emit_fills (Instruction.isPlain_of_op rfl) rfl

theorem arriving_throw {error : Error} (h : error.IsProgramFault) :
    Arriving weight fun _ => throw error where
  serving := serving_throw h
  fills _ _ _ _ _ := promises_throw

theorem closure_fills (f : FunctionLiteral) (h : b.Ready)
    (hroom : b.current.Room (16 * (f.nodes + 1))) (name : String) (line : UInt32) :
    (closure f name line target).Promises b fun _ b' =>
      b.current.Fills target.toNat b'.current := by
  obtain ⟨params, body, endLine⟩ := f
  rw [FunctionLiteral.nodes] at hroom
  have := hroom.1
  exact functionInto_fills (advancing_statements body) h (by omega) params name line _

theorem closure_storing (f : FunctionLiteral) (name : String) (line : UInt32) :
    Storing (16 * (f.nodes + 1)) (closure f name line) where
  balancing := balancing_closure f name line
  fills _ _ h hroom _ := closure_fills f h hroom name line

theorem arrivals : ExprRules (fun e => Arriving (16 * e.nodes))
    (fun args => Stacking (16 * Expr.listNodes args))
    (fun f closure => ∀ name line, Storing (16 * (f.nodes + 1)) (closure name line)) where
  nil := (arriving_immediate rfl).weaken (by rw [Expr.nodes]; omega)
  boolean v := (arriving_immediate rfl).weaken (by rw [Expr.nodes]; omega)
  integer v := (arriving_constant _).weaken (by rw [Expr.nodes]; omega)
  number v := (arriving_constant _).weaken (by rw [Expr.nodes]; omega)
  string v := (arriving_constant _).weaken (by rw [Expr.nodes]; omega)
  name name := (arriving_name name).weaken (by rw [Expr.nodes]; omega)
  unary op hoperand := by
    rw [Expr.nodes, ExprForm.nodes]
    exact (inPlace_arriving (unaryInto_storing hoperand.serving op)).weaken (by omega)
  binary op hleft hright := by
    rw [Expr.nodes, ExprForm.nodes]
    exact (inPlace_arriving (binaryInto_storing hleft.serving hright.serving op)).weaken (by omega)
  logical op hleft hright := by
    rw [Expr.nodes, ExprForm.nodes]
    exact (inPlace_arriving (logicalInto_storing hleft hright.serving op)).weaken (by omega)
  assign name hstored := by
    rw [Expr.nodes, ExprForm.nodes]
    exact (inPlace_arriving (assignInto_storing hstored.serving name _)).weaken (by omega)
  call hcallee hargs := by
    rw [Expr.nodes, ExprForm.nodes]
    exact (inPlace_arriving (callInto_storing hcallee.serving hargs)).weaken (by omega)
  function hclosure := by
    rw [Expr.nodes, ExprForm.nodes]
    exact inPlace_arriving (hclosure _ _)
  tuple _ := arriving_throw trivial
  object _ := arriving_throw trivial
  noArgs := stacking_nil
  moreArgs hactual hrest := by
    rw [Expr.listNodes, Nat.mul_add]
    exact stacking_cons hactual.serving hrest

theorem arriving_expr (e : Expr) : Arriving (16 * e.nodes) (expr e) :=
  arrivals.holds_expr closure_storing e

theorem storing_nil : Storing 1 fun register => emit .loadNil register.toNat 0 0 where
  balancing _ _ h _ := emit_balanced h (Instruction.isPlain_of_op rfl)
  fills _ _ _ _ _ := emit_fills (Instruction.isPlain_of_op rfl) ⟨Int.le_refl _, by simp⟩

theorem storing_expr (e : Expr) :
    Storing (16 * e.nodes) fun register => do let _ ← expr e (some register) where
  balancing register := (lowerable e (some register)).ignoring
  fills target b h hroom hspare := by
    apply ((arriving_expr e).fills target b h hroom hspare).bind
    exact fun _ _ hfills => promises_pure hfills

theorem declareLocal_installs (hvalue : Storing weight compute) (name : String) (h : b.Ready)
    (hrest : b.current.AtRest) (hroom : b.current.Room weight) :
    (declareLocal name compute).Promises b fun _ b' =>
      b.current.Installs name b'.current := by
  constructor
  intro _ _ hrun
  obtain ⟨register, b₁, b₂, hallocate, hcompute, hfresh, highWater, rfl⟩ := declareLocal_eq_ok hrun
  obtain ⟨htaken, hregister, hnext⟩ := (allocate_ensures h).of_ok hallocate
  have hspare : b₁.current.Spare register := by
    refine ⟨?_, by omega⟩
    rw [htaken.scopes, hregister]
    exact Nat.le_of_eq hrest.symm
  have hfills := (hvalue.fills register b₁ (htaken.ready h)
    (hroom.after htaken.current (by omega)) hspare).of_ok hcompute
  refine ⟨register, ⟨hregister, by rw [← hregister], Scopes.register?_add hfresh⟩, ?_⟩
  exact hfills.after htaken.current

theorem defineFunction_installs (f : FunctionLiteral) (name : String) (line : UInt32) (h : b.Ready)
    (hrest : b.current.AtRest) (hroom : b.current.Room (16 * (f.nodes + 1))) :
    (defineFunction name (closure f name line)).Promises b fun _ b' =>
      b.current.Installs name b'.current := by
  constructor
  intro _ b' hrun
  obtain ⟨register, b₁, hbind, hclosure⟩ := bind_eq_ok.mp hrun
  obtain ⟨f₁, hbound, rfl⟩ := onCurrent_eq_ok.mp hbind
  have hcapacity : b.current.pc ≤ FunctionBuilder.capacity :=
    Nat.le_trans (Nat.le_add_right _ _) hroom.1
  obtain ⟨-, hlocal⟩ :=
    (FunctionBuilder.bindLocal_ensures h.sound hrest hcapacity name).of_ok hbound
  have hadvances := advances_withCurrent hlocal
  have hready := hadvances.ready h
  have hroom₁ : f₁.Room (16 * (f.nodes + 1)) := hadvances.current.room hroom (by omega)
  have hfills := (closure_fills f hready hroom₁ name line).of_ok hclosure
  have hbalanced := (balancing_closure f name line register _ hready hroom₁).of_ok hclosure
  obtain ⟨hfresh, -, hregister, rfl⟩ := (bindName_ensures h.sound name _).of_ok hbound
  refine ⟨register, ⟨hregister, hbalanced.nextFree, ?_⟩, hfills⟩
  rw [hbalanced.scopes]
  exact Scopes.register?_add hfresh

end Lower

end RegisterCode
