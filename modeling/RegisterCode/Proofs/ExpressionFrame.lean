import RegisterCode.Proofs.LoweredConstructs
import RegisterCode.Proofs.NestedFunctions
import RegisterCode.Proofs.RegisterFrames

/-! The frame of an expression: its code disturbs the register that its value goes to, free
registers, and the locals that it assigns. Everything else in the function that is being
built is left as it was, functions in the expression included. -/
namespace RegisterCode

open Action

mutual

/-- The names that the expression assigns, not counting what the functions in it do. -/
def Expr.assigned : Expr → List String
  | ⟨form, _, _, _⟩ => form.assigned

def ExprForm.assigned : ExprForm → List String
  | .nil | .boolean _ | .integer _ | .number _ | .string _ | .name _ | .function _ => []
  | .unary _ operand => operand.assigned
  | .binary _ left right | .logical _ left right => left.assigned ++ right.assigned
  | .assign name value => name :: value.assigned
  | .call callee args => callee.assigned ++ Expr.listAssigned args
  | .tuple items => Expr.listAssigned items
  | .object fields => Expr.fieldAssigned fields

def Expr.listAssigned : List Expr → List String
  | [] => []
  | e :: rest => e.assigned ++ Expr.listAssigned rest

def Expr.fieldAssigned : List (String × Expr) → List String
  | [] => []
  | (_, e) :: rest => e.assigned ++ Expr.fieldAssigned rest

end

/-- The expression may disturb the register: it is free, or it is that of a local in sight
which the expression assigns. -/
def Expr.Disturbs (e : Expr) (f : FunctionBuilder) (r : Nat) : Prop :=
  f.nextFree ≤ r ∨ ∃ name ∈ e.assigned, ∃ register,
    f.scopes.register? name = some register ∧ register.toNat = r

def Operand.isTemporary (scopes : Scopes) : Operand → Bool
  | .register index => !scopes.isNamed index
  | _ => false

namespace FunctionBuilder

variable {touched : Nat → Prop} {operand : Operand} {register : UInt8} {registers : List UInt8}
  {f f' f'' : FunctionBuilder}

theorem Tidy.permits (h : f.Tidy) (e : Expr) (htouched : ∀ r, e.Disturbs f r → touched r) :
    f.Permits touched e.assigned where
  free r hr := htouched r (.inl hr)
  owned _ howned := h.disciplined.below _ (Scopes.isOwned_iff_mem.mp howned)
  known _ _ hfound := h.plain.isOwned hfound
  named name hname register hfound := htouched _ (.inr ⟨name, hname, register, hfound, rfl⟩)

theorem Obtains.nextFree_eq (h : f.Obtains touched operand f') (hplain : f.scopes.Plain) :
    f'.nextFree = f.nextFree + (operand.isTemporary f.scopes).toNat := by
  have hrests := h.rests
  cases operand with
  | register register =>
    unfold Rests at hrests
    rw [h.scopes] at hrests
    rcases hrests with ⟨howned, hnext⟩ | ⟨howned, -, hnext⟩ <;>
      simp [Operand.isTemporary, hplain.isNamed, howned, hnext]
  | _ => exact hrests

theorem Stacks.nil (touched : Nat → Prop) (f : FunctionBuilder) : f.Stacks touched [] f :=
  ⟨.of_eq rfl rfl rfl rfl, rfl, rfl⟩

theorem Takes.stacks (h : f.Takes touched register f') (h' : f'.Stacks touched registers f'') :
    f.Stacks touched (register :: registers) f'' where
  toLeaves := h.toLeaves.trans h'.toLeaves
  row := by
    rw [List.map_cons, List.length_cons, List.range'_succ, h'.row, h.register, h.nextFree]
  nextFree := by
    have hnext := h.nextFree
    have hnext' := h'.nextFree
    rw [List.length_cons]
    omega

theorem Stacks.uncons (h : f.Stacks touched (register :: registers) f'') :
    ∃ f', f.Takes touched register f' ∧ f'.Stacks touched registers f'' := by
  have hrow := h.row
  have hnext := h.nextFree
  rw [List.map_cons, List.length_cons, List.range'_succ] at hrow
  rw [List.length_cons] at hnext
  injection hrow with holdest hnewer
  refine ⟨{ f with nextFree := f.nextFree + 1 }, ⟨.of_eq rfl rfl rfl rfl, holdest, rfl⟩, ?_⟩
  exact ⟨⟨h.scopes, h.temporaries, h.loops, h.sections, h.code⟩, hnewer, by dsimp only; omega⟩

theorem Stacks.restores (h : f.Stacks touched registers f') (h' : f'.Restores touched f'') :
    f.Stacks touched registers f'' :=
  ⟨h.toLeaves.trans h'.toLeaves, h.row, h'.nextFree.trans h.nextFree⟩

end FunctionBuilder

namespace Lower
open ChunkBuilder FunctionBuilder

variable {touched : Nat → Prop} {names : List String} {operand : Operand} {dest : Option UInt8}
  {target : UInt8} {f : FunctionBuilder} {b b' : ChunkBuilder}

/-- The action computes a value and assigns no locals but those of these names. -/
def Framed (names : List String) (dest : Option UInt8) (action : Lower Operand) : Prop :=
  ∀ (touched : Nat → Prop) (b : ChunkBuilder), b.current.Permits touched names →
    (∀ target ∈ dest, touched target.toNat) →
    action.Promises b fun operand b' => b.current.Answers touched dest operand b'.current

def Confined (names : List String) (action : UInt8 → Lower Unit) : Prop :=
  ∀ (touched : Nat → Prop) (target : UInt8) (b : ChunkBuilder),
    b.current.Permits touched names → touched target.toNat →
    (action target).Promises b fun _ b' => b.current.Restores touched b'.current

def Piling (names : List String) (action : Lower (List UInt8)) : Prop :=
  ∀ (touched : Nat → Prop) (b : ChunkBuilder), b.current.Permits touched names →
    action.Promises b fun registers b' => b.current.Stacks touched registers b'.current

theorem Framed.obtains {action : Lower Operand} (h : Framed names none action)
    (hpermits : b.current.Permits touched names) :
    action.Promises b fun operand b' => b.current.Obtains touched operand b'.current :=
  h touched b hpermits (by simp)

theorem Framed.restores {action : Lower Operand} (h : Framed names (some target) action)
    (hpermits : b.current.Permits touched names) (htarget : touched target.toNat) :
    action.Promises b fun _ b' => b.current.Restores touched b'.current := by
  apply (h touched b hpermits ?_).mono fun _ _ hanswered => hanswered.2
  rintro _ ⟨⟩
  exact htarget

theorem framed_immediate (hplain : operand.register? = none) :
    Framed names dest (settle operand dest) := by
  intro touched b h hdest
  refine settle_answers h ((Restores.refl touched b.current).obtains_of ?_) hdest
  rintro register rfl
  simp [Operand.register?] at hplain

theorem framed_constant (c : Constant) :
    Framed names dest (do settle (← constant c) dest) := by
  intro touched b h hdest
  apply (constant_obtains c b).bind
  intro operand b' hheld
  exact settle_answers h hheld hdest

theorem framed_name (name : String) :
    Framed names dest (do settle (← resolve name).operand dest) := by
  intro touched b h hdest
  apply (resolve_obtains h name).bind
  intro found b' hheld
  exact settle_answers h hheld hdest

theorem inPlace_framed {compute : UInt8 → Lower Unit} (h : Confined names compute)
    (dest : Option UInt8) : Framed names dest (inPlace compute dest) := by
  intro touched b hpermits hdest
  apply (place_answers hpermits hdest).bind
  rintro target b₁ ⟨hplaced, htarget⟩
  apply (h touched target b₁ (hplaced.permits hpermits) htarget).bind
  intro _ b₂ hwritten
  exact promises_pure (hplaced.restores hwritten)

theorem unaryInto_confined {value : Option UInt8 → Lower Operand}
    (hvalue : ∀ dest, Framed names dest (value dest)) (op : UnaryOp) :
    Confined names (unaryInto op value) := by
  intro touched target b h htarget
  rw [unaryInto_eq]
  apply ((hvalue none).obtains h).bind
  intro operand b₁ hlowered
  apply (toRegister_obtains h hlowered).bind
  intro register b₂ hheld
  apply (free_restores hheld).bind
  intro _ b₃ hfreed
  refine (emit_restores b₃ ?_).mono fun _ _ hemitted => hfreed.trans hemitted
  cases op <;> grind [UnaryOp.opcode]

theorem shortPair_restores {left right : Lower Operand} (hleft : Framed names none left)
    (hright : Framed names none right) (h : b.current.Permits touched names) :
    (shortPair left right).Promises b fun _ b' => b.current.Restores touched b'.current := by
  rw [shortPair_eq]
  apply (hleft.obtains h).bind
  intro _ b₁ hlowered
  apply (toShort_obtains h hlowered).bind
  intro first b₂ hfirst
  have hpermits := hfirst.permits h
  apply (hright.obtains hpermits).bind
  intro _ b₃ hlowered'
  apply (toShort_obtains hpermits hlowered').bind
  intro second b₄ hsecond
  apply (free_restores hsecond).bind
  intro _ b₅ hfreed
  apply (free_restores (hfirst.restores hfreed)).bind
  intro _ b₆ hdone
  exact promises_pure hdone

theorem disturbs_arithmetic {op : BinaryOp} {opcode : Opcode} (h : op.shape = .arithmetic opcode)
    {x y z : Int} {r : Nat}
    (hdisturbs : Instruction.Disturbs { op := opcode, a := x, b := y, c := z } r) : x = r := by
  cases op <;> simp only [BinaryOp.shape, reduceCtorEq, BinaryOp.Shape.arithmetic.injEq] at h <;>
    rw [← h] at hdisturbs <;> grind

theorem not_disturbs_comparison {op : BinaryOp} {opcode : Opcode} {expected swapped : Bool}
    (h : op.shape = .comparison opcode expected swapped) {x y z : Int} {r : Nat} :
    ¬ Instruction.Disturbs { op := opcode, a := x, b := y, c := z } r := by
  cases op <;> simp only [BinaryOp.shape, reduceCtorEq, BinaryOp.Shape.comparison.injEq] at h <;>
    rw [← h.1] <;> grind

theorem compare_restores {op : Opcode} {expected : Bool} {x y : Int}
    (htest : ∀ r, ¬ Instruction.Disturbs { op, a := expected.toNat, b := x, c := y } r)
    (htarget : touched target.toNat) :
    (compare op expected x y target).Promises b fun _ b' =>
      b.current.Restores touched b'.current := by
  have hload : ∀ (c : ChunkBuilder) (value skip : Int),
      (emit .loadBool target.toNat value skip).Promises c fun _ c' =>
        c.current.Restores touched c'.current :=
    fun c value skip => emit_restores c (by grind)
  have hcheck : (emit op expected.toNat x y).Promises b fun _ b' =>
      b.current.Restores touched b'.current :=
    emit_restores b fun r hr => absurd hr (htest r)
  apply hcheck.bind
  intro _ b₁ htested
  apply (jump_restores b₁).bind
  rintro toTrue b₂ ⟨htoTrue, hjumped⟩
  apply (hload b₂ 0 1).bind
  intro _ b₃ hfalse
  have hindex : b.current.pc ≤ toTrue := htoTrue ▸ htested.pc_le
  apply (aimHere_restores hindex (htested.trans (hjumped.trans hfalse))).bind
  intro _ b₄ haimed
  exact (hload b₄ 1 0).mono fun _ _ htrue => haimed.trans htrue

theorem binaryInto_confined {left right : Option UInt8 → Lower Operand}
    (hleft : ∀ dest, Framed names dest (left dest))
    (hright : ∀ dest, Framed names dest (right dest)) (op : BinaryOp) :
    Confined names (binaryInto op left right) := by
  intro touched target b h htarget
  unfold binaryInto
  split
  · apply (allocate_takes touched b).bind
    intro first b₁ hfirst
    have hpermits := hfirst.permits h
    apply ((hleft (some first)).restores hpermits (hfirst.permitted h)).bind
    intro _ b₂ hlowered
    have hpermits' := hlowered.permits hpermits
    apply (allocate_takes touched b₂).bind
    intro second b₃ hsecond
    apply ((hright (some second)).restores (hsecond.permits hpermits')
      (hsecond.permitted hpermits')).bind
    intro _ b₄ hlowered'
    apply (free_restores ((hsecond.restores hlowered').obtains hpermits')).bind
    intro _ b₅ hfreed
    apply (free_restores ((hfirst.restores (hlowered.trans hfreed)).obtains h)).bind
    intro _ b₆ hdone
    exact (emit_restores b₆ (by grind)).mono fun _ _ hemitted => hdone.trans hemitted
  · next opcode hshape =>
    apply (shortPair_restores (hleft none) (hright none) h).bind
    rintro ⟨x, y⟩ b₁ hpair
    refine (emit_restores b₁ ?_).mono fun _ _ hemitted => hpair.trans hemitted
    intro r hr
    rwa [← Int.ofNat_inj.mp (disturbs_arithmetic hshape hr)]
  · next opcode expected swapped hshape =>
    apply (shortPair_restores (hleft none) (hright none) h).bind
    rintro ⟨x, y⟩ b₁ hpair
    dsimp only
    split <;> exact (compare_restores (fun _ => not_disturbs_comparison hshape) htarget).mono
      fun _ _ hcompared => hpair.trans hcompared

theorem logicalInto_confined {left right : Option UInt8 → Lower Operand}
    (hleft : ∀ dest, Framed names dest (left dest))
    (hright : ∀ dest, Framed names dest (right dest)) (op : LogicalOp) :
    Confined names (logicalInto op left right) := by
  intro touched target b h htarget
  apply ((hleft (some target)).restores h htarget).bind
  intro _ b₁ hlowered
  apply (emit_restores b₁ (by grind)).bind
  intro _ b₂ htested
  apply (jump_restores b₂).bind
  rintro done b₃ ⟨hdone, hjumped⟩
  have hpassed := hlowered.trans htested
  -- the jump is younger than the code that was there, which is why it may be aimed
  have hindex : b.current.pc ≤ done := hdone ▸ hpassed.pc_le
  have hwaiting := hpassed.trans hjumped
  apply ((hright (some target)).restores (hwaiting.permits h) htarget).bind
  intro _ b₄ hlowered'
  exact aimHere_restores hindex (hwaiting.trans hlowered')

/-- A local that is assigned has its value from the code itself; a store elsewhere disturbs
no register of the function. -/
theorem store_obtains {name : String} {value : Option UInt8 → Lower Operand} (isLogical : Bool)
    (hname : name ∈ names) (hvalue : ∀ dest, Framed names dest (value dest))
    (h : b.current.Permits touched names) :
    (store name isLogical value).Promises b fun operand b' =>
      b.current.Obtains touched operand b'.current := by
  rw [store_eq]
  apply (resolve_restores name b).bind
  rintro found b₁ ⟨hfound, hregister⟩
  have hpermits := hfound.permits h
  cases found with
  | register target =>
    have hlocal := hregister target rfl
    have htarget : touched target.toNat := hpermits.named name hname target hlocal
    have hreturn : ∀ {c : ChunkBuilder}, b₁.current.Restores touched c.current →
        b.current.Obtains touched (.register target) c.current := by
      intro c hc
      refine (hfound.trans hc).obtains_of ?_
      rintro _ ⟨⟩
      rw [hc.scopes]
      exact hpermits.known name target hlocal
    cases isLogical with
    | true =>
      apply ((hvalue none).obtains hpermits).bind
      intro _ b₂ hlowered
      apply (toRegister_obtains hpermits hlowered).bind
      intro stored b₃ hheld
      apply (load_restores (hheld.permits hpermits) (.register stored) htarget).bind
      intro _ b₄ hloaded
      apply (free_restores (hheld.restores hloaded)).bind
      intro _ b₅ hfreed
      exact promises_pure (hreturn hfreed)
    | false =>
      apply ((hvalue (some target)).restores hpermits htarget).bind
      intro _ b₂ hlowered
      exact promises_pure (hreturn hlowered)
  | upvalue index =>
    apply ((hvalue none).obtains hpermits).bind
    intro _ b₂ hlowered
    apply (toRegister_obtains hpermits hlowered).bind
    intro stored b₃ hheld
    apply (emit_restores b₃ (by grind)).bind
    intro _ b₄ hemitted
    exact promises_pure (hfound.obtains (hheld.restores hemitted))
  | global global =>
    apply ((hvalue none).obtains hpermits).bind
    intro _ b₂ hlowered
    apply (toShort_obtains hpermits hlowered).bind
    intro stored b₃ hheld
    apply (storeGlobal_restores (hheld.permits hpermits) global stored).bind
    intro _ b₄ hstored
    exact promises_pure (hfound.obtains (hheld.restores hstored))

theorem assignInto_confined {name : String} {value : Option UInt8 → Lower Operand}
    (hname : name ∈ names) (hvalue : ∀ dest, Framed names dest (value dest)) (isLogical : Bool) :
    Confined names (assignInto name isLogical value) := by
  intro touched target b h htarget
  apply (store_obtains isLogical hname hvalue h).bind
  intro stored b₁ hstored
  apply (load_restores (hstored.permits h) stored htarget).bind
  intro _ b₂ hloaded
  exact free_restores (hstored.restores hloaded)

theorem piling_nil : Piling names (pure []) :=
  fun touched b _ => promises_pure (.nil touched b.current)

theorem piling_cons {first : Option UInt8 → Lower Operand} {rest : Lower (List UInt8)}
    (hfirst : ∀ dest, Framed names dest (first dest)) (hrest : Piling names rest) :
    Piling names (do
      let register ← allocate
      let _ ← first (some register)
      let registers ← rest
      return register :: registers) := by
  intro touched b h
  apply (allocate_takes touched b).bind
  intro register b₁ htaken
  have hpermits := htaken.permits h
  apply ((hfirst (some register)).restores hpermits (htaken.permitted h)).bind
  intro _ b₂ hlowered
  apply (hrest touched b₂ (hlowered.permits hpermits)).bind
  intro registers b₃ hstacked
  exact promises_pure ((htaken.restores hlowered).stacks hstacked)

theorem freeAll_restores {registers : List UInt8} (hpermits : f.Permits touched names)
    (h : f.Stacks touched registers b.current) :
    (registers.reverse.forM fun register => free (.register register)).Promises b fun _ b' =>
      f.Restores touched b'.current := by
  induction registers generalizing f with
  | nil => exact promises_pure ⟨h.toLeaves, h.nextFree⟩
  | cons oldest newer ih =>
    -- what is left after the newer ones are gone is the oldest, taken just now
    obtain ⟨f', htaken, hstacked⟩ := h.uncons
    rw [List.reverse_cons, List.forM_eq_forM, List.forM_append, List.forM_cons]
    apply (ih (htaken.permits hpermits) hstacked).bind
    intro _ b₁ hfreed
    apply (free_restores ((htaken.restores hfreed).obtains hpermits)).bind
    intro _ b₂ hdone
    exact promises_pure hdone

theorem call_restores {base : UInt8} {callee : Lower Operand} {args : Lower (List UInt8)}
    (hcallee : Framed names (some base) callee) (hargs : Piling names args) (results : Nat)
    (h : b.current.Permits touched names) (hbase : touched base.toNat)
    (hnewest : base.toNat + 1 = b.current.nextFree) :
    (call base callee args results).Promises b fun _ b' =>
      b.current.Restores touched b'.current := by
  -- the arguments and all else above the callee is free again when the call returns
  have hcall : ∀ (y z : Int) (r : Nat),
      Instruction.Disturbs { op := .call, a := base.toNat, b := y, c := z } r → touched r := by
    intro y z r hr
    have hle : base.toNat ≤ r := by grind
    rcases Nat.eq_or_lt_of_le hle with rfl | hlt
    · exact hbase
    · exact h.free r (by omega)
  apply (hcallee.restores h hbase).bind
  intro _ b₁ hlowered
  have hpermits := hlowered.permits h
  apply (hargs touched b₁ hpermits).bind
  intro registers b₂ hstacked
  apply (emit_restores b₂ (hcall _ _)).bind
  intro _ b₃ hemitted
  exact (freeAll_restores hpermits (hstacked.restores hemitted)).mono fun _ _ hfreed =>
    hlowered.trans hfreed

theorem callInto_confined {callee : Option UInt8 → Lower Operand} {args : Lower (List UInt8)}
    (hcallee : ∀ dest, Framed names dest (callee dest)) (hargs : Piling names args) :
    Confined names (callInto callee args) := by
  intro touched target b h htarget
  apply (isFreshTop_promises target b).bind
  rintro fresh _ ⟨rfl, hfresh⟩
  split
  · next hnewest =>
    exact call_restores (hcallee (some target)) hargs 1 h htarget (hfresh hnewest)
  · apply (allocate_takes touched b).bind
    intro base b₁ htaken
    have hnewest : base.toNat + 1 = b₁.current.nextFree := by rw [htaken.register, htaken.nextFree]
    apply (call_restores (hcallee (some base)) hargs 1 (htaken.permits h) (htaken.permitted h)
      hnewest).bind
    intro _ b₂ hcalled
    exact emit_free_restores ((htaken.restores hcalled).obtains h) (by grind)

/-- While a function is built inside, the one around it only captures; then it gains a
child and one instruction. -/
theorem closure_confined (function : FunctionLiteral) (name : String) (line : UInt32) :
    Confined names (closure function name line) := by
  intro touched target b _ htarget
  have hload : ∀ (index : Int) (r : Nat),
      Instruction.Disturbs { op := .closure, a := target.toNat, b := index, c := 0 } r →
        touched r := by
    grind
  obtain ⟨params, body, endLine⟩ := function
  refine ⟨fun {_ b'} hrun => ?_⟩
  obtain ⟨_, inner, -, hnests, hclosed⟩ := functionInto_eq_ok (outlined.holds_statements body) hrun
  obtain ⟨outer, rest, hcaptures, -, hsplit⟩ :=
    List.forall₂_cons_left_iff.mp hnests.around.enclosing
  obtain ⟨index, _, hclose, hemit⟩ := bind_eq_ok.mp hclosed
  obtain ⟨child, -, rfl, rfl⟩ := closeFunction_eq hsplit hclose
  exact (hcaptures.restores child).trans ((emit_restores _ (hload _)).of_ok hemit)

theorem confined : ExprRules
    (fun e value => e.assigned ⊆ names → ∀ dest, Framed names dest (value dest))
    (fun args lowered => Expr.listAssigned args ⊆ names → Piling names lowered)
    (fun _ closure => ∀ name line, Confined names (closure name line)) where
  nil _ _ := framed_immediate rfl
  boolean _ _ _ := framed_immediate rfl
  integer _ _ _ := framed_constant _
  number _ _ _ := framed_constant _
  string _ _ _ := framed_constant _
  name name _ _ := framed_name name
  unary op hoperand hnames := by
    rw [Expr.assigned, ExprForm.assigned] at hnames
    exact inPlace_framed (unaryInto_confined (hoperand hnames) op)
  binary op hleft hright hnames := by
    rw [Expr.assigned, ExprForm.assigned] at hnames
    obtain ⟨hfirst, hsecond⟩ := List.append_subset.mp hnames
    exact inPlace_framed (binaryInto_confined (hleft hfirst) (hright hsecond) op)
  logical op hleft hright hnames := by
    rw [Expr.assigned, ExprForm.assigned] at hnames
    obtain ⟨hfirst, hsecond⟩ := List.append_subset.mp hnames
    exact inPlace_framed (logicalInto_confined (hleft hfirst) (hright hsecond) op)
  assign name hstored hnames := by
    rw [Expr.assigned, ExprForm.assigned] at hnames
    obtain ⟨hname, hvalue⟩ := List.cons_subset.mp hnames
    exact inPlace_framed (assignInto_confined hname (hstored hvalue) _)
  call hcallee hargs hnames := by
    rw [Expr.assigned, ExprForm.assigned] at hnames
    obtain ⟨hfirst, hrest⟩ := List.append_subset.mp hnames
    exact inPlace_framed (callInto_confined (hcallee hfirst) (hargs hrest))
  function hclosure _ := inPlace_framed (hclosure _ _)
  tuple _ _ _ := fun _ _ _ _ => promises_throw
  object _ _ _ := fun _ _ _ _ => promises_throw
  noArgs _ := piling_nil
  moreArgs hactual hrest hnames := by
    rw [Expr.listAssigned] at hnames
    obtain ⟨hfirst, hothers⟩ := List.append_subset.mp hnames
    exact piling_cons (hactual hfirst) (hrest hothers)

theorem framed_expr (e : Expr) (hnames : e.assigned ⊆ names) (dest : Option UInt8) :
    Framed names dest (expr e dest) :=
  confined.holds_expr closure_confined e hnames dest

theorem piling_arguments (args : List Expr) (hnames : Expr.listAssigned args ⊆ names) :
    Piling names (arguments args) :=
  confined.holds_arguments closure_confined args hnames

/-- An expression is lowered into a register without any change to what is open in the
function, and its code comes behind all other code and disturbs no register in use but that
one and those of the locals that it assigns. The same goes for an expression that is lowered
to an operand, which then has a register of its own or takes none. -/
theorem expr_frame (hb : b.Reached) (e : Expr) :
    (∀ target operand b', expr e (some target) b = .ok operand b' → operand = .register target ∧
      b.current.Restores (fun r => r = target.toNat ∨ e.Disturbs b.current r) b'.current) ∧
    ∀ operand b', expr e none b = .ok operand b' →
      b.current.Leaves (e.Disturbs b.current) b'.current ∧
      b'.current.nextFree =
        b.current.nextFree + (operand.isTemporary b.current.scopes).toNat := by
  have htidy : b.current.Tidy := hb.tidy b.current List.mem_cons_self
  have hframed := framed_expr e (List.Subset.refl e.assigned)
  constructor
  · intro target operand b' hrun
    refine (hframed (some target) _ b (htidy.permits e fun r => .inr) ?_).of_ok hrun
    rintro _ ⟨⟩
    exact .inl rfl
  · intro operand b' hrun
    have hobtained := ((hframed none).obtains (htidy.permits e fun r => id)).of_ok hrun
    exact ⟨hobtained.toLeaves, hobtained.nextFree_eq htidy.plain⟩

def declared : ChunkBuilder :=
  (statements (["x", "y", "z"].map fun name => .of (.declare name none))).after (.start {} none)

/-- Assigns `x` and `y`, and calls `z` with a function that assigns `z`. -/
def assigning : Expr :=
  .of (.assign "x" (.of (.logical .and
    (.of (.call (.of (.name "z")) [.of (.assign "y" (.of .nil)),
      .of (.function ⟨[], [.of (.expr (.of (.assign "z" (.of (.name "y")))))], 0⟩)]))
    (.of (.name "y")))))

theorem expr_frame_assigning : declared.Reached ∧
    (∃ b', expr assigning (some 0) declared = .ok (.register 0) b' ∧ b'.current.nextFree = 3 ∧
      ∃ added, b'.current.listing = declared.current.listing ++ added ∧
        ∀ i ∈ added, ¬ i.Disturbs 2) ∧
    ∃ b', expr assigning none declared = .ok (.register 3) b' ∧ b'.current.nextFree = 4 := by
  have hreached : declared.Reached := (stepwise.holds_statements _).reached ⟨{}, none, .refl⟩
  have hnextFree : declared.current.nextFree = 3 := by decide +kernel
  have hothers : ∀ name ∈ assigning.assigned, declared.current.scopes.register? name ≠ some 2 := by
    decide +kernel
  have htemporary : (Operand.register 3).isTemporary declared.current.scopes = true := by
    decide +kernel
  have hinto := value?_eq_some
    (show (expr assigning (some 0)).value? declared = some (.register 0) by decide +kernel)
  have hanywhere := value?_eq_some
    (show (expr assigning none).value? declared = some (.register 3) by decide +kernel)
  obtain ⟨-, hrestores⟩ := (expr_frame hreached assigning).1 0 _ _ hinto
  obtain ⟨-, hnext⟩ := (expr_frame hreached assigning).2 _ _ hanywhere
  rw [hnextFree, htemporary] at hnext
  obtain ⟨added, hcode, hadded⟩ := hrestores.code
  have hkept : ∀ i ∈ added, ¬ i.Disturbs 2 := by
    intro i hi hdisturbs
    rcases hadded i hi 2 hdisturbs with hzero | hfree | ⟨name, hname, register, hfound, hregister⟩
    · cases hzero
    · omega
    · obtain rfl : register = 2 := UInt8.toNat_inj.mp hregister
      exact hothers name hname hfound
  exact ⟨hreached, ⟨_, hinto, hrestores.nextFree.trans hnextFree, added, hcode, hkept⟩, _,
    hanywhere, hnext⟩

end Lower

end RegisterCode
