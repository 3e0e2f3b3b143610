import RegisterCode.Proofs.OperandRegisters

/-! The registers of the locals that an expression assigns. Wherever in an expression a local
gets a new value, there is an instruction that writes its register. -/
namespace RegisterCode

open Action

/-- The value is what the variable holds already, or was given just before. -/
def ExprForm.isOwn (name : String) : ExprForm → Bool
  | .name other => other == name
  | .assign other ⟨.name source, _, _, _⟩ => other == name || source == name
  | .assign other _ => other == name
  | _ => false

mutual

/-- The names that the expression gives a value which is not their own already, not counting
what the functions in it do. -/
def Expr.recomputed : Expr → List String
  | ⟨form, _, _, _⟩ => form.recomputed

def ExprForm.recomputed : ExprForm → List String
  | .nil | .boolean _ | .integer _ | .number _ | .string _ | .name _ | .function _ => []
  | .unary _ operand => operand.recomputed
  | .binary _ left right | .logical _ left right => left.recomputed ++ right.recomputed
  | .assign name value => (if value.form.isOwn name then [] else [name]) ++ value.recomputed
  | .call callee args => callee.recomputed ++ Expr.listRecomputed args
  | .tuple items => Expr.listRecomputed items
  | .object fields => Expr.fieldRecomputed fields

def Expr.listRecomputed : List Expr → List String
  | [] => []
  | e :: rest => e.recomputed ++ Expr.listRecomputed rest

def Expr.fieldRecomputed : List (String × Expr) → List String
  | [] => []
  | (_, e) :: rest => e.recomputed ++ Expr.fieldRecomputed rest

end

theorem Instruction.writes_aimed {i : Instruction} {r index target : Nat}
    (hjump : i.op.isJump = true) (h : i.Writes r) :
    (FunctionBuilder.aimed i index target).Writes r := by
  obtain ⟨op, a, b, c, line⟩ := i
  rcases Opcode.isJump_cases hjump with rfl | rfl | rfl | rfl <;> exact h

namespace FunctionBuilder

variable {touched : Nat → Prop} {dest : Option UInt8} {operand : Operand} {n r : Nat}
  {f f' f'' : FunctionBuilder}

def WritesFrom (f : FunctionBuilder) (n r : Nat) : Prop :=
  ∃ k i, n ≤ k ∧ f.listing[k]? = some i ∧ i.Writes r

theorem WritesFrom.mono {n' : Nat} (h : f.WritesFrom n r) (hle : n' ≤ n) : f.WritesFrom n' r := by
  obtain ⟨k, i, hk, hat, hwrites⟩ := h
  exact ⟨k, i, Nat.le_trans hle hk, hat, hwrites⟩

theorem writesFrom_placed {code : List Instruction} {i : Instruction} (hi : i ∈ code)
    (hwrites : i.Writes r) : (f.placed code).WritesFrom f.pc r := by
  obtain ⟨k, hk⟩ := List.mem_iff_getElem?.mp hi
  refine ⟨f.pc + k, i, Nat.le_add_right _ _, ?_, hwrites⟩
  rw [listing_placed, List.getElem?_append_right (by simp), length_listing,
    Nat.add_sub_cancel_left, hk]

structure Upholds (f f' : FunctionBuilder) : Prop where
  scopes : f'.scopes = f.scopes
  pc_le : f.pc ≤ f'.pc
  writes : ∀ n r, f.WritesFrom n r → f'.WritesFrom n r

theorem Upholds.trans (h : f.Upholds f') (h' : f'.Upholds f'') : f.Upholds f'' :=
  ⟨h'.scopes.trans h.scopes, Nat.le_trans h.pc_le h'.pc_le,
    fun n r hwrites => h'.writes n r (h.writes n r hwrites)⟩

theorem Leaves.getElem? (h : f.Leaves touched f') {k : Nat} {i : Instruction}
    (hat : f.listing[k]? = some i) : f'.listing[k]? = some i := by
  obtain ⟨added, hcode, -⟩ := h.code
  rw [hcode, List.getElem?_append_left (List.getElem?_eq_some_iff.mp hat).1, hat]

theorem Leaves.upholds (h : f.Leaves touched f') : f.Upholds f' where
  scopes := h.scopes
  pc_le := h.pc_le
  writes n r := by
    rintro ⟨k, i, hk, hat, hwrites⟩
    exact ⟨k, i, hk, h.getElem? hat, hwrites⟩

theorem Answers.upholds (h : f.Answers touched dest operand f') : f.Upholds f' := by
  cases dest with
  | some target => exact h.2.toLeaves.upholds
  | none => exact Obtains.toLeaves h |>.upholds

theorem upholds_nextFree (f : FunctionBuilder) (nextFree : Nat) :
    f.Upholds { f with nextFree } :=
  ⟨rfl, Nat.le_refl _, fun _ _ => id⟩

theorem Upholds.refl (f : FunctionBuilder) : f.Upholds f :=
  upholds_nextFree f f.nextFree

theorem free_only_nextFree {register : UInt8} (h : free register f = .ok () f') :
    ∃ nextFree, f' = { f with nextFree } := by
  unfold free at h
  by_cases howned : f.scopes.isOwned register = true
  · rw [if_pos howned] at h
    cases h
    exact ⟨f.nextFree, rfl⟩
  rw [if_neg howned] at h
  by_cases habove : f.nextFree < register.toNat
  · rw [if_pos habove] at h
    cases h
  rw [if_neg habove] at h
  by_cases hbelow : register.toNat + 1 < f.nextFree
  · rw [if_pos hbelow] at h
    cases h
  rw [if_neg hbelow] at h
  cases h
  exact ⟨register.toNat, rfl⟩

theorem upholds_replaced {index target : Nat} {jump : Instruction} (hat : f.JumpAt index jump) :
    f.Upholds (f.replaced index (aimed jump index target)) where
  scopes := rfl
  pc_le := by rw [pc_replaced]
  writes n r := by
    rintro ⟨k, i, hk, hget, hwrites⟩
    by_cases hsame : index = k
    · subst hsame
      obtain rfl : jump = i := Option.some.inj (hat.1.symm.trans hget)
      obtain ⟨hlt, -⟩ := List.getElem?_eq_some_iff.mp hget
      exact ⟨index, aimed jump index target, hk,
        by rw [listing_replaced, List.getElem?_set_self hlt],
        Instruction.writes_aimed hat.2 hwrites⟩
    · exact ⟨k, i, hk, by rw [listing_replaced, List.getElem?_set_ne hsame, hget], hwrites⟩

end FunctionBuilder

namespace Lower
open ChunkBuilder FunctionBuilder

variable {α β : Type} {name : String} {q : UInt8} {e : Expr} {b b' : ChunkBuilder}
  {action : Lower α} {next : α → Lower β}

structure Upholding (action : Lower α) : Prop where
  stepwise : Stepwise action
  upholds : ∀ b, b.Reached → action.Promises b fun _ b' => b.current.Upholds b'.current

def Assigns (name : String) (q : UInt8) (action : Lower α) : Prop :=
  ∀ b, b.Reached → b.current.scopes.register? name = some q →
    action.Promises b fun _ b' => b'.current.WritesFrom b.current.pc q.toNat

theorem Upholding.reached (h : Upholding action) (hb : b.Reached) {value : α}
    (hrun : action b = .ok value b') : b'.Reached := by
  rw [← after_of_ok hrun]
  exact h.stepwise.reached hb

theorem Upholding.bind (h : Upholding action) (hnext : ∀ value, Upholding (next value)) :
    Upholding (action >>= next) where
  stepwise := h.stepwise.bind fun value => (hnext value).stepwise
  upholds b hb := by
    refine ⟨fun hrun => ?_⟩
    obtain ⟨value, b₁, hfirst, hrest⟩ := bind_eq_ok.mp hrun
    have hupheld := ((hnext value).upholds b₁ (h.reached hb hfirst)).of_ok hrest
    exact ((h.upholds b hb).of_ok hfirst).trans hupheld

theorem Assigns.followed (h : Assigns name q action) (hfirst : Upholding action)
    (hnext : ∀ value, Upholding (next value)) : Assigns name q (action >>= next) := by
  intro b hb hname
  refine ⟨fun hrun => ?_⟩
  obtain ⟨value, b₁, hrun₁, hrun₂⟩ := bind_eq_ok.mp hrun
  have hupheld := ((hnext value).upholds b₁ (hfirst.reached hb hrun₁)).of_ok hrun₂
  exact hupheld.writes _ _ ((h b hb hname).of_ok hrun₁)

theorem Upholding.handing {post : α → Prop} (h : Upholding action)
    (hpost : ∀ b, b.Reached → b.current.scopes.register? name = some q →
      action.Promises b fun value _ => post value)
    (hnext : ∀ value, post value → Assigns name q (next value)) :
    Assigns name q (action >>= next) := by
  intro b hb hname
  refine ⟨fun hrun => ?_⟩
  obtain ⟨value, b₁, hrun₁, hrun₂⟩ := bind_eq_ok.mp hrun
  have hupheld := (h.upholds b hb).of_ok hrun₁
  have hname₁ : b₁.current.scopes.register? name = some q := by rw [hupheld.scopes, hname]
  have hvalue := (hpost b hb hname).of_ok hrun₁
  exact ((hnext value hvalue b₁ (h.reached hb hrun₁) hname₁).of_ok hrun₂).mono hupheld.pc_le

theorem Upholding.before (h : Upholding action) (hnext : ∀ value, Assigns name q (next value)) :
    Assigns name q (action >>= next) :=
  h.handing (fun _ _ _ => ⟨fun _ => trivial⟩) fun value _ => hnext value

theorem upholding_pure (value : α) : Upholding (pure value) :=
  ⟨stepwise_pure value, fun b _ => promises_pure (.refl b.current)⟩

theorem upholding_of_leaves (hstepwise : Stepwise action)
    (h : ∀ b, b.Reached →
      action.Promises b fun _ b' => b.current.Leaves (fun _ => True) b'.current) :
    Upholding action :=
  ⟨hstepwise, fun b hb => (h b hb).mono fun _ _ hleaves => hleaves.upholds⟩

theorem upholding_allocate : Upholding allocate :=
  upholding_of_leaves stepwise_allocate fun b _ =>
    (allocate_takes _ b).mono fun _ _ htaken => htaken.toLeaves

theorem upholding_place (dest : Option UInt8) : Upholding (place dest) := by
  cases dest with
  | none => exact upholding_allocate
  | some target => exact upholding_pure target

theorem upholding_emit (op : Opcode) (x y z : Int) : Upholding (emit op x y z) :=
  upholding_of_leaves (stepwise_emit op x y z) fun b _ =>
    (emit_restores b fun _ _ => trivial).mono fun _ _ hemitted => hemitted.toLeaves

theorem upholding_jump : Upholding jump :=
  upholding_of_leaves stepwise_jump fun b _ =>
    (jump_restores b).mono fun _ _ hjumped => hjumped.2.toLeaves

theorem upholding_aimHere (index : Nat) : Upholding (aimHere index) where
  stepwise := stepwise_aimHere index
  upholds b _ := by
    refine ⟨fun hrun => ?_⟩
    obtain ⟨_, haim, rfl⟩ := onCurrent_eq_ok.mp hrun
    rw [aimHere_eq_aim] at haim
    rcases aim_cases index b.current.pc b.current with ⟨jump, hat, haimed⟩ | ⟨error, herror, -⟩
    · rw [haimed] at haim
      cases haim
      exact upholds_replaced hat
    · simp [herror] at haim

theorem upholding_free (operand : Operand) : Upholding (free operand) where
  stepwise := stepwise_free operand
  upholds b _ := by
    cases operand with
    | register register =>
      refine ⟨fun hrun => ?_⟩
      obtain ⟨_, hfree, rfl⟩ := onCurrent_eq_ok.mp hrun
      obtain ⟨nextFree, rfl⟩ := free_only_nextFree hfree
      exact upholds_nextFree b.current nextFree
    | _ => exact promises_pure (.refl b.current)

theorem upholding_load (operand : Operand) (target : UInt8) : Upholding (load operand target) :=
  upholding_of_leaves (stepwise_load operand target) fun _ hb =>
    (load_restores (hb.permits []) operand trivial).mono fun _ _ hloaded => hloaded.toLeaves

theorem upholding_toRegister (operand : Operand) : Upholding (toRegister operand) := by
  rcases toRegister_cases operand with ⟨index, -, hsame⟩ | hfresh
  · rw [hsame]
    exact upholding_pure index
  · rw [hfresh]
    exact upholding_allocate.bind fun target => (upholding_load _ target).bind fun _ =>
      upholding_pure target

theorem upholding_toShort (operand : Operand) : Upholding (toShort operand) := by
  rcases toShort_cases operand with ⟨short, -, hsame⟩ | hheld
  · rw [hsame]
    exact upholding_pure short
  · rw [hheld]
    exact (upholding_toRegister operand).bind fun _ => upholding_pure _

theorem upholding_resolve (name : String) : Upholding (resolve name) :=
  upholding_of_leaves (stepwise_resolve name) fun b _ =>
    (resolve_restores name b).mono fun _ _ hresolved => hresolved.1.toLeaves

theorem upholding_constant (c : Constant) : Upholding (constant c) :=
  upholding_of_leaves (stepwise_constant c) fun b _ =>
    (constant_obtains c b).mono fun _ _ hheld => hheld.toLeaves

theorem upholding_storeGlobal (name : String) (value : Short) :
    Upholding (storeGlobal name value.holder) :=
  upholding_of_leaves (stepwise_storeGlobal name value) fun _ hb =>
    (storeGlobal_restores (hb.permits []) name value).mono fun _ _ hstored => hstored.toLeaves

theorem upholding_expr (e : Expr) (dest : Option UInt8) : Upholding (expr e dest) where
  stepwise := stepwise.holds_expr e dest
  upholds b hb :=
    (framed_expr e (List.Subset.refl _) dest _ b (hb.permits _) fun _ _ => trivial).mono
      fun _ _ hanswered => hanswered.upholds

theorem upholding_arguments (args : List Expr) : Upholding (arguments args) :=
  upholding_of_leaves (stepwise.holds_arguments args) fun b hb =>
    (piling_arguments args (List.Subset.refl _) _ b (hb.permits _)).mono
      fun _ _ hstacked => hstacked.toLeaves

theorem upholding_compare (op : Opcode) (expected : Bool) (x y : Int) (target : UInt8) :
    Upholding (compare op expected x y target) :=
  (upholding_emit _ _ _ _).bind fun _ => upholding_jump.bind fun _ =>
    (upholding_emit _ _ _ _).bind fun _ => (upholding_aimHere _).bind fun _ =>
      upholding_emit _ _ _ _

theorem upholding_freeAll (registers : List UInt8) :
    Upholding (registers.forM fun register => free (.register register)) := by
  induction registers with
  | nil => exact upholding_pure _
  | cons register rest ih =>
    rw [List.forM_eq_forM, List.forM_cons]
    exact (upholding_free _).bind fun _ => ih

theorem upholding_call (base : UInt8) (callee : Expr) (args : List Expr) (results : Nat) :
    Upholding (call base (expr callee (some base)) (arguments args) results) :=
  (upholding_expr callee _).bind fun _ => (upholding_arguments args).bind fun _ =>
    (upholding_emit _ _ _ _).bind fun _ => upholding_freeAll _

theorem Assigns.returned (h : Assigns name q action) (result : α → β) :
    Assigns name q (do return result (← action)) := by
  intro b hb hname
  refine ⟨fun hrun => ?_⟩
  obtain ⟨value, b₁, hfirst, hreturn⟩ := bind_eq_ok.mp hrun
  cases hreturn
  exact (h b hb hname).of_ok hfirst

theorem assigns_emit {op : Opcode} {x y z : Int}
    (h : Instruction.Writes { op, a := x, b := y, c := z } q.toNat) :
    Assigns name q (emit op x y z) := by
  intro b _ _
  refine ⟨fun hrun => ?_⟩
  obtain ⟨-, rfl⟩ := (emit_ensures op x y z b).of_ok hrun
  exact writesFrom_placed (List.mem_singleton.mpr rfl) h

theorem assigns_loadConstant (slot : Nat) : Assigns name q (loadConstant q slot) := by
  intro b _ _
  refine ⟨fun hrun => ?_⟩
  obtain ⟨_, b₁, hcurrent, hrun⟩ := bind_eq_ok.mp hrun
  cases hrun
  obtain ⟨_, hload, rfl⟩ := onCurrent_eq_ok.mp hcurrent
  obtain ⟨-, rfl⟩ := (loadConstant_ensures q slot b.current).of_ok hload
  unfold constantLoad
  split <;> exact writesFrom_placed List.mem_cons_self rfl

theorem upholding_toKey (global : String) : Upholding (toKey global) :=
  upholding_of_leaves (stepwise_toKey global) fun _ hb =>
    (toKey_obtains (hb.permits []) global).mono fun _ _ hheld => hheld.toLeaves

theorem assigns_releasing {operand : Operand} {op : Opcode} {x y z : Int}
    (h : Instruction.Writes { op, a := x, b := y, c := z } q.toNat) :
    Assigns name q (releasing operand (emit op x y z)) := by
  have hboth : Assigns name q (do emit op x y z; free operand) :=
    (assigns_emit h).followed (upholding_emit _ _ _ _) fun _ => upholding_free _
  exact fun b hb hname => ⟨fun hrun => (hboth b hb hname).of_ok (releasing_eq_ok_iff.mp hrun)⟩

theorem assigns_loadGlobal (global : String) : Assigns name q (loadGlobal global q) := by
  rw [loadGlobal_eq]
  refine (upholding_toKey global).before fun short => (upholding_resolve _).before fun found => ?_
  cases found with
  | upvalue index => exact assigns_releasing rfl
  | register index => exact assigns_releasing rfl
  | global _ =>
    refine fun b _ _ => ⟨fun hrun => ?_⟩
    obtain ⟨_, hthrow, -⟩ := releasing_eq_ok.mp hrun
    cases hthrow

theorem assigns_load {operand : Operand} (h : operand ≠ .register q) :
    Assigns name q (load operand q) := by
  cases operand with
  | register index =>
    have hother : index ≠ q := fun hsame => h (congrArg Operand.register hsame)
    rw [load, if_neg hother]
    exact assigns_emit rfl
  | constant slot => exact assigns_loadConstant slot.toNat
  | boolean value => exact assigns_emit rfl
  | nil => exact assigns_emit (by simp [Instruction.Writes])
  | upvalue index => exact assigns_emit rfl
  | global global => exact assigns_loadGlobal global

theorem assigns_settle {operand : Operand} (h : operand ≠ .register q) :
    Assigns name q (settle operand (some q)) :=
  (assigns_load h).followed (upholding_load _ _) fun _ =>
    (upholding_free _).bind fun _ => upholding_pure _

theorem assigns_constant (c : Constant) :
    Assigns name q (do settle (← constant c) (some q)) := by
  refine (upholding_constant c).handing ?_ fun operand => assigns_settle
  refine fun b _ _ => ⟨fun hrun => ?_⟩
  obtain ⟨_, _, -, hreturn⟩ := bind_eq_ok.mp hrun
  cases hreturn
  simp

theorem assigns_name {other : String} (hother : other ≠ name) :
    Assigns name q (do settle (← resolve other).operand (some q)) := by
  refine (upholding_resolve other).handing ?_ fun found => assigns_settle
  refine fun b hb hname => ⟨fun {found _} hrun => ?_⟩
  obtain ⟨hfound, -⟩ := (resolve_ensures other b).of_ok hrun
  cases found with
  | register register =>
    rintro ⟨⟩
    exact hother (hb.current_tidy.register?_inj hfound hname)
  | _ => rintro ⟨⟩

theorem writes_arithmetic {op : BinaryOp} {opcode : Opcode} (h : op.shape = .arithmetic opcode)
    (r : Nat) (y z : Int) : Instruction.Writes { op := opcode, a := r, b := y, c := z } r := by
  cases op <;> simp only [BinaryOp.shape, reduceCtorEq, BinaryOp.Shape.arithmetic.injEq] at h <;>
    rw [← h] <;> rfl

theorem assigns_operate (op : BinaryOp) (x y : Int) : Assigns name q (operate op x y q) := by
  have hcompare : ∀ (opcode : Opcode) (expected : Bool) (x y : Int),
      Assigns name q (compare opcode expected x y q) := fun _ _ _ _ =>
    (upholding_emit _ _ _ _).before fun _ => upholding_jump.before fun _ =>
      (upholding_emit _ _ _ _).before fun _ => (upholding_aimHere _).before fun _ =>
        assigns_emit rfl
  unfold operate
  split
  · exact assigns_emit rfl
  · next hshape => exact assigns_emit (writes_arithmetic hshape _ _ _)
  · split <;> exact hcompare _ _ _ _

theorem upholding_copied (e : Expr) : Upholding (copied (expr e)) :=
  upholding_allocate.bind fun _ => (upholding_expr e _).bind fun _ => upholding_pure _

theorem upholding_operandFor (op : BinaryOp) (e : Expr) : Upholding (operandFor op (expr e)) := by
  unfold operandFor
  split
  · exact (upholding_copied e).bind fun _ => upholding_pure _
  · exact (upholding_expr e none).bind fun operand => upholding_toShort operand

theorem upholding_operate (op : BinaryOp) (x y : Int) (target : UInt8) :
    Upholding (operate op x y target) := by
  unfold operate
  split
  · exact upholding_emit _ _ _ _
  · exact upholding_emit _ _ _ _
  · split <;> exact upholding_compare _ _ _ _ _

/-- The result of a call for a local is moved to it, since a register with a name is not taken
for a temporary. -/
theorem assigns_call_move (callee : Expr) (args : List Expr) :
    Assigns name q (callInto (expr callee) (arguments args) q) := by
  intro b hb hname
  refine ⟨fun hrun => ?_⟩
  obtain ⟨fresh, b₁, hfresh, hrun⟩ := bind_eq_ok.mp hrun
  cases hfresh
  have hnamed : b.current.scopes.isNamed q = true := by
    rw [hb.current_tidy.plain.isNamed]
    exact hb.current_tidy.plain.isOwned hname
  simp only [hnamed, Bool.not_true, Bool.and_false, Bool.false_eq_true, ↓reduceIte] at hrun
  have hmove : Assigns name q (do
      let base ← allocate
      call base (expr callee (some base)) (arguments args) 1
      emit .move q.toNat base.toNat 0
      free (.register base)) :=
    upholding_allocate.before fun base => (upholding_call base callee args 1).before fun _ =>
      (assigns_emit (by rfl)).followed (upholding_emit _ _ _ _) fun _ => upholding_free _
  exact (hmove b hb hname).of_ok hrun

theorem assigns_closure (function : FunctionLiteral) (label : String) (line : UInt32) :
    Assigns name q (closure function label line q) := by
  intro b hb hname
  obtain ⟨params, body, endLine⟩ := function
  refine ⟨fun {_ b'} hrun => ?_⟩
  obtain ⟨_, inner, -, hnests, hclosed⟩ := functionInto_eq_ok (outlined.holds_statements body) hrun
  obtain ⟨outer, rest, hcaptures, -, hsplit⟩ :=
    List.forall₂_cons_left_iff.mp hnests.around.enclosing
  obtain ⟨index, _, hclose, hemit⟩ := bind_eq_ok.mp hclosed
  obtain ⟨child, -, rfl, rfl⟩ := closeFunction_eq hsplit hclose
  obtain ⟨-, rfl⟩ := (emit_ensures _ _ _ _ _).of_ok hemit
  -- the function around has only captured meanwhile, so its code is still as long
  have hrestored : b.current.Restores (fun _ => True) _ := hcaptures.restores child
  refine (writesFrom_placed (List.mem_singleton.mpr rfl) ?_).mono hrestored.pc_le
  rfl

theorem assigns_inPlace {compute : UInt8 → Lower Unit} {dest : Option UInt8}
    (h : ∀ target, (∀ register ∈ dest, target = register) → Assigns name q (compute target)) :
    Assigns name q (inPlace compute dest) := by
  refine (upholding_place dest).handing ?_ fun target htarget => (h target htarget).returned _
  refine fun b _ _ => ⟨fun hrun => ?_⟩
  rintro register hregister
  obtain rfl := Option.mem_def.mp hregister
  cases hrun
  rfl

theorem assigns_inPlace_own {compute : UInt8 → Lower Unit} (h : Assigns name q (compute q)) :
    Assigns name q (inPlace compute (some q)) := by
  refine assigns_inPlace fun target htarget => ?_
  obtain rfl := htarget q rfl
  exact h

theorem store_ne {other : String} {value : Expr} (isLogical : Bool) (hb : b.Reached)
    (hname : b.current.scopes.register? name = some q) (hother : other ≠ name)
    (hvalue : value.form ≠ .name name) :
    (store other isLogical (expr value)).Promises b fun stored _ => stored ≠ .register q := by
  refine ⟨fun hrun => ?_⟩
  rw [store_eq] at hrun
  obtain ⟨found, b₁, hresolve, hrun⟩ := bind_eq_ok.mp hrun
  have hupheld := ((upholding_resolve other).upholds b hb).of_ok hresolve
  have hb₁ := (upholding_resolve other).reached hb hresolve
  have hname₁ : b₁.current.scopes.register? name = some q := by rw [hupheld.scopes, hname]
  obtain ⟨hfound, -⟩ := (resolve_ensures other b).of_ok hresolve
  cases found with
  | register target =>
    have hstored : target ≠ q := by
      rintro rfl
      exact hother (hb.current_tidy.register?_inj hfound hname)
    -- either way the local that is assigned holds the value
    cases isLogical with
    | true =>
      obtain ⟨_, _, -, hrun⟩ := bind_eq_ok.mp hrun
      obtain ⟨_, _, -, hrun⟩ := bind_eq_ok.mp hrun
      obtain ⟨_, _, -, hrun⟩ := bind_eq_ok.mp hrun
      obtain ⟨_, _, -, hreturn⟩ := bind_eq_ok.mp hrun
      cases hreturn
      exact fun hsame => hstored (Operand.register.inj hsame)
    | false =>
      obtain ⟨_, _, -, hreturn⟩ := bind_eq_ok.mp hrun
      cases hreturn
      exact fun hsame => hstored (Operand.register.inj hsame)
  | upvalue index =>
    obtain ⟨operand, b₂, hlower, hrun⟩ := bind_eq_ok.mp hrun
    obtain ⟨stored, b₃, hregister, hrun⟩ := bind_eq_ok.mp hrun
    obtain ⟨_, _, -, hreturn⟩ := bind_eq_ok.mp hrun
    cases hreturn
    have hlies := (toRegister_liesIn hb₁ value).of_ok (bind_eq_ok.mpr ⟨_, _, hlower, hregister⟩)
    exact fun hsame => hlies.ne hb₁.current_tidy hname₁ hvalue (Operand.register.inj hsame)
  | global global =>
    obtain ⟨operand, b₂, hlower, hrun⟩ := bind_eq_ok.mp hrun
    obtain ⟨short, b₃, hshort, hrun⟩ := bind_eq_ok.mp hrun
    obtain ⟨_, _, -, hreturn⟩ := bind_eq_ok.mp hrun
    cases hreturn
    intro hsame
    obtain ⟨-, hlies⟩ := (toShort_liesIn hb₁ value).of_ok
      (bind_eq_ok.mpr ⟨_, _, hlower, hshort⟩) q hsame
    exact hlies.ne hb₁.current_tidy hname₁ hvalue rfl

theorem upholding_store (other : String) (isLogical : Bool) (value : Expr) :
    Upholding (store other isLogical (expr value)) :=
  upholding_of_leaves (stepwise_store (stepwise.holds_expr value) other isLogical) fun _ hb =>
    (store_obtains isLogical (List.mem_cons_self (a := other))
      (framed_expr value (List.subset_cons_self _ _)) (hb.permits _)).mono
      fun _ _ hstored => hstored.toLeaves

theorem assigns_into : (e : Expr) → e.form.isOwn name = false → e.form.isLogical = false →
    Assigns name q (expr e (some q))
  | ⟨.nil, _, _, _⟩, _, _ | ⟨.boolean _, _, _, _⟩, _, _ => by
    rw [expr]
    exact assigns_settle (by simp)
  | ⟨.integer _, _, _, _⟩, _, _ | ⟨.number _, _, _, _⟩, _, _ | ⟨.string _, _, _, _⟩, _, _ => by
    rw [expr]
    exact assigns_constant _
  | ⟨.name other, _, _, _⟩, hown, _ => by
    rw [expr]
    exact assigns_name (by simpa [ExprForm.isOwn] using hown)
  | ⟨.unary op operand, _, _, _⟩, _, _ => by
    rw [expr]
    refine assigns_inPlace_own ?_
    rw [unaryInto_eq]
    refine (upholding_expr operand none).before fun _ => (upholding_toRegister _).before fun _ =>
      (upholding_free _).before fun _ => assigns_emit ?_
    cases op <;> rfl
  | ⟨.binary op left right, _, _, _⟩, _, _ => by
    rw [expr]
    refine assigns_inPlace_own ?_
    rw [binaryInto_eq]
    exact (upholding_operandFor op left).before fun _ => (upholding_operandFor op right).before
      fun _ => (upholding_free _).before fun _ => (upholding_free _).before fun _ =>
        assigns_operate op _ _
  | ⟨.assign other value, _, _, _⟩, hown, _ => by
    rw [expr]
    refine assigns_inPlace_own ?_
    have helsewhere : other ≠ name ∧ value.form ≠ .name name := by
      obtain ⟨form, _, _, _⟩ := value
      cases form <;> simp_all [ExprForm.isOwn]
    refine (upholding_store other _ value).handing (fun b hb hname => ?_) fun stored hstored =>
      (assigns_load hstored).followed (upholding_load _ _) fun _ => upholding_free _
    exact store_ne _ hb hname helsewhere.1 helsewhere.2
  | ⟨.call callee args, _, _, _⟩, _, _ => by
    rw [expr]
    exact assigns_inPlace_own (assigns_call_move callee args)
  | ⟨.function function, _, _, _⟩, _, _ => by
    rw [expr]
    exact assigns_inPlace_own (assigns_closure _ _ _)
  | ⟨.tuple _, _, _, _⟩, _, _ | ⟨.object _, _, _, _⟩, _, _ => by
    rw [expr]
    exact fun _ _ _ => promises_throw

/-- The register of the local is written if the value is not its own. A short-circuit is moved
there from a register that was free. -/
theorem assigns_store_own {value : Expr} (hown : value.form.isOwn name = false) :
    Assigns name q (store name value.form.isLogical (expr value)) := by
  have hlocal : ∀ b : ChunkBuilder, b.Reached → b.current.scopes.register? name = some q →
      (resolve name).Promises b fun found _ => found = .register q := by
    intro b _ hname
    have hresolve : resolve name b = .ok (.register q) b := by simp [resolve, hname]
    exact promises_of_eq_ok hresolve rfl
  rw [store_eq]
  refine (upholding_resolve name).handing hlocal ?_
  rintro _ rfl
  cases hlogical : value.form.isLogical with
  | true =>
    have hform : value.form ≠ .name name := by
      intro hform
      simp [hform, ExprForm.isLogical] at hlogical
    have hmoved : Assigns name q (do
        let stored ← (do toRegister (← expr value none))
        load (.register stored) q
        free (.register stored)
        return Operand.register q) := by
      refine ((upholding_expr value none).bind fun _ => upholding_toRegister _).handing
        (fun b hb hname => (toRegister_liesIn hb value).mono fun stored _ hlies =>
          hlies.ne hb.current_tidy hname hform) fun stored hstored => ?_
      exact (assigns_load fun hsame => hstored (Operand.register.inj hsame)).followed
        (upholding_load _ _) fun _ => (upholding_free _).bind fun _ => upholding_pure _
    rwa [bind_assoc] at hmoved
  | false => exact (assigns_into value hown hlogical).returned _

theorem assigns_store_value (other : String) (isLogical : Bool) {value : Expr}
    (h : ∀ dest, Assigns name q (expr value dest)) :
    Assigns name q (store other isLogical (expr value)) := by
  rw [store_eq]
  refine (upholding_resolve other).before fun found => ?_
  cases found with
  | register target =>
    cases isLogical with
    | true =>
      exact (h none).followed (upholding_expr _ _) fun _ => (upholding_toRegister _).bind fun _ =>
        (upholding_load _ _).bind fun _ => (upholding_free _).bind fun _ => upholding_pure _
    | false => exact (h (some target)).returned _
  | upvalue index =>
    exact (h none).followed (upholding_expr _ _) fun _ => (upholding_toRegister _).bind fun _ =>
      (upholding_emit _ _ _ _).bind fun _ => upholding_pure _
  | global global =>
    exact (h none).followed (upholding_expr _ _) fun _ => (upholding_toShort _).bind fun short =>
      (upholding_storeGlobal _ short).bind fun _ => upholding_pure _

theorem assigns_copied (h : ∀ dest, Assigns name q (expr e dest)) :
    Assigns name q (copied (expr e)) :=
  upholding_allocate.before fun register => (h (some register)).returned _

theorem assigns_operandFor (op : BinaryOp) (h : ∀ dest, Assigns name q (expr e dest)) :
    Assigns name q (operandFor op (expr e)) := by
  unfold operandFor
  split
  · exact (assigns_copied h).returned _
  · exact (h none).followed (upholding_expr _ _) fun operand => upholding_toShort operand

theorem assigns_binaryInto (op : BinaryOp) {left right : Expr}
    (h : (∀ dest, Assigns name q (expr left dest)) ∨ ∀ dest, Assigns name q (expr right dest))
    (target : UInt8) : Assigns name q (binaryInto op (expr left) (expr right) target) := by
  have hrest : ∀ first second : Short, Upholding (do
      free second.holder
      free first.holder
      operate op first.field second.field target) := fun _ _ =>
    (upholding_free _).bind fun _ => (upholding_free _).bind fun _ => upholding_operate _ _ _ _
  rw [binaryInto_eq]
  rcases h with hleft | hright
  · exact (assigns_operandFor op hleft).followed (upholding_operandFor op left) fun first =>
      (upholding_operandFor op right).bind fun second => hrest first second
  · exact (upholding_operandFor op left).before fun first =>
      (assigns_operandFor op hright).followed (upholding_operandFor op right) (hrest first)

theorem assigns_logicalInto (op : LogicalOp) {left right : Expr}
    (h : (∀ dest, Assigns name q (expr left dest)) ∨ ∀ dest, Assigns name q (expr right dest))
    (target : UInt8) : Assigns name q (logicalInto op (expr left) (expr right) target) := by
  rcases h with hleft | hright
  · exact (hleft _).followed (upholding_expr left _) fun _ => (upholding_emit _ _ _ _).bind
      fun _ => upholding_jump.bind fun _ => (upholding_expr right _).bind fun _ =>
        upholding_aimHere _
  · exact (upholding_expr left _).before fun _ => (upholding_emit _ _ _ _).before fun _ =>
      upholding_jump.before fun _ => (hright _).followed (upholding_expr right _) fun _ =>
        upholding_aimHere _

theorem assigns_call (base : UInt8) {callee : Expr} {args : List Expr}
    (h : (∀ dest, Assigns name q (expr callee dest)) ∨ Assigns name q (arguments args))
    (results : Nat) :
    Assigns name q (call base (expr callee (some base)) (arguments args) results) := by
  rcases h with hcallee | hargs
  · exact (hcallee _).followed (upholding_expr callee _) fun _ => (upholding_arguments args).bind
      fun _ => (upholding_emit _ _ _ _).bind fun _ => upholding_freeAll _
  · exact (upholding_expr callee _).before fun _ => hargs.followed (upholding_arguments args)
      fun _ => (upholding_emit _ _ _ _).bind fun _ => upholding_freeAll _

theorem upholding_isFreshTop (target : UInt8) : Upholding (isFreshTop target) where
  stepwise := stepwise_get.bind fun _ => stepwise_pure _
  upholds b _ := by
    apply (isFreshTop_promises target b).mono
    rintro _ _ ⟨rfl, -⟩
    exact .refl b.current

theorem assigns_callInto {callee : Expr} {args : List Expr}
    (h : (∀ dest, Assigns name q (expr callee dest)) ∨ Assigns name q (arguments args))
    (target : UInt8) : Assigns name q (callInto (expr callee) (arguments args) target) := by
  refine (upholding_isFreshTop target).before fun fresh => ?_
  cases fresh with
  | true => exact assigns_call target h 1
  | false =>
    exact upholding_allocate.before fun base => (assigns_call base h 1).followed
      (upholding_call base callee args 1) fun _ => (upholding_emit _ _ _ _).bind fun _ =>
        upholding_free _

/-- The lowering of an expression writes the register of the local if it gives the local a
new value. The expression stays in sight, so that what is known of lowering already can be
used of its parts. -/
structure Recomputing (name : String) (q : UInt8) (e : Expr)
    (value : Option UInt8 → Lower Operand) : Prop where
  lowered : value = expr e
  assigns : name ∈ e.recomputed → ∀ dest, Assigns name q (value dest)

theorem recomputing_of_none {value : Option UInt8 → Lower Operand} (hlowered : value = expr e)
    (hnone : e.recomputed = []) : Recomputing name q e value :=
  ⟨hlowered, fun hmem => absurd hmem (hnone ▸ List.not_mem_nil)⟩

theorem recomputing : ExprRules (Recomputing name q)
    (fun args lowered => lowered = arguments args ∧
      (name ∈ Expr.listRecomputed args → Assigns name q lowered))
    (fun f lowered => lowered = closure f) where
  nil := recomputing_of_none rfl rfl
  boolean _ := recomputing_of_none rfl rfl
  integer _ := recomputing_of_none rfl rfl
  number _ := recomputing_of_none rfl rfl
  string _ := recomputing_of_none rfl rfl
  name _ := recomputing_of_none rfl rfl
  unary op hoperand := by
    obtain ⟨rfl, hassigns⟩ := hoperand
    refine ⟨rfl, fun hname dest => assigns_inPlace fun target _ => ?_⟩
    rw [Expr.recomputed, ExprForm.recomputed] at hname
    rw [unaryInto_eq]
    exact (hassigns hname none).followed (upholding_expr _ none) fun _ =>
      (upholding_toRegister _).bind fun _ => (upholding_free _).bind fun _ =>
        upholding_emit _ _ _ _
  binary op hleft hright := by
    obtain ⟨rfl, hfirst⟩ := hleft
    obtain ⟨rfl, hsecond⟩ := hright
    refine ⟨rfl, fun hname dest => assigns_inPlace fun target _ =>
      assigns_binaryInto op ?_ target⟩
    rw [Expr.recomputed, ExprForm.recomputed] at hname
    exact (List.mem_append.mp hname).imp hfirst hsecond
  logical op hleft hright := by
    obtain ⟨rfl, hfirst⟩ := hleft
    obtain ⟨rfl, hsecond⟩ := hright
    refine ⟨rfl, fun hname dest => assigns_inPlace fun target _ =>
      assigns_logicalInto op ?_ target⟩
    rw [Expr.recomputed, ExprForm.recomputed] at hname
    exact (List.mem_append.mp hname).imp hfirst hsecond
  assign other hstored := by
    obtain ⟨rfl, hassigns⟩ := hstored
    refine ⟨rfl, fun hname dest => assigns_inPlace fun target _ => ?_⟩
    rw [Expr.recomputed, ExprForm.recomputed] at hname
    refine Assigns.followed ?_ (upholding_store _ _ _) fun _ => (upholding_load _ _).bind
      fun _ => upholding_free _
    rcases List.mem_append.mp hname with hother | hvalue
    · split at hother
      · exact absurd hother List.not_mem_nil
      · next hown =>
        obtain rfl := List.mem_singleton.mp hother
        exact assigns_store_own (Bool.eq_false_iff.mpr hown)
    · exact assigns_store_value other _ (hassigns hvalue)
  call hcallee hargs := by
    obtain ⟨rfl, hfirst⟩ := hcallee
    obtain ⟨rfl, hrest⟩ := hargs
    refine ⟨rfl, fun hname dest => assigns_inPlace fun target _ => assigns_callInto ?_ target⟩
    rw [Expr.recomputed, ExprForm.recomputed] at hname
    exact (List.mem_append.mp hname).imp hfirst hrest
  function hclosure := by
    subst hclosure
    exact recomputing_of_none rfl rfl
  tuple _ := ⟨rfl, fun _ _ _ _ _ => promises_throw⟩
  object _ := ⟨rfl, fun _ _ _ _ _ => promises_throw⟩
  noArgs := ⟨rfl, fun hname => absurd hname List.not_mem_nil⟩
  moreArgs hactual hrest := by
    obtain ⟨rfl, hfirst⟩ := hactual
    obtain ⟨rfl, hothers⟩ := hrest
    refine ⟨rfl, fun hname => ?_⟩
    rw [Expr.listRecomputed] at hname
    change Assigns name q (arguments (_ :: _))
    rw [arguments_cons]
    rcases List.mem_append.mp hname with hmem | hmem
    · exact (assigns_copied (hfirst hmem)).followed (upholding_copied _) fun _ =>
        (upholding_arguments _).bind fun _ => upholding_pure _
    · exact (upholding_copied _).before fun _ => (hothers hmem).returned _

theorem assigns_expr (e : Expr) (hname : name ∈ e.recomputed) (dest : Option UInt8) :
    Assigns name q (expr e dest) :=
  (recomputing.holds_expr (fun _ => rfl) e).assigns hname dest

end Lower

end RegisterCode
