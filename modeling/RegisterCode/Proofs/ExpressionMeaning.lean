import RegisterCode.Proofs.LoweredPrograms
import RegisterCode.Proofs.OperandMeaning

/-! The code of an expression computes its value. Temporaries lie above the registers of
the locals, so an expression disturbs neither a variable nor a value that still waits for
its use. -/
namespace RegisterCode

open Action

namespace Lower
open ChunkBuilder

variable {Value Fault : Type} {M : Machine Value Fault} {registers registers' : Nat → Value}
  {v : Value} {b b' : ChunkBuilder} {weight lo lo' : Nat} {operand : Operand}

/-- An expression is lowered to code of the machine, from a state whose locals hold the
variables. A logical operator writes its target early, so that is not a variable's. -/
structure Lowered (M : Machine Value Fault) (e : Expr) (env : Environment Value)
    (dest : Option UInt8) (b b' : ChunkBuilder) (registers : Nat → Value) (operand : Operand) :
    Prop where
  ready : b.Ready
  room : b.current.Room (16 * e.nodes)
  run : expr e dest b = .ok operand b'
  covers : M.Covers b.current.pc [] b'.current
  view : b.current.scopes.view registers = env
  target : ∀ target, dest = some target → e.form.isLogical = true →
    b.current.scopes.count ≤ target.toNat

structure Computes (M : Machine Value Fault) (e : Expr) (env : Environment Value)
    (result : Except Fault Value) : Prop where
  gives : ∀ {dest : Option UInt8} {b b' : ChunkBuilder} {registers : Nat → Value}
    {operand : Operand}, Lowered M e env dest b b' registers operand →
    M.Gives ⟨b.current.pc, registers⟩ result (Delivered M dest b b' registers operand)

variable {env : Environment Value} {result : Except Fault Value} {span : Span}
  {type : StaticType} {symbol : Option UInt32}

theorem computes_constant {form : ExprForm} {c : Constant}
    (hform : ∀ dest, expr ⟨form, span, type, symbol⟩ dest = do settle (← constant c) dest) :
    Computes M ⟨form, span, type, symbol⟩ env (.ok (M.meaning.literal c)) := by
  refine ⟨fun {dest b b' registers operand} h => ?_⟩
  have hrun := h.run
  rw [hform] at hrun
  obtain ⟨value, b₁, hconstant, hsettle⟩ := bind_eq_ok.mp hrun
  have hready := ((constant_yields h.ready c).of_ok hconstant).ready h.ready
  have hconstants := (settle_appends hready hsettle).constants.trans h.covers.constants
  have hroom : b.current.Room 1 := h.room.weaken (by rw [Expr.nodes]; omega)
  have hdenotes : M.Denotes registers (M.meaning.literal c) value :=
    constant_denotes hroom hconstant hconstants
  obtain ⟨-, rfl⟩ := constant_eq hconstant
  have hgives := settle_gives hsettle h.covers (Nat.le_refl _) hdenotes
  exact hgives.mono fun _ _ hpost => ⟨hpost.pc, hpost.denotes, hpost.keeps⟩

theorem computes_immediate {form : ExprForm} {c : Constant} (value : Operand)
    (hform : ∀ dest, expr ⟨form, span, type, symbol⟩ dest = settle value dest)
    (hdenotes : ∀ registers, M.Denotes registers (M.meaning.literal c) value) :
    Computes M ⟨form, span, type, symbol⟩ env (.ok (M.meaning.literal c)) := by
  refine ⟨fun {dest b b' registers operand} h => ?_⟩
  have hrun := h.run
  rw [hform] at hrun
  exact settle_gives hrun h.covers (Nat.le_refl _) (hdenotes registers)

theorem computes_literal {form : ExprForm} {c : Constant} (hform : form.literal? = some c) :
    Computes M ⟨form, span, type, symbol⟩ env (.ok (M.meaning.literal c)) := by
  cases form with
  | nil =>
    injection hform with hc
    rw [← hc]
    exact computes_immediate .nil (fun dest => by rw [expr]) fun _ => rfl
  | boolean value =>
    injection hform with hc
    rw [← hc]
    exact computes_immediate (.boolean value) (fun dest => by rw [expr]) fun _ => rfl
  | integer value =>
    injection hform with hc
    rw [← hc]
    exact computes_constant fun dest => by rw [expr]
  | number value =>
    injection hform with hc
    rw [← hc]
    exact computes_constant fun dest => by rw [expr]
  | string value =>
    injection hform with hc
    rw [← hc]
    exact computes_constant fun dest => by rw [expr]
  | _ => simp [ExprForm.literal?] at hform

theorem computes_name {name : String} (hname : env.lookup name = some v) :
    Computes M ⟨.name name, span, type, symbol⟩ env (.ok v) := by
  refine ⟨fun {dest b b' registers operand} h => ?_⟩
  have hrun := h.run
  rw [expr] at hrun
  rw [← h.view, Scopes.lookup_view] at hname
  obtain ⟨register, hregister, hvalue⟩ := Option.map_eq_some_iff.mp hname
  have hresolve : resolve name b = .ok (.register register) b := by
    simp only [resolve, hregister]
  rw [bind_apply, hresolve] at hrun
  exact settle_gives hrun h.covers (Nat.le_refl _) hvalue

def Stored (target : UInt8) (b b' : ChunkBuilder) (registers : Nat → Value) (v : Value)
    (s : Machine.State Value) : Prop :=
  ∃ registers', s = ⟨b'.current.pc, Function.update registers' target.toNat v⟩ ∧
    ∀ r < b.current.nextFree, registers' r = registers r

theorem Stored.delivered {dest : Option UInt8} {target : UInt8} {b₁ : ChunkBuilder}
    {s : Machine.State Value}
    (htarget : dest = some target ∨ dest = none ∧ target.toNat = b.current.nextFree)
    (hnext : b.current.nextFree ≤ b₁.current.nextFree) (h : Stored target b₁ b' registers v s) :
    Delivered M dest b b' registers (.register target) v s := by
  obtain ⟨registers', rfl, hsame⟩ := h
  refine ⟨rfl, Function.update_self .., keeps_of_target htarget ?_⟩
  intro r hr hother
  exact (Function.update_of_ne hother ..).trans (hsame r (by omega))

/-- The machine is behind the code, with a value in a register and all that was in use kept. -/
structure Held (register : UInt8) (b b' : ChunkBuilder) (registers : Nat → Value) (v : Value)
    (s : Machine.State Value) : Prop where
  pc : s.pc = b'.current.pc
  value : s.registers register.toNat = v
  keeps : ∀ r < b.current.nextFree, s.registers r = registers r

section ToRegister

variable {e : Expr} {register : UInt8} {b₁ : ChunkBuilder} (hready : b.Ready)
  (hroom : b.current.Room (16 * e.nodes)) (hvalue : expr e none b = .ok operand b₁)
  (hregister : toRegister operand b₁ = .ok register b')
include hready hroom hvalue hregister

theorem toRegister_held : b.Yields (16 * e.nodes + 4) (.register register) b' :=
  (toRegister_yields hready ((lowerable e none b hready hroom).of_ok hvalue)).of_ok hregister

theorem toRegister_gives (he : Computes M e env result) (h : M.Covers lo [] b'.current)
    (hlo : lo ≤ b.current.pc) (hview : b.current.scopes.view registers = env) :
    M.Gives ⟨b.current.pc, registers⟩ result (Held register b b' registers) := by
  have hlowered : b.Yields _ operand b₁ := (lowerable e none b hready hroom).of_ok hvalue
  have hready₁ := hlowered.ready hready
  have hgrown := (toRegister_grows hready₁ operand).of_ok hregister
  have hpc₁ := hlowered.current.pc_ge
  apply (he.gives ⟨hready, hroom, hvalue, h.of_appends hgrown.appends hlo, hview, nofun⟩).onward
  rintro v ⟨pc, registers₁⟩ ⟨rfl, hdenotes, hkept⟩
  obtain ⟨registers₂, hreaches, hat, hkept₂⟩ :=
    toRegister_reaches hready₁ hregister h (Nat.le_trans hlo hpc₁) hdenotes
  refine ⟨_, hreaches, rfl, hat, ?_⟩
  intro r hr
  have hle := hlowered.holds.le
  exact (hkept₂ r (by omega)).trans (hkept r hr nofun)

end ToRegister

theorem computes_unary {op : UnaryOp} {e : Expr} (h : Computes M e env result) :
    Computes M ⟨.unary op e, span, type, symbol⟩ env (result >>= M.meaning.unary op) := by
  refine ⟨fun {dest b b' registers operand} l => ?_⟩
  have hrun := l.run
  have hroom := l.room
  rw [Expr.nodes, ExprForm.nodes] at hroom
  rw [expr] at hrun
  obtain ⟨target, b₁, hplace, hcompute, rfl⟩ := inPlace_eq_ok.mp hrun
  rw [unaryInto_eq] at hcompute
  obtain ⟨value, b₂, hvalue, hrun⟩ := bind_eq_ok.mp hcompute
  obtain ⟨register, b₃, hregister, hrun⟩ := bind_eq_ok.mp hrun
  obtain ⟨_, b₄, hfree, hemit⟩ := bind_eq_ok.mp hrun
  obtain ⟨hplaced, hnext, htarget⟩ := place_target l.ready hplace
  have hready := hplaced.ready l.ready
  have hroom₁ : b₁.current.Room (16 * e.nodes) := hroom.after hplaced.current (by omega)
  have hpc := hplaced.pc_eq
  have hpc₃ := (toRegister_held hready hroom₁ hvalue hregister).current.pc_ge
  have hcovers₃ := l.covers.of_appends ((free_appends hfree).trans (emit_appends hemit))
    (Nat.le_refl _)
  have hview : b₁.current.scopes.view registers = env := by
    rw [hplaced.scopes]
    exact l.view
  have hlo : b.current.pc ≤ b₃.current.pc := by omega
  rw [← hpc]
  apply (toRegister_gives hready hroom₁ hvalue hregister h hcovers₃ (Nat.le_of_eq hpc.symm)
    hview).bind
  rintro v ⟨pc, registers₃⟩ - ⟨rfl, hat, hkept⟩
  obtain ⟨next, rfl⟩ := free_eq hfree
  have hperform : ∀ s : Machine.State Value, M.perform
      (Instruction.kept { op := op.opcode, a := target.toNat, b := register.toNat, c := 0 }) s =
        some (s.deliver target.toNat (M.meaning.unary op (s.registers register.toNat))) := by
    intro s
    cases op <;> rfl
  rw [← hat]
  apply (emit_gives hemit l.covers hlo (hperform ⟨b₃.current.pc, registers₃⟩)).mono
  rintro v' _ rfl
  exact Stored.delivered htarget hnext ⟨registers₃, rfl, hkept⟩

theorem shortPair_gives {left right : Expr} {first second : Except Fault Value}
    {next : Value → Value → Except Fault Value} {fields : Int × Int}
    {post : Value → Machine.State Value → Prop} (hleft : Computes M left env first)
    (hright : ∀ x, first = .ok x → Computes M right env second) (hready : b.Ready)
    (hroom : b.current.Room (16 * (left.nodes + right.nodes) + 8))
    (hrun : shortPair (expr left none) (expr right none) b = .ok fields b')
    (h : M.Covers b.current.pc [] b'.current) (hview : b.current.scopes.view registers = env)
    (hnext : ∀ x y registers', M.operand? ⟨b'.current.pc, registers'⟩ fields.1 = some x →
      M.operand? ⟨b'.current.pc, registers'⟩ fields.2 = some y →
      (∀ r < b.current.nextFree, registers' r = registers r) →
      M.Gives ⟨b'.current.pc, registers'⟩ (next x y) post) :
    M.Gives ⟨b.current.pc, registers⟩ (first >>= fun x => second >>= next x) post := by
  rw [shortPair_eq] at hrun
  obtain ⟨value, b₁, hleftRun, hrun⟩ := bind_eq_ok.mp hrun
  obtain ⟨short, b₂, hshort, hrun⟩ := bind_eq_ok.mp hrun
  obtain ⟨value', b₃, hrightRun, hrun⟩ := bind_eq_ok.mp hrun
  obtain ⟨short', b₄, hshort', hrun⟩ := bind_eq_ok.mp hrun
  obtain ⟨_, b₅, hfree', hrun⟩ := bind_eq_ok.mp hrun
  obtain ⟨_, b₆, hfree, hreturn⟩ := bind_eq_ok.mp hrun
  obtain ⟨rfl, rfl⟩ := pure_eq_ok.mp hreturn
  -- the states between the steps
  have hroomLeft : b.current.Room (16 * left.nodes) := hroom.weaken (by omega)
  have hvalue : b.Yields _ value b₁ := (lowerable left none b hready hroomLeft).of_ok hleftRun
  have hready₁ := hvalue.ready hready
  have hheld := (toShort_yields hready hvalue).of_ok hshort
  have hready₂ := hheld.ready hready
  have hroomRight : b₂.current.Room (16 * right.nodes) := hroom.after hheld.current (by omega)
  have hvalue' : b₂.Yields _ value' b₃ :=
    (lowerable right none b₂ hready₂ hroomRight).of_ok hrightRun
  have hready₃ := hvalue'.ready hready₂
  have hgrown := (toShort_grows hready₁ value).of_ok hshort
  have hgrown' := (toShort_grows hready₃ value').of_ok hshort'
  have hcovers₄ := h.of_appends ((free_appends hfree').trans (free_appends hfree)) (Nat.le_refl _)
  have hcovers₃ := hcovers₄.of_appends hgrown'.appends (Nat.le_refl _)
  have hcovers₂ := hcovers₃.of_appends hvalue'.appends (Nat.le_refl _)
  have hcovers₁ := hcovers₂.of_appends hgrown.appends (Nat.le_refl _)
  have hpc₁ := hvalue.current.pc_ge
  have hpc₂ := hheld.current.pc_ge
  have hpc₃ := hvalue'.current.pc_ge
  have hcount := hready.sound.count_le
  have hnext₁ := hvalue.holds.le
  have hnext₂ := hheld.holds.le
  have hnext₃ := hvalue'.holds.le
  apply (hleft.gives ⟨hready, hroomLeft, hleftRun, hcovers₁, hview, nofun⟩).bind
  rintro x ⟨pc, registers₁⟩ hx ⟨rfl, hdenotes, hkept₁⟩
  obtain ⟨registers₂, hreaches, hdenotes₂, hkept₂⟩ :=
    toShort_reaches hready₁ hshort hcovers₂ hpc₁ hdenotes
  have hsame₂ : ∀ r < b.current.nextFree, registers₂ r = registers r := by
    intro r hr
    rw [hkept₂ r (by omega), hkept₁ r hr nofun]
  have hview₂ : b₂.current.scopes.view registers₂ = env := by
    rw [hheld.scopes, ← hview]
    exact hready.sound.view_eq fun r hr => hsame₂ r (by omega)
  apply hreaches.gives
  apply ((hright x hx).gives
    ⟨hready₂, hroomRight, hrightRun, hcovers₃.later hpc₂, hview₂, nofun⟩).bind
  rintro y ⟨pc, registers₃⟩ - ⟨rfl, hdenotes₃, hkept₃⟩
  obtain ⟨registers₄, hreaches', hdenotes₄, hkept₄⟩ :=
    toShort_reaches hready₃ hshort' hcovers₄ (by omega) hdenotes₃
  have hsame₄ : ∀ r < b₂.current.nextFree, registers₄ r = registers₂ r := by
    intro r hr
    rw [hkept₄ r (by omega), hkept₃ r hr nofun]
  have hdenotesLeft : M.Denotes registers₄ x short.holder :=
    hdenotes₂.congr (by rw [hheld.scopes]; exact hcount) hheld.holds hsame₄
  apply hreaches'.gives
  obtain ⟨_, rfl⟩ := free_eq hfree'
  obtain ⟨_, rfl⟩ := free_eq hfree
  apply hnext x y registers₄ (Machine.operand?_of_short? short.isShort hdenotesLeft)
    (Machine.operand?_of_short? short'.isShort hdenotes₄)
  intro r hr
  rw [hsame₄ r (by omega), hsame₂ r hr]

theorem perform_arithmetic {op : BinaryOp} {opcode : Opcode} (hop : op.shape = .arithmetic opcode)
    (a : Int) {field field' : Int} {s : Machine.State Value} {x y : Value}
    (hx : M.operand? s field = some x) (hy : M.operand? s field' = some y) :
    M.perform (Instruction.kept { op := opcode, a, b := field, c := field' }) s =
      some (s.deliver a (M.meaning.binary op x y)) := by
  cases op <;> cases hop <;>
  · change (M.operand? s field).bind _ = _
    rw [hx]
    change (M.operand? s field').bind _ = _
    rw [hy]
    rfl

theorem arithmetic_gives {op : BinaryOp} {opcode : Opcode} {left right : Expr}
    {first second : Except Fault Value} {target : UInt8} {fields : Int × Int} {b₁ : ChunkBuilder}
    (hop : op.shape = .arithmetic opcode) (hleft : Computes M left env first)
    (hright : ∀ x, first = .ok x → Computes M right env second) (hready : b.Ready)
    (hroom : b.current.Room (16 * (left.nodes + right.nodes) + 8))
    (hpair : shortPair (expr left none) (expr right none) b = .ok fields b₁)
    (hemit : emit opcode target.toNat fields.1 fields.2 b₁ = .ok () b')
    (h : M.Covers b.current.pc [] b'.current) (hview : b.current.scopes.view registers = env) :
    M.Gives ⟨b.current.pc, registers⟩ (first >>= fun x => second >>= M.meaning.binary op x)
      (Stored target b b' registers) := by
  have hpc := ((shortPair_balancing (lowerable left none) (lowerable right none) b hready
    (hroom.weaken (by omega))).of_ok hpair).current.pc_ge
  apply shortPair_gives hleft hright hready hroom hpair
    (h.of_appends (emit_appends hemit) (Nat.le_refl _)) hview
  intro x y registers' hx hy hsame
  apply (emit_gives hemit h hpc (perform_arithmetic hop target.toNat hx hy)).mono
  rintro v _ rfl
  exact ⟨registers', rfl, hsame⟩

def relation (I : Interpretation Value Fault) : Opcode → Value → Value → Except Fault Bool
  | .eq => I.eq
  | .lt => I.lt
  | _ => I.le

theorem compare_gives {op : Opcode} {expected : Bool} {x y : Int} {target : UInt8}
    {outcome : Except Fault Bool} (hroom : b.current.pc + 4 ≤ FunctionBuilder.capacity)
    (hrun : compare op expected x y target b = .ok () b') (h : M.Covers lo [] b'.current)
    (hlo : lo ≤ b.current.pc)
    (hperform : M.perform (Instruction.kept { op, a := expected.toNat, b := x, c := y })
      ⟨b.current.pc, registers⟩ =
        some (Machine.State.test ⟨b.current.pc, registers⟩ expected.toNat outcome)) :
    M.Gives ⟨b.current.pc, registers⟩
      (do return M.meaning.literal (.boolean ((← outcome) == expected))) fun v s =>
        s = ⟨b'.current.pc, Function.update registers target.toNat v⟩ := by
  obtain ⟨-, rfl⟩ := (compare_ensures op expected x y target hroom).of_ok hrun
  have hat : ∀ {k : Nat} {i : Instruction},
      (b.current.comparison op expected x y target)[k]? = some i →
      M.code[b.current.pc + k]? = some i.kept := fun hk => h.placed hk hlo (by simp)
  rw [FunctionBuilder.pc_placed]
  have htest : M.code[b.current.pc]? =
      some (Instruction.kept { op, a := expected.toNat, b := x, c := y }) :=
    hat (k := 0) (i := b.current.stamped { op, a := expected.toNat, b := x, c := y }) rfl
  cases outcome with
  | error fault => exact Machine.ends_of_perform htest hperform
  | ok truth =>
    have hstep := Machine.reaches_of_perform htest hperform
    change ∃ s, M.Reaches _ s ∧ s = (⟨b.current.pc + 4, Function.update registers target.toNat
      (M.meaning.literal (.boolean (truth == expected)))⟩ : Machine.State Value)
    by_cases htruth : truth = expected
    · have hsame : ((truth.toNat : Nat) : Int) = expected.toNat := by rw [htruth]
      rw [if_pos hsame] at hstep
      have hjump : M.JumpsTo (b.current.pc + 1) (b.current.pc + 3) :=
        ⟨_, hat (k := 1) rfl, rfl, show ((b.current.pc + 3 : Nat) : Int) = _ + 1 + 1 by omega⟩
      have hload := Machine.reaches_of_perform (M := M)
        (s := ⟨b.current.pc + 3, registers⟩) (hat (k := 3) rfl) rfl
      rw [htruth, beq_self_eq_true]
      exact ⟨_, (hstep.trans hjump.reaches).trans hload, rfl⟩
    · have hother : ((truth.toNat : Nat) : Int) ≠ expected.toNat := by
        cases truth <;> cases expected <;> simp_all
      rw [if_neg hother] at hstep
      have hload := Machine.reaches_of_perform (M := M)
        (s := ⟨b.current.pc + 2, registers⟩) (hat (k := 2) rfl) rfl
      rw [beq_false_of_ne htruth]
      exact ⟨_, hstep.trans hload, rfl⟩

theorem binary_eq_relation {op : BinaryOp} {opcode : Opcode} {expected swapped : Bool}
    (hop : op.shape = .comparison opcode expected swapped) (I : Interpretation Value Fault)
    (x y : Value) : I.binary op x y = (do
      let truth ← relation I opcode (if swapped then y else x) (if swapped then x else y)
      return I.literal (.boolean (truth == expected))) := by
  cases op <;> cases hop <;> simp [Interpretation.binary, relation]

theorem perform_relation {op : BinaryOp} {opcode : Opcode} {expected swapped : Bool}
    (hop : op.shape = .comparison opcode expected swapped) (a : Int) {field field' : Int}
    {s : Machine.State Value} {x y : Value} (hx : M.operand? s field = some x)
    (hy : M.operand? s field' = some y) :
    M.perform (Instruction.kept { op := opcode, a, b := field, c := field' }) s =
      some (s.test a (relation M.meaning opcode x y)) := by
  cases op <;> cases hop <;>
  · change (M.operand? s field).bind _ = _
    rw [hx]
    change (M.operand? s field').bind _ = _
    rw [hy]
    rfl

theorem comparison_gives {op : BinaryOp} {opcode : Opcode} {expected swapped : Bool}
    {left right : Expr} {first second : Except Fault Value} {target : UInt8}
    {fields : Int × Int} {b₁ : ChunkBuilder}
    (hop : op.shape = .comparison opcode expected swapped) (hleft : Computes M left env first)
    (hright : ∀ x, first = .ok x → Computes M right env second) (hready : b.Ready)
    (hroom : b.current.Room (16 * (left.nodes + right.nodes) + 12))
    (hpair : shortPair (expr left none) (expr right none) b = .ok fields b₁)
    (hcompare : (if swapped then compare opcode expected fields.2 fields.1 target
      else compare opcode expected fields.1 fields.2 target) b₁ = .ok () b')
    (h : M.Covers b.current.pc [] b'.current) (hview : b.current.scopes.view registers = env) :
    M.Gives ⟨b.current.pc, registers⟩ (first >>= fun x => second >>= M.meaning.binary op x)
      (Stored target b b' registers) := by
  have hbalanced := (shortPair_balancing (lowerable left none) (lowerable right none) b hready
    (hroom.weaken (by omega))).of_ok hpair
  have hpc := hbalanced.current.pc_ge
  have hroom₁ : b₁.current.Room 4 := hroom.after hbalanced.current (by omega)
  have hrun : compare opcode expected (if swapped then fields.2 else fields.1)
      (if swapped then fields.1 else fields.2) target b₁ = .ok () b' := by
    cases swapped <;> exact hcompare
  have happends := ((compare_balancing (isTest_of_comparison hop) expected _ _ target b₁
    (hbalanced.ready hready) hroom₁).of_ok hrun).appends
  apply shortPair_gives hleft hright hready (hroom.weaken (by omega)) hpair
    (h.of_appends happends (Nat.le_refl _)) hview
  intro x y registers' hx hy hsame
  rw [binary_eq_relation hop]
  have hx' : M.operand? ⟨b₁.current.pc, registers'⟩ (if swapped then fields.2 else fields.1) =
      some (if swapped then y else x) := by
    cases swapped
    · exact hx
    · exact hy
  have hy' : M.operand? ⟨b₁.current.pc, registers'⟩ (if swapped then fields.1 else fields.2) =
      some (if swapped then x else y) := by
    cases swapped
    · exact hy
    · exact hx
  have hcompared := compare_gives hroom₁.1 hrun h hpc (perform_relation hop expected.toNat hx' hy')
  apply hcompared.mono
  rintro v _ rfl
  exact ⟨registers', rfl, hsame⟩

theorem target_gives {e : Expr} {target : UInt8} (he : Computes M e env result)
    (hready : b.Ready) (hroom : b.current.Room (16 * e.nodes))
    (hrun : expr e (some target) b = .ok operand b') (h : M.Covers lo [] b'.current)
    (hlo : lo ≤ b.current.pc) (hview : b.current.scopes.view registers = env)
    (habove : e.form.isLogical = true → b.current.scopes.count ≤ target.toNat) :
    M.Gives ⟨b.current.pc, registers⟩ result fun v s => s.pc = b'.current.pc ∧
      s.registers target.toNat = v ∧
      ∀ r < b.current.nextFree, r ≠ target.toNat → s.registers r = registers r := by
  obtain ⟨rfl, -⟩ := (lowerable e (some target) b hready hroom).of_ok hrun
  have htarget : ∀ t, some target = some t → e.form.isLogical = true →
      b.current.scopes.count ≤ t.toNat := by
    intro t ht
    rw [← Option.some.inj ht]
    exact habove
  apply (he.gives ⟨hready, hroom, hrun, h.later hlo, hview, htarget⟩).mono
  intro v s hs
  refine ⟨hs.pc, hs.denotes, ?_⟩
  intro r hr hother
  apply hs.keeps r hr
  intro t ht
  rwa [← Option.some.inj ht]

theorem fresh_gives {e : Expr} {target : UInt8} {b₁ : ChunkBuilder} (he : Computes M e env result)
    (hready : b.Ready) (hroom : b.current.Room (16 * e.nodes))
    (hallocate : allocate b = .ok target b₁) (hrun : expr e (some target) b₁ = .ok operand b')
    (h : M.Covers lo [] b'.current) (hlo : lo ≤ b.current.pc)
    (hview : b.current.scopes.view registers = env) :
    M.Gives ⟨b.current.pc, registers⟩ result (Held target b b' registers) := by
  obtain ⟨htaken, htarget, hnext⟩ := (allocate_ensures hready).of_ok hallocate
  have hcount := hready.sound.count_le
  have hpc := htaken.pc_eq
  rw [← hpc]
  rw [← htaken.scopes] at hview hcount
  apply (target_gives he (htaken.ready hready) (hroom.after htaken.current (by omega)) hrun h
    (by omega) hview fun _ => by omega).mono
  rintro v s ⟨hs, hvalue, hkept⟩
  exact ⟨hs, hvalue, fun r hr => hkept r (by omega) (by omega)⟩

theorem concat_gives {left right : Expr} {first second : Except Fault Value}
    {target : UInt8} (hleft : Computes M left env first)
    (hright : ∀ x, first = .ok x → Computes M right env second) (hready : b.Ready)
    (hroom : b.current.Room (16 * (left.nodes + right.nodes)))
    (hrun : binaryInto .concat (expr left) (expr right) target b = .ok () b')
    (h : M.Covers b.current.pc [] b'.current) (hview : b.current.scopes.view registers = env) :
    M.Gives ⟨b.current.pc, registers⟩ (first >>= fun x => second >>= M.meaning.binary .concat x)
      (Stored target b b' registers) := by
  obtain ⟨one, b₁, hallocate, hrun⟩ := bind_eq_ok.mp hrun
  obtain ⟨_, b₂, hleftRun, hrun⟩ := bind_eq_ok.mp hrun
  obtain ⟨two, b₃, hallocate', hrun⟩ := bind_eq_ok.mp hrun
  obtain ⟨_, b₄, hrightRun, hrun⟩ := bind_eq_ok.mp hrun
  obtain ⟨_, b₅, hfree', hrun⟩ := bind_eq_ok.mp hrun
  obtain ⟨_, b₆, hfree, hemit⟩ := bind_eq_ok.mp hrun
  obtain ⟨htaken, hone, hnext⟩ := (allocate_ensures hready).of_ok hallocate
  have hready₁ := htaken.ready hready
  have hroom₁ : b₁.current.Room (16 * (left.nodes + right.nodes)) :=
    hroom.after htaken.current (by omega)
  obtain ⟨-, hlowered⟩ :=
    (lowerable left (some one) b₁ hready₁ (hroom₁.weaken (by omega))).of_ok hleftRun
  have hready₂ := hlowered.ready hready₁
  have hroom₂ : b₂.current.Room (16 * right.nodes) := hroom₁.after hlowered.current (by omega)
  obtain ⟨htaken', htwo, hnext'⟩ := (allocate_ensures hready₂).of_ok hallocate'
  have hready₃ := htaken'.ready hready₂
  obtain ⟨-, hlowered'⟩ := (lowerable right (some two) b₃ hready₃
    (hroom₂.after htaken'.current (by omega))).of_ok hrightRun
  have hpc := htaken.pc_eq
  have hpc₂ := hlowered.current.pc_ge
  have hpc₃ := htaken'.pc_eq
  have hpc₄ := hlowered'.current.pc_ge
  have hnext₂ := hlowered.nextFree
  have hcount := hready.sound.count_le
  have hcovers₄ := h.of_appends (((free_appends hfree').trans (free_appends hfree)).trans
    (emit_appends hemit)) (Nat.le_refl _)
  have hcovers₂ := hcovers₄.of_appends (htaken'.appends.trans hlowered'.appends) (Nat.le_refl _)
  apply (fresh_gives hleft hready (hroom.weaken (by omega)) hallocate hleftRun hcovers₂
    (Nat.le_refl _) hview).bind
  rintro x ⟨pc, registers₂⟩ hx ⟨rfl, hvalue, hkept⟩
  have hview₂ : b₂.current.scopes.view registers₂ = env := by
    rw [hlowered.scopes, htaken.scopes, ← hview]
    exact hready.sound.view_eq fun r hr => hkept r (by omega)
  apply (fresh_gives (hright x hx) hready₂ hroom₂ hallocate' hrightRun hcovers₄ (by omega)
    hview₂).bind
  rintro y ⟨pc, registers₄⟩ - ⟨rfl, hvalue', hkept'⟩
  have hperform : M.perform
      (Instruction.kept { op := .concat, a := target.toNat, b := one.toNat, c := two.toNat })
      ⟨b₄.current.pc, registers₄⟩ = some (Machine.State.deliver ⟨b₄.current.pc, registers₄⟩
        target.toNat (M.meaning.binary .concat x y)) := by
    have hrow : Machine.State.row ⟨b₄.current.pc, registers₄⟩ (one.toNat + 1)
        (two.toNat - one.toNat) = [y] := by
      have hcount : ((two.toNat : Int) - one.toNat).toNat = 1 := by omega
      have hfirst : ((one.toNat : Int) + 1).toNat = two.toNat := by omega
      rw [Machine.State.row, hcount, hfirst, ← hvalue']
      rfl
    have hone : registers₄ one.toNat = x := (hkept' _ (by omega)).trans hvalue
    change some (Machine.State.deliver _ _ (M.concat (registers₄ one.toNat) _)) = _
    rw [hone]
    exact congrArg (fun rest => some (Machine.State.deliver _ _ (M.concat x rest))) hrow
  obtain ⟨_, rfl⟩ := free_eq hfree'
  obtain ⟨_, rfl⟩ := free_eq hfree
  have hlo : b.current.pc ≤ b₄.current.pc := by omega
  apply (emit_gives hemit h hlo hperform).mono
  rintro v _ rfl
  refine ⟨registers₄, rfl, ?_⟩
  intro r hr
  exact (hkept' r (by omega)).trans (hkept r hr)

theorem computes_binary {op : BinaryOp} {left right : Expr} {first : Except Fault Value}
    (second : Except Fault Value) (hleft : Computes M left env first)
    (hright : ∀ x, first = .ok x → Computes M right env second) :
    Computes M ⟨.binary op left right, span, type, symbol⟩ env
      (first >>= fun x => second >>= M.meaning.binary op x) := by
  refine ⟨fun {dest b b' registers operand} l => ?_⟩
  have hrun := l.run
  have hroom := l.room
  rw [Expr.nodes, ExprForm.nodes] at hroom
  rw [expr] at hrun
  obtain ⟨target, b₁, hplace, hcompute, rfl⟩ := inPlace_eq_ok.mp hrun
  obtain ⟨hplaced, hnext, htarget⟩ := place_target l.ready hplace
  have hready := hplaced.ready l.ready
  have hroom₁ : b₁.current.Room (16 * (left.nodes + right.nodes + 1)) :=
    hroom.after hplaced.current (by omega)
  have hview : b₁.current.scopes.view registers = env := by
    rw [hplaced.scopes]
    exact l.view
  have hcovers := l.covers.later (Nat.le_of_eq hplaced.pc_eq.symm)
  have hdelivered : ∀ v s, Stored target b₁ b' registers v s →
      Delivered M dest b b' registers (.register target) v s :=
    fun _ _ => Stored.delivered htarget hnext
  rw [← hplaced.pc_eq]
  cases hshape : op.shape with
  | arithmetic opcode =>
    simp only [binaryInto, hshape] at hcompute
    obtain ⟨fields, b₂, hpair, hemit⟩ := bind_eq_ok.mp hcompute
    exact (arithmetic_gives hshape hleft hright hready (hroom₁.weaken (by omega)) hpair hemit
      hcovers hview).mono hdelivered
  | comparison opcode expected swapped =>
    simp only [binaryInto, hshape] at hcompute
    obtain ⟨fields, b₂, hpair, hcompare⟩ := bind_eq_ok.mp hcompute
    exact (comparison_gives hshape hleft hright hready (hroom₁.weaken (by omega)) hpair hcompare
      hcovers hview).mono hdelivered
  | concatenation =>
    obtain rfl : op = .concat := by cases op <;> simp [BinaryOp.shape] at hshape ⊢
    exact (concat_gives hleft hright hready (hroom₁.weaken (by omega)) hcompute hcovers
      hview).mono hdelivered

theorem test_jump_covered {register : UInt8} {expected : Int} {done : Nat} {b₁ : ChunkBuilder}
    (htest : emit .test register.toNat 0 expected b = .ok () b₁)
    (hjump : jump b₁ = .ok done b') :
    done = b.current.pc + 1 ∧ b'.current.pc = b.current.pc + 2 ∧
      b.current.Appends b'.current ∧
      b'.current.listing[b.current.pc]? = some (b.current.stamped
        { op := .test, a := register.toNat, b := 0, c := expected }) ∧
      b'.current.listing[done]? = some (b.current.stamped { op := .jmp }) := by
  obtain ⟨-, rfl⟩ := (emit_ensures _ _ _ _ b).of_ok htest
  obtain ⟨rfl, -, rfl⟩ := (jump_ensures _).of_ok hjump
  simp only [FunctionBuilder.placed_placed, FunctionBuilder.stamped_placed,
    FunctionBuilder.pc_placed, List.length_singleton, List.cons_append, List.nil_append]
  refine ⟨trivial, rfl, FunctionBuilder.appends_placed _ _, ?_, ?_⟩
  · rw [FunctionBuilder.listing_placed, List.getElem?_append_right (by simp),
      FunctionBuilder.length_listing, Nat.sub_self]
    rfl
  · rw [FunctionBuilder.listing_placed, List.getElem?_append_right (by simp),
      FunctionBuilder.length_listing, Nat.add_sub_cancel_left]
    rfl

theorem test_jump_reaches {register : UInt8} {expected : Int} {done : Nat} {b₁ : ChunkBuilder}
    (htest : emit .test register.toNat 0 expected b = .ok () b₁)
    (hjump : jump b₁ = .ok done b') (hcovers : M.Covers lo [done] b'.current)
    (hlo : lo ≤ b.current.pc) (registers : Nat → Value) :
    M.Reaches ⟨b.current.pc, registers⟩
      ⟨if ((M.meaning.truthy (registers register.toNat)).toNat : Int) = expected then done
        else b'.current.pc, registers⟩ := by
  obtain ⟨hdone, hpc, -, hat, -⟩ := test_jump_covered htest hjump
  have hcode := hcovers.code _ _ hlo (by simp; omega) hat
  have hstep : M.Reaches ⟨b.current.pc, registers⟩ ⟨b.current.pc +
      (if ((M.meaning.truthy (registers register.toNat)).toNat : Int) = expected then 1 else 2),
      registers⟩ := Machine.reaches_of_perform hcode rfl
  rw [hdone, hpc]
  by_cases htruth : ((M.meaning.truthy (registers register.toNat)).toNat : Int) = expected
  · rw [if_pos htruth] at hstep ⊢
    exact hstep
  · rw [if_neg htruth] at hstep ⊢
    exact hstep

theorem decision_reaches {register : UInt8} {expected : Int} {done : Nat}
    {b₁ b₂ b₃ : ChunkBuilder} (htest : emit .test register.toNat 0 expected b = .ok () b₁)
    (hjump : jump b₁ = .ok done b₂) (happends : b₂.current.Appends b₃.current)
    (haim : aimHere done b₃ = .ok () b') (hcapacity : b₃.current.pc ≤ FunctionBuilder.capacity)
    (hcovers : M.Covers lo [] b'.current) (hlo : lo ≤ b.current.pc) :
    M.Covers lo [] b.current ∧ M.Covers b₂.current.pc [] b₃.current ∧
      b'.current.pc = b₃.current.pc ∧
      ∀ registers, M.Reaches ⟨b.current.pc, registers⟩
        ⟨if ((M.meaning.truthy (registers register.toNat)).toNat : Int) = expected
          then b'.current.pc else b₂.current.pc, registers⟩ := by
  obtain ⟨hdone, hpc, htested, -, hat⟩ := test_jump_covered htest hjump
  obtain ⟨code, hcode⟩ := happends.listing
  have hpc₃ : b₂.current.pc ≤ b₃.current.pc := by
    simpa using happends.listing.length_le
  have hat₃ : b₃.current.listing[done]? = some (b.current.stamped { op := .jmp }) := by
    rw [← hcode, List.getElem?_append_left (List.getElem?_eq_some_iff.mp hat).1, hat]
  obtain ⟨-, rfl⟩ := (aimHere_ensures hat₃ rfl).of_ok haim
  have hcovers₃ := hcovers.of_replaced
  have hcovers₂ : M.Covers lo [done] b₂.current :=
    hcovers₃.before (Nat.le_refl _) happends.listing happends.constants (by simp)
  have hjumps := hcovers.jumpsTo (by omega) (by omega) (by simp) rfl hcapacity
  refine ⟨hcovers₂.before (Nat.le_refl _) htested.listing htested.constants (by simp; omega),
    hcovers₃.before (by omega) List.prefix_rfl List.prefix_rfl (by simp; omega),
    FunctionBuilder.pc_replaced .., fun registers => ?_⟩
  have hstep := test_jump_reaches htest hjump hcovers₂ hlo registers
  rw [FunctionBuilder.pc_replaced]
  by_cases htruth : ((M.meaning.truthy (registers register.toNat)).toNat : Int) = expected
  · rw [if_pos htruth] at hstep ⊢
    exact hstep.trans hjumps.reaches
  · rw [if_neg htruth] at hstep ⊢
    exact hstep

theorem isDecided_iff (op : LogicalOp) (truth : Bool) :
    op.isDecided truth = true ↔ (truth.toNat : Int) = if op = .and then 0 else 1 := by
  cases op <;> cases truth <;> decide

theorem computes_logical {op : LogicalOp} {left right : Expr} {first : Except Fault Value}
    (hleft : Computes M left env first)
    (hraised : ∀ fault, first = .error fault → result = .error fault)
    (hdecided : ∀ x, first = .ok x → op.isDecided (M.meaning.truthy x) = true → result = .ok x)
    (hright : ∀ x, first = .ok x → op.isDecided (M.meaning.truthy x) = false →
      Computes M right env result) :
    Computes M ⟨.logical op left right, span, type, symbol⟩ env result := by
  refine ⟨fun {dest b b' registers operand} l => ?_⟩
  have hrun := l.run
  have hroom := l.room
  rw [Expr.nodes, ExprForm.nodes] at hroom
  rw [expr] at hrun
  obtain ⟨target, b₁, hplace, hcompute, rfl⟩ := inPlace_eq_ok.mp hrun
  obtain ⟨_, b₂, hleftRun, hrun⟩ := bind_eq_ok.mp hcompute
  obtain ⟨_, b₃, htest, hrun⟩ := bind_eq_ok.mp hrun
  obtain ⟨done, b₄, hjump, hrun⟩ := bind_eq_ok.mp hrun
  obtain ⟨_, b₅, hrightRun, haim⟩ := bind_eq_ok.mp hrun
  obtain ⟨hplaced, hnext, htarget⟩ := place_target l.ready hplace
  have hready := hplaced.ready l.ready
  have hroom₁ : b₁.current.Room (16 * (left.nodes + right.nodes + 1)) :=
    hroom.after hplaced.current (by omega)
  have hroomLeft : b₁.current.Room (16 * left.nodes) := hroom₁.weaken (by omega)
  obtain ⟨rfl, hlowered⟩ := (lowerable left (some target) b₁ hready hroomLeft).of_ok hleftRun
  have hready₂ := hlowered.ready hready
  have hwaits := (test_jump_awaits hready₂ target _).of_ok (bind_eq_ok.mpr ⟨_, _, htest, hjump⟩)
  have hready₄ := hwaits.ready hready₂
  have hwaiting := hlowered.awaits hwaits
  have hroomRight : b₄.current.Room (16 * right.nodes) := hroom₁.after hwaiting.current (by omega)
  obtain ⟨rfl, hlowered'⟩ := (lowerable right (some target) b₄ hready₄ hroomRight).of_ok hrightRun
  have hroom₅ : b₅.current.Room 0 :=
    hroom₁.after (hwaiting.balanced hlowered').current (by omega)
  have hpc := hplaced.pc_eq
  have hpc₂ := hlowered.current.pc_ge
  obtain ⟨hcovers₂, hcoversRight, hpc', hdecision⟩ := decision_reaches htest hjump
    hlowered'.appends haim hroom₅.1 (l.covers.later (by omega)) hpc₂
  -- the target is no variable's register, so the left value harms none
  have hcountNext := l.ready.sound.count_le
  have hcount : b.current.scopes.count ≤ target.toNat := by
    rcases htarget with hdest | ⟨-, habove⟩
    · exact l.target target hdest rfl
    · rw [habove]
      exact hcountNext
  have hscopes₄ : b₄.current.scopes = b.current.scopes :=
    hwaits.scopes.trans (hlowered.scopes.trans hplaced.scopes)
  have hnext₄ : b₄.current.nextFree = b₁.current.nextFree :=
    hwaits.nextFree.trans hlowered.nextFree
  have hview : b₁.current.scopes.view registers = env := by
    rw [hplaced.scopes]
    exact l.view
  have hfirst := target_gives hleft hready hroomLeft hleftRun hcovers₂ (Nat.le_refl _) hview
    fun _ => by rwa [hplaced.scopes]
  rw [← hpc]
  cases first with
  | error fault =>
    rw [hraised fault rfl]
    exact hfirst
  | ok x =>
  obtain ⟨⟨pc, registers₂⟩, hreaches, rfl, hvalue, hkept⟩ := hfirst
  apply hreaches.gives
  have hsame : ∀ r < b.current.nextFree, r ≠ target.toNat → registers₂ r = registers r :=
    fun r hr => hkept r (by omega)
  have hstep := hdecision registers₂
  have hvalue' : registers₂ target.toNat = x := hvalue
  simp only [hvalue', ← isDecided_iff] at hstep
  cases htruth : op.isDecided (M.meaning.truthy x) with
  | true =>
    rw [htruth, if_pos rfl] at hstep
    rw [hdecided x rfl htruth]
    exact ⟨_, hstep, rfl, hvalue, keeps_of_target htarget hsame⟩
  | false =>
    rw [htruth, if_neg Bool.false_ne_true] at hstep
    have hview₄ : b₄.current.scopes.view registers₂ = env := by
      rw [hscopes₄, ← l.view]
      exact l.ready.sound.view_eq fun r hr => hsame r (by omega) (by omega)
    apply hstep.gives
    apply (target_gives (hright x rfl htruth) hready₄ hroomRight hrightRun hcoversRight
      (Nat.le_refl _) hview₄ fun _ => by rwa [hscopes₄]).mono
    rintro y s ⟨hs, hy, hkept'⟩
    refine ⟨hs.trans hpc'.symm, hy, keeps_of_target htarget ?_⟩
    intro r hr hother
    exact (hkept' r (by omega) hother).trans (hsame r hr hother)

theorem computes_of_evaluates {e : Expr} (h : Evaluates M.meaning env e result) :
    Computes M e env result := by
  induction h with
  | literal hform => exact computes_literal hform
  | name hname => exact computes_name hname
  | unary _ ih => exact computes_unary ih
  | binary _ _ ihLeft ihRight => exact computes_binary _ ihLeft fun _ _ => ihRight
  -- no value of the right side comes into it
  | binaryRaised _ ih => exact computes_binary result ih nofun
  | decided _ hdecided ih =>
    refine computes_logical ih nofun (fun _ hx _ => hx) ?_
    rintro _ ⟨⟩ hundecided
    simp [hdecided] at hundecided
  | undecided _ hundecided _ ihLeft ihRight =>
    refine computes_logical ihLeft nofun ?_ fun _ _ _ => ihRight
    rintro _ ⟨⟩ hdecided
    simp [hundecided] at hdecided
  | logicalRaised _ ih => exact computes_logical ih (fun _ hfault => hfault) nofun nofun

end Lower

end RegisterCode
