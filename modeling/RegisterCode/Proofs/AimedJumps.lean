import RegisterCode.Proofs.ClosedLoops
import RegisterCode.Proofs.ControlMeaning
import RegisterCode.Proofs.LoweringEntries

/-! The targets of jumps. A construct that places jumps has aimed them when it is lowered,
each at the instruction that the construct means it to go to. -/
namespace RegisterCode

open Action

namespace FunctionBuilder

variable {f f' : FunctionBuilder} {goes : Nat → Nat → Prop} {p target : Nat}

theorem JumpsTo.longer (h : f.JumpsTo p target) (hbegins : f.listing <+: f'.listing) :
    f'.JumpsTo p target := by
  obtain ⟨jump, hat, hjump⟩ := h
  obtain ⟨code, hcode⟩ := hbegins
  refine ⟨jump, ?_, hjump⟩
  rw [← hcode, List.getElem?_append_left (List.getElem?_eq_some_iff.mp hat).1, hat]

theorem JumpsTo.replaced {q : Nat} {i : Instruction} (h : f.JumpsTo p target) (hother : q ≠ p) :
    (f.replaced q i).JumpsTo p target := by
  obtain ⟨jump, hat, hjump⟩ := h
  exact ⟨jump, by rw [listing_replaced, List.getElem?_set_ne hother, hat], hjump⟩

theorem JumpsTo.aims (h : f.JumpsTo p target) (haims : Aims goes f f')
    (hfree : ∀ goal, ¬ goes p goal) : f'.JumpsTo p target := by
  obtain ⟨jump, hat, hjump⟩ := h
  rcases haims.code p with hkept | ⟨_, goal, hgoes, -⟩
  · exact ⟨jump, hkept.trans hat, hjump⟩
  · exact absurd hgoes (hfree goal)

theorem jumpsTo_replaced {jump : Instruction} (hop : jump.op = .jmp) (hp : p < f.pc)
    (hcapacity : f.pc ≤ capacity) : (f.replaced p (aimed jump p f.pc)).JumpsTo p f.pc := by
  refine ⟨aimed jump p f.pc, ?_, hop, ?_⟩
  · rw [listing_replaced, List.getElem?_set_self (by simpa using hp)]
  · simp only [aimed, displacement_eq (Nat.lt_of_lt_of_le hp hcapacity) hcapacity]
    omega

theorem jumpsTo_jumpBack (hcapacity : f.pc < capacity) (htarget : target ≤ f.pc) :
    (f.placed [f.jumpBack target]).JumpsTo f.pc target := by
  refine ⟨f.jumpBack target, ?_, rfl, (jumpBack_target hcapacity htarget).symm⟩
  rw [listing_placed, List.getElem?_append_right (by simp)]
  simp

theorem jumpsTo_comparison (op : Opcode) (expected : Bool) (x y : Int) (register : UInt8) :
    (f.placed (f.comparison op expected x y register)).JumpsTo (f.pc + 1) (f.pc + 3) := by
  refine ⟨f.stamped { op := .jmp, b := 1 }, ?_, rfl, ?_⟩
  · rw [listing_placed, List.getElem?_append_right (by simp), length_listing,
      Nat.add_sub_cancel_left]
    rfl
  · simp only [stamped]
    omega

end FunctionBuilder

namespace Lower
open ChunkBuilder FunctionBuilder

namespace Construct

/-- Lower a construct, and tell the registers that it hands over. -/
def lower : Construct → Lower (List UInt8)
  | .expr e none => do return (← Lower.expr e none).register?.toList
  | .expr e (some target) => do
    let _ ← Lower.expr e (some target)
    return []
  | .arguments args => Lower.arguments args
  | .closure f name line target => do
    Lower.closure f name line target
    return []
  | .statement stmt => do
    Lower.statement stmt
    return []
  | .form span shape => do
    statementForm span shape
    return []
  | .statements body => do
    Lower.statements body
    return []

/-- A jump that a construct places between two states, and where it is to go. -/
inductive Sends : Construct → ChunkBuilder → ChunkBuilder → Nat → Nat → Prop
  /-- Past the load of false, the last but one of the instructions. -/
  | comparison {op left right span type symbol dest opcode expected swapped index b b'} :
    op.shape = .comparison opcode expected swapped → index + 3 = b'.current.pc →
    Sends (.expr ⟨.binary op left right, span, type, symbol⟩ dest) b b' index (index + 2)
  /-- Past the right operand. -/
  | shortCircuit {op : LogicalOp} {left right span type symbol dest b middle b'} :
    (do
      let target ← place dest
      let _ ← Lower.expr left (some target)
      emit .test target.toNat 0 (if op = LogicalOp.and then 0 else 1)) b = .ok () middle →
    Sends (.expr ⟨.logical op left right, span, type, symbol⟩ dest) b b' middle.current.pc
      b'.current.pc
  | pastBody {span condition body skip b middle b'} :
    condition.form ≠ .boolean false →
    jumpUnless (Lower.expr condition none) b = .ok skip middle →
    Sends (.form span (.branch condition body none)) b b' skip b'.current.pc
  /-- Behind the jump that ends the body. -/
  | toElse {span condition body otherwise skip b middle b'} :
    condition.form ≠ .boolean false →
    (do
      let skip ← jumpUnless (Lower.expr condition none)
      inScope "if" (Lower.statements body)
      return skip) b = .ok skip middle →
    Sends (.form span (.branch condition body (some otherwise))) b b' skip
      (middle.current.pc + 1)
  | pastElse {span condition body otherwise skip b middle b'} :
    condition.form ≠ .boolean false →
    (do
      let skip ← jumpUnless (Lower.expr condition none)
      inScope "if" (Lower.statements body)
      return skip) b = .ok skip middle →
    Sends (.form span (.branch condition body (some otherwise))) b b' middle.current.pc
      b'.current.pc
  | outOfLoop {span condition body done b middle b'} :
    (do
      onCurrent (modify (FunctionBuilder.openLoop (some b.current.pc)))
      jumpUnless (Lower.expr condition none)) b = .ok done middle →
    Sends (.form span (.whileLoop condition body)) b b' done b'.current.pc
  /-- The last instruction of a loop. -/
  | again {span condition body index b b'} :
    index + 1 = b'.current.pc →
    Sends (.form span (.whileLoop condition body)) b b' index b.current.pc
  /-- Whatever is parked in the loop at the end of its body. -/
  | parked {span condition body loop outer index b middle b'} :
    (do
      onCurrent (modify (FunctionBuilder.openLoop (some b.current.pc)))
      let _ ← jumpUnless (Lower.expr condition none)
      inScope "while" (Lower.statements body)) b = .ok () middle →
    middle.current.loops.stack = loop :: outer → index ∈ loop.parked →
    Sends (.form span (.whileLoop condition body)) b b' index b'.current.pc
  | toHead {span head b b'} :
    b.current.loops.head? = some head →
    Sends (.form span .continueLoop) b b' b.current.pc head

end Construct

variable {b b' middle : ChunkBuilder} {weight weight' p : Nat} {condition : Expr}
  {body otherwise : Lower Unit} {left right : Option UInt8 → Lower Operand}

theorem aimHere_jumpsTo (h : b.current.Waits p) (hcapacity : b.current.pc ≤ capacity)
    (hrun : aimHere p b = .ok () b') :
    b'.current.JumpsTo p b.current.pc ∧ b'.current.pc = b.current.pc := by
  obtain ⟨jump, hop, rfl⟩ := aimHere_eq h hrun
  exact ⟨jumpsTo_replaced hop h.lt hcapacity, pc_replaced _ _ _⟩

theorem comparison_jumpsTo (hleft : Serving weight left) (hright : Serving weight' right)
    {op : BinaryOp} {opcode : Opcode} {expected swapped : Bool}
    (hshape : op.shape = .comparison opcode expected swapped) {target : UInt8} (h : b.Ready)
    (hroom : b.current.Room (weight + weight' + 12))
    (hrun : binaryInto op left right target b = .ok () b') (hp : p + 3 = b'.current.pc) :
    b'.current.JumpsTo p (p + 2) := by
  simp only [binaryInto, hshape] at hrun
  obtain ⟨fields, b₁, hfields, hcompare⟩ := bind_eq_ok.mp hrun
  have hbalanced := (shortPair_balancing (hleft none) (hright none) b h
    (hroom.weaken (by omega))).of_ok hfields
  have hroom₁ : b₁.current.Room 4 := hroom.after hbalanced.current (by omega)
  have hplaced : ∀ x y, compare opcode expected x y target b₁ = .ok () b' →
      b'.current.JumpsTo p (p + 2) := by
    intro x y hrun'
    obtain ⟨-, rfl⟩ := (compare_ensures opcode expected x y target hroom₁.1).of_ok hrun'
    have hpc : p = b₁.current.pc + 1 := by
      simp only [pc_placed, comparison, List.length_cons, List.length_nil] at hp
      omega
    rw [hpc]
    exact jumpsTo_comparison _ _ _ _ _
  split at hcompare
  · exact hplaced _ _ hcompare
  · exact hplaced _ _ hcompare

theorem shortCircuit_jumpsTo (hleft : Serving weight left) (hright : Serving weight' right)
    {op : LogicalOp} {target : UInt8} (h : b.Ready)
    (hroom : b.current.Room (weight + weight' + 2))
    (hrun : logicalInto op left right target b = .ok () b')
    (hmiddle : (do
      let _ ← left (some target)
      emit .test target.toNat 0 (if op = LogicalOp.and then 0 else 1)) b = .ok () middle) :
    b'.current.JumpsTo middle.current.pc b'.current.pc := by
  obtain ⟨_, b₁, hlowered, hrun⟩ := bind_eq_ok.mp hrun
  obtain ⟨_, b₂, htest, hrun⟩ := bind_eq_ok.mp hrun
  obtain ⟨done, b₃, hjump, hrun⟩ := bind_eq_ok.mp hrun
  obtain ⟨_, b₄, hlowered', haim⟩ := bind_eq_ok.mp hrun
  cases hmiddle.symm.trans (bind_eq_ok.mpr ⟨_, _, hlowered, htest⟩)
  have hfirst := ((hleft (some target) b h (hroom.weaken (by omega))).of_ok hlowered).2
  have hready := hfirst.ready h
  have hwaiting := (test_jump_awaits hready target _).of_ok (bind_eq_ok.mpr ⟨_, _, htest, hjump⟩)
  have hroom₁ : b₁.current.Room (weight' + 2) := hroom.after hfirst.current (by omega)
  have hsecond := ((hright (some target) b₃ (hwaiting.ready hready)
    (hroom₁.after hwaiting.current (by omega))).of_ok hlowered').2
  have hroom₄ : b₄.current.Room 0 :=
    hroom₁.after (hwaiting.balanced hsecond).current (by omega)
  obtain ⟨-, hwaits⟩ := (hwaiting.balanced hsecond).waits hready.sound
  obtain ⟨haimed, hpc⟩ := aimHere_jumpsTo hwaits hroom₄.1 haim
  obtain ⟨rfl, -, -⟩ := (jump_ensures middle).of_ok hjump
  rwa [hpc]

theorem pastBody_jumpsTo (hbody : Advancing weight body) (h : b.Ready) (hrest : b.current.AtRest)
    (hroom : b.current.Room (16 * condition.nodes + weight + 6))
    (hrun : branch (expr condition none) body b = .ok () b')
    (htest : jumpUnless (expr condition none) b = .ok p middle) :
    b'.current.JumpsTo p b'.current.pc := by
  obtain ⟨skip, b₁, htest', hrun⟩ := bind_eq_ok.mp hrun
  cases htest.symm.trans htest'
  obtain ⟨_, b₂, hinside, haim⟩ := bind_eq_ok.mp hrun
  have hguarded := guarded hbody h hrest hroom htest hinside
  have hroom₂ : b₂.current.Room 0 := hguarded.advances.current.room hroom (by omega)
  obtain ⟨haimed, hpc⟩ := aimHere_jumpsTo hguarded.waits.2.2 hroom₂.1 haim
  rwa [hpc]

theorem branchElse_jumpsTo (hbody : Advancing weight body)
    (hotherwise : Advancing weight' otherwise) (h : b.Ready) (hrest : b.current.AtRest)
    (hroom : b.current.Room (16 * condition.nodes + weight + weight' + 7))
    (hrun : branchElse (expr condition none) body otherwise b = .ok () b')
    (hmiddle : (do
      let skip ← jumpUnless (expr condition none)
      inScope "if" body
      return skip) b = .ok p middle) :
    b'.current.JumpsTo p (middle.current.pc + 1) ∧
      b'.current.JumpsTo middle.current.pc b'.current.pc := by
  obtain ⟨skip, b₁, htest, hrun⟩ := bind_eq_ok.mp hrun
  obtain ⟨_, b₂, hinside, hrun⟩ := bind_eq_ok.mp hrun
  cases hmiddle.symm.trans
    (bind_eq_ok.mpr ⟨_, _, htest, bind_eq_ok.mpr ⟨_, _, hinside, rfl⟩⟩)
  obtain ⟨done, b₃, hjump, hrun⟩ := bind_eq_ok.mp hrun
  obtain ⟨_, b₄, haim, hrun⟩ := bind_eq_ok.mp hrun
  obtain ⟨_, b₅, hinside', haim'⟩ := bind_eq_ok.mp hrun
  have hguarded := guarded hbody h hrest (hroom.weaken (by omega)) htest hinside
  have hthen := hguarded.advances
  have hready := hthen.ready h
  have hwaiting := (jump_awaits hready).of_ok hjump
  have hboth := hthen.trans (hwaiting.advances hthen.current.atRest)
  have hroom₃ : b₃.current.Room 0 := hboth.current.room hroom (by omega)
  have hwaits := hguarded.waits.2.2.advances (hwaiting.advances hthen.current.atRest).current
  have haimed := (aimHere_advances hboth hroom₃.1 (by simp)
    (show ∀ q ∈ [p] ++ [] ++ [done], q = p ∨ q ∈ [done] by simp) (by simp)).of_ok haim
  obtain ⟨hskip, hpc₄⟩ := aimHere_jumpsTo hwaits hroom₃.1 haim
  have hother := ((inScope_advancing hotherwise "else") b₄ (haimed.ready h)
    haimed.current.atRest (haimed.current.room hroom (by omega))).of_ok hinside'
  -- the jump behind the body is the one that still waits
  obtain ⟨rfl, -, hplaced⟩ := (jump_ensures middle).of_ok hjump
  have hne : p ≠ middle.current.pc := Nat.ne_of_lt hguarded.waits.2.2.lt
  have hdone : b₄.current.Waits middle.current.pc := by
    obtain ⟨jump, -, rfl⟩ := aimHere_eq hwaits haim
    exact (hwaiting.waits hready.sound).2.replaced hne
  have hroom₅ : b₅.current.Room 0 := (haimed.trans hother).current.room hroom (by omega)
  have hdone' := hdone.advances hother.current
  obtain ⟨hend, hpc⟩ := aimHere_jumpsTo hdone' hroom₅.1 haim'
  refine ⟨?_, by rwa [hpc]⟩
  obtain ⟨jump, -, rfl⟩ := aimHere_eq hdone' haim'
  have hpc₃ : b₃.current.pc = middle.current.pc + 1 := by
    rw [hplaced, pc_placed]
    rfl
  rw [hpc₃] at hskip
  exact (hskip.longer hother.current.appends.listing).replaced hne.symm

namespace Looped

variable {done : Nat} {b₁ b₂ b₃ : ChunkBuilder}
  (h : Looped condition body weight done b b₁ b₂ b₃ b')
include h

theorem closed :
    ∃ breaks, b₂.current.loops.stack =
        { continueTarget := some b.current.pc, breaks } :: b.current.loops.stack ∧
      (∀ q ∈ breaks, q < b₂.current.pc ∧ q ≠ done ∧ b'.current.JumpsTo q b'.current.pc) ∧
      Aims (fun q goal => q ∈ breaks ∧ goal = b₃.current.pc)
        { b₃.current with loops := b.current.loops } b'.current := by
  obtain ⟨breaks, hextends, hloops, -⟩ := h.round.current.grown
  obtain ⟨f', hclosed, rfl⟩ := onCurrent_eq_ok.mp h.close
  have hsame : b₃.current.loops = b₂.current.loops := by
    obtain ⟨jump, -, hstate⟩ := aimHere_eq h.waits h.aim
    rw [hstate]
    rfl
  have hstack : b₃.current.loops.stack =
      { continueTarget := some b.current.pc, breaks } :: b.current.loops.stack := by
    rw [hloops]
    rfl
  have hparked : b₂.current.loops.breaks = breaks := by
    rw [← hsame, Loops.breaks, hstack]
  rcases closeLoop_cases hstack with ⟨f'', hok, haims, hbreaks, -⟩ | ⟨error, f'', herror, -⟩
  · cases hclosed.symm.trans hok
    refine ⟨breaks, by rw [← hsame, hstack], fun q hq => ⟨?_, ?_, ?_⟩, ?_⟩
    · rw [← hparked] at hq
      exact h.guarded.advances.current.sound.parked _ (Loops.parked_of_breaks hq)
    · rintro rfl
      rw [← hparked] at hq
      exact h.waits.1 hq
    · obtain ⟨-, jump, hat, hop⟩ := hextends.waiting hq
      have hlt : q < b₃.current.pc := by
        rw [← length_listing]
        exact (List.getElem?_eq_some_iff.mp hat).1
      have hsmall := h.room.1
      unfold FunctionBuilder.capacity at hsmall
      have haimed := (hbreaks q hq (by simp)).jumpsTo (opAt?_eq_some.mpr ⟨jump, hat, hop⟩)
        (by omega) (by omega)
      rwa [show f'.pc = b₃.current.pc from haims.pc]
    · exact haims.mono fun q goal hsends => by simpa [Loop.Sends] using hsends
  · cases hclosed.symm.trans herror

theorem outOfLoop_jumpsTo : b'.current.JumpsTo done b'.current.pc := by
  obtain ⟨breaks, -, hbreaks, haims⟩ := h.closed
  obtain ⟨haimed, hpc⟩ := aimHere_jumpsTo h.waits h.roomBack.1 h.aim
  rw [show b'.current.pc = b₃.current.pc from haims.pc, hpc]
  have hkept : FunctionBuilder.JumpsTo { b₃.current with loops := b.current.loops } done _ := haimed
  exact hkept.aims haims fun goal hgoes => (hbreaks done hgoes.1).2.1 rfl

theorem again_jumpsTo :
    b₂.current.pc + 1 = b'.current.pc ∧ b'.current.JumpsTo b₂.current.pc b.current.pc := by
  obtain ⟨breaks, -, hbreaks, haims⟩ := h.closed
  have hne : done ≠ b₂.current.pc := Nat.ne_of_lt h.guarded.waits.2.2.lt
  obtain ⟨jump, -, hstate⟩ := aimHere_eq h.waits h.aim
  have hback : FunctionBuilder.JumpsTo { b₃.current with loops := b.current.loops }
      b₂.current.pc b.current.pc := by
    rw [hstate]
    exact (jumpsTo_jumpBack h.capacity h.le).replaced hne
  refine ⟨?_, hback.aims haims fun goal hgoes =>
    Nat.lt_irrefl _ (hbreaks b₂.current.pc hgoes.1).1⟩
  rw [show b'.current.pc = b₃.current.pc from haims.pc, hstate]
  simp

theorem parked_jumpsTo {loop : Loop} {outer : List Loop}
    (hstack : b₂.current.loops.stack = loop :: outer) (hp : p ∈ loop.parked) :
    b'.current.JumpsTo p b'.current.pc := by
  obtain ⟨breaks, hstack', hbreaks, -⟩ := h.closed
  obtain ⟨rfl, -⟩ := List.cons.inj (hstack.symm.trans hstack')
  exact (hbreaks p (by simpa [Loop.parked] using hp)).2.2

end Looped

namespace Construct

variable {held : List UInt8} {slack : Nat}

theorem lower_expr_eq_ok {e : Expr} {dest : Option UInt8}
    (hrun : (Construct.expr e dest).lower b = .ok held b') :
    ∃ operand, Lower.expr e dest b = .ok operand b' := by
  cases dest with
  | none =>
    obtain ⟨operand, hlower, -⟩ := bind_pure_eq_ok.mp hrun
    exact ⟨operand, hlower⟩
  | some target =>
    obtain ⟨operand, hlower, -⟩ := bind_pure_eq_ok.mp hrun
    exact ⟨operand, hlower⟩

theorem lower_form_eq_ok {span : Span} {shape : StmtForm}
    (hrun : (Construct.form span shape).lower b = .ok held b') :
    statementForm span shape b = .ok () b' := by
  obtain ⟨_, hlower, -⟩ := bind_pure_eq_ok.mp hrun
  exact hlower

theorem Fits.place {e : Expr} {dest : Option UInt8} {target : UInt8}
    (h : (Construct.expr e dest).Fits slack b) (hplace : Lower.place dest b = .ok target b') :
    b'.Ready ∧ b'.current.Room (16 * e.nodes) :=
  (spends_place dest b (16 * e.nodes) h.ready (h.room.weaken (by simp [nodes]))).of_ok hplace

theorem Fits.looped {span : Span} {condition : Expr} {body : List Stmt}
    (h : (Construct.form span (.whileLoop condition body)).Fits slack b)
    (hrun : (Construct.form span (.whileLoop condition body)).lower b = .ok held b') :
    ∃ done b₁ b₂ b₃, Looped condition (Lower.statements body) (16 * Stmt.listNodes body) done
      b b₁ b₂ b₃ b' := by
  have hroom := h.room
  rw [nodes, StmtForm.nodes] at hroom
  exact Lower.looped (advancing_statements body) h.ready (h.atRest rfl) (hroom.weaken (by omega))
    (lower_form_eq_ok hrun)

theorem Sends.jumpsTo {c : Construct} {target : Nat} (hsends : c.Sends b b' p target)
    (h : c.Fits slack b) (hrun : c.lower b = .ok held b') : b'.current.JumpsTo p target := by
  have hroom := h.room
  cases hsends with
  | @comparison _ left right _ _ _ _ _ _ _ _ _ _ hshape hp =>
    obtain ⟨operand, hlower⟩ := lower_expr_eq_ok hrun
    obtain ⟨target, b₁, hplace, hcompute, -⟩ := inPlace_eq_ok.mp hlower
    obtain ⟨hready, hroom₁⟩ := h.place hplace
    rw [Expr.nodes, ExprForm.nodes] at hroom₁
    exact comparison_jumpsTo (lowerable left) (lowerable right) hshape hready
      (hroom₁.weaken (by omega)) hcompute hp
  | @shortCircuit op left right _ _ _ _ _ _ _ hmiddle =>
    obtain ⟨operand, hlower⟩ := lower_expr_eq_ok hrun
    obtain ⟨target, b₁, hplace, hcompute, -⟩ := inPlace_eq_ok.mp hlower
    obtain ⟨target', _, hplace', hmiddle⟩ := bind_eq_ok.mp hmiddle
    cases hplace.symm.trans hplace'
    obtain ⟨hready, hroom₁⟩ := h.place hplace
    rw [Expr.nodes, ExprForm.nodes] at hroom₁
    exact shortCircuit_jumpsTo (lowerable left) (lowerable right) hready
      (hroom₁.weaken (by omega)) hcompute hmiddle
  | @pastBody _ condition body _ _ _ _ hlive htest =>
    have hlower := lower_form_eq_ok hrun
    rw [statementForm_branch hlive] at hlower
    rw [nodes, StmtForm.nodes] at hroom
    exact pastBody_jumpsTo (advancing_statements body) h.ready (h.atRest rfl)
      (hroom.weaken (by omega)) hlower htest
  | @toElse _ condition body otherwise _ _ _ _ hlive hmiddle =>
    have hlower := lower_form_eq_ok hrun
    rw [statementForm_branchElse hlive] at hlower
    rw [nodes, StmtForm.nodes] at hroom
    exact (branchElse_jumpsTo (advancing_statements body) (advancing_statements otherwise)
      h.ready (h.atRest rfl) (hroom.weaken (by omega)) hlower hmiddle).1
  | @pastElse _ condition body otherwise _ _ _ _ hlive hmiddle =>
    have hlower := lower_form_eq_ok hrun
    rw [statementForm_branchElse hlive] at hlower
    rw [nodes, StmtForm.nodes] at hroom
    exact (branchElse_jumpsTo (advancing_statements body) (advancing_statements otherwise)
      h.ready (h.atRest rfl) (hroom.weaken (by omega)) hlower hmiddle).2
  | outOfLoop htest =>
    obtain ⟨done, b₁, b₂, b₃, hlooped⟩ := h.looped hrun
    obtain ⟨_, _, hopen, htest⟩ := bind_eq_ok.mp htest
    obtain rfl := onCurrent_modify_eq_ok.mp hopen
    cases htest.symm.trans hlooped.guarded.test
    exact hlooped.outOfLoop_jumpsTo
  | again hp =>
    obtain ⟨done, b₁, b₂, b₃, hlooped⟩ := h.looped hrun
    obtain ⟨hpc, hjumps⟩ := hlooped.again_jumpsTo
    rwa [Nat.succ.inj (hp.trans hpc.symm)]
  | parked hmiddle hstack hp =>
    obtain ⟨done, b₁, b₂, b₃, hlooped⟩ := h.looped hrun
    obtain ⟨_, _, hopen, hmiddle⟩ := bind_eq_ok.mp hmiddle
    obtain rfl := onCurrent_modify_eq_ok.mp hopen
    cases hmiddle.symm.trans
      (bind_eq_ok.mpr ⟨_, _, hlooped.guarded.test, hlooped.guarded.inside⟩)
    exact hlooped.parked_jumpsTo hstack hp
  | toHead hhead =>
    have hcapacity : b.current.pc < FunctionBuilder.capacity := by
      have hle := hroom.1
      rw [nodes, StmtForm.nodes] at hle
      omega
    obtain ⟨f, ⟨-, head, hhead', hle, rfl⟩, rfl⟩ := (onCurrent_ensures (continueLoop_ensures
      h.ready.sound (h.atRest rfl) hcapacity)).of_ok (lower_form_eq_ok hrun)
    cases hhead.symm.trans hhead'
    exact jumpsTo_jumpBack hcapacity hle

end Construct

end Lower

end RegisterCode
