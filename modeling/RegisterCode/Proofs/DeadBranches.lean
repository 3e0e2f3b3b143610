import Mathlib.Algebra.Group.Nat.Defs
import RegisterCode.Proofs.BuilderChanges
import RegisterCode.Proofs.LoweringEntries

/-! Branches that can never be taken. They are lowered as others are, for the names they
search and the faults they have, and then their code is discarded. Nothing is left of it but
entries of tables, the registers that were once needed, and ranges of locals that are empty. -/
namespace RegisterCode

open Action

namespace FunctionBuilder

variable {f f' : FunctionBuilder} {weight : Nat}

/-- The function is as before but for what code leaves behind elsewhere. -/
structure Traceless (f f' : FunctionBuilder) : Prop where
  name : f'.name = f.name
  outerLevel : f'.outerLevel = f.outerLevel
  firstLine : f'.firstLine = f.firstLine
  isVararg : f'.isVararg = f.isVararg
  paramCount : f'.paramCount = f.paramCount
  instructions : f'.code.instructions = f.code.instructions
  sections : f'.code.sections = f.code.sections
  nextFree : f'.nextFree = f.nextFree
  temporaries : f'.temporaries = f.temporaries
  stack : f'.scopes.stack = f.scopes.stack
  loops : f'.loops = f.loops
  constants : f.constants.toList <+: f'.constants.toList
  upvalues : f.upvalues <+: f'.upvalues
  children : f.children.toList <+: f'.children.toList
  highWater : f.highWater ≤ f'.highWater
  log : ∃ closed, f'.scopes.log = closed ++ f.scopes.log ∧
    ∀ r ∈ closed, r.startPc.toNat = f.pc ∧ r.endPc.toNat = f.pc

theorem Advances.traceless (h : f.Advances [] weight f') (hsound : f.Sound) (hrest : f.AtRest)
    (hpc : f'.pc = f.pc) (hstack : f'.scopes.stack = f.scopes.stack) : f.Traceless f' := by
  obtain ⟨breaks, hextends, hloops, -⟩ := h.grown
  obtain ⟨code, hcode, hflow⟩ := hextends.code
  obtain ⟨closed, hlog, hclosed⟩ := h.logged
  have hnone : code = [] := by
    have hlength := congrArg List.length hcode
    rw [List.length_append, length_listing, length_listing, hpc] at hlength
    exact List.length_eq_zero_iff.mp (by omega)
  subst hnone
  have hunparked : breaks = [] := by
    rw [List.eq_nil_iff_forall_not_mem]
    intro p hp
    obtain ⟨k, jump, -, hjump, -⟩ := hflow.waiting p hp
    simp at hjump
  subst hunparked
  exact {
    name := hextends.name
    outerLevel := hextends.outerLevel
    firstLine := hextends.firstLine
    isVararg := hextends.isVararg
    paramCount := hextends.paramCount
    instructions := Array.toList_inj.mp (hcode.trans (List.append_nil _))
    sections := hextends.sections
    nextFree := by
      have hcount : f'.scopes.count = f.scopes.count := by
        rw [Scopes.count, Scopes.registers, hstack, Scopes.count, Scopes.registers]
      exact h.atRest.trans (hcount.trans hrest.symm)
    temporaries := hextends.sound.temporaries.trans hsound.temporaries.symm
    stack := hstack
    loops := hloops.trans (Loops.withBreaks_nil _)
    constants := hextends.constants
    upvalues := hextends.upvalues
    children := hextends.children
    highWater := hextends.highWater
    log := by
      refine ⟨closed, hlog, ?_⟩
      intro r hr
      have hfrom := hclosed r hr
      have hrange := hextends.sound.logged r (by rw [hlog]; exact List.mem_append_left _ hr)
      omega }

theorem Traceless.of_setLine {line : UInt32} (h : (f.setLine line).Traceless f') :
    f.Traceless f' :=
  { h with }

end FunctionBuilder

namespace Lower
open ChunkBuilder

variable {b b' : ChunkBuilder} {c : Construct} {program : Program} {options : Options}
  {map : Option SourceMap}

theorem locateKnown_eq_ok {span : Span} (h : locateKnown span b = .ok () b') :
    ∃ line, b'.current = b.current.setLine line ∧ b'.enclosing = b.enclosing := by
  unfold locateKnown at h
  by_cases hknown : span.isKnown = true
  · rw [if_pos hknown] at h
    obtain ⟨line, map, generatedLine, hlocate⟩ := locate_eq span b
    cases h
    exact ⟨line, by rw [hlocate], by rw [hlocate]⟩
  · rw [if_neg hknown] at h
    cases h
    exact ⟨b.current.line, rfl, rfl⟩

theorem deadBranch_traceless {body : List Stmt} {condition : Expr} {span : Span}
    (hdead : condition.form = .boolean false) (hb : b.Ready) (hrest : b.current.AtRest)
    (hroom : b.current.Room (16 * Stmt.listNodes body))
    (hrun : statementForm span (.branch condition body none) b = .ok () b') :
    b.current.Traceless b'.current ∧
      List.Forall₂ FunctionBuilder.Captures b.enclosing b'.enclosing := by
  have htraceless : (statementForm span (.branch condition body none)).Ensures b fun _ b' =>
      b.current.Traceless b'.current ∧
        List.Forall₂ FunctionBuilder.Captures b.enclosing b'.enclosing := by
    rw [statementForm_deadBranch hdead]
    apply onCurrent_modify_bind
    have hready : Ready { b with current := b.current.openSection } :=
      hb.withCurrent { hb.sound with } List.prefix_rfl
    apply (inScope_ensures (advancing_statements body) "if" hready hrest hroom).bind
    rintro _ b₁ ⟨hinside, hstack⟩
    have hcapacity : b.current.pc ≤ FunctionBuilder.capacity :=
      Nat.le_trans (Nat.le_add_right _ _) hroom.1
    apply (onCurrent_ensures (FunctionBuilder.discardSection_advances hb.sound hcapacity
      hinside.current hstack)).bind
    rintro _ _ ⟨f, ⟨hadvances, hpc, hstack'⟩, rfl⟩
    exact ensures_pure ⟨hadvances.traceless hb.sound hrest hpc hstack',
      hinside.around.enclosing⟩
  exact htraceless.of_ok hrun

/-- Wherever the lowering of a program stands between statements, a branch that can never be
taken leaves no trace in the code of the current function, and the functions around it only
capture more. -/
theorem Reaches.deadBranch_leaves_no_trace (hsize : program.nodes < 2 ^ 24)
    (h : Reaches program options map c b) {condition : Expr} {body : List Stmt} {span : Span}
    (hdead : condition.form = .boolean false)
    (hhere : c = .statement ⟨.branch condition body none, span⟩ ∨
      c.isBetween = true ∧ Stmt.nodes ⟨.branch condition body none, span⟩ < 2 ^ 24)
    (hrun : statement ⟨.branch condition body none, span⟩ b = .ok () b') :
    b.current.Traceless b'.current ∧
      List.Forall₂ FunctionBuilder.Captures b.enclosing b'.enclosing := by
  have hfits := h.fits hsize
  have hstatement : (Construct.statement ⟨.branch condition body none, span⟩).Fits 0 b := by
    rcases hhere with rfl | ⟨hbetween, hsmall⟩
    · exact ⟨hfits.ready, hfits.room.weaken (by omega), hfits.atRest⟩
    · exact ⟨hfits.ready, hfits.room.weaken (by rw [Construct.nodes]; omega),
        fun _ => hfits.atRest hbetween⟩
  rw [statement] at hrun
  obtain ⟨_, b₁, hlocated, hrun⟩ := bind_eq_ok.mp hrun
  obtain ⟨hready, hroom, hrest⟩ := hstatement.enters (.located hlocated)
  obtain ⟨line, hcurrent, henclosing⟩ := locateKnown_eq_ok hlocated
  have hbody := Construct.Fits.nodes_branch_ge condition body none
  obtain ⟨htraceless, hcaptures⟩ := deadBranch_traceless hdead hready (hrest rfl)
    (hroom.weaken (by rw [Construct.nodes]; omega)) hrun
  rw [hcurrent] at htraceless
  rw [henclosing] at hcaptures
  exact ⟨htraceless.of_setLine, hcaptures⟩

/-- In the dead branch stand a local, a loop, a function that captures a local from outside,
and a jump out of the loop around the branch. -/
def branchPastBreak : Stmt :=
  .of (.branch (.of (.boolean false))
    [.of (.declare "z" none), .of (.whileLoop (.of (.name "z")) [.of .breakLoop]),
      .of (.function "f" ⟨[], [.of (.ret (some (.of (.name "x"))))], 0⟩), .of .breakLoop] none)

def loopWithDeadBranch : Program :=
  .of [.of (.declare "x" none),
    .of (.whileLoop (.of (.name "x")) [.of .breakLoop, branchPastBreak])]

def beforeLoop : ChunkBuilder :=
  (statement (.of (.declare "x" none))).after (.start {} none)

def enterLoop : Lower Unit := do
  onCurrent (modify (FunctionBuilder.openLoop (some beforeLoop.current.pc)))
  let _ ← jumpUnless (expr (.of (.name "x")) none)
  onCurrent (modify (FunctionBuilder.openScope "while"))

def beforeDeadBranch : ChunkBuilder :=
  (statement (.of .breakLoop)).after (enterLoop.after beforeLoop)

theorem reaches_beforeDeadBranch :
    Reaches loopWithDeadBranch {} none (.statement branchPastBreak) beforeDeadBranch := by
  have hdeclare : (statement (.of (.declare "x" none))).value? (.start {} none) = some () := by
    decide +kernel
  have henter : enterLoop.value? beforeLoop = some () := by decide +kernel
  have hbreak : (statement (.of .breakLoop)).value? (enterLoop.after beforeLoop) = some () := by
    decide +kernel
  have hloop : Reaches loopWithDeadBranch {} none
      (.statements [.of (.whileLoop (.of (.name "x")) [.of .breakLoop, branchPastBreak])])
      beforeLoop :=
    Reaches.start.step (.rest (value?_eq_some hdeclare))
  have hbody : Reaches loopWithDeadBranch {} none
      (.statements [.of .breakLoop, branchPastBreak]) (enterLoop.after beforeLoop) :=
    ((hloop.step .first).step (.located rfl)).step (.loopBody (value?_eq_some henter))
  exact (hbody.step (.rest (value?_eq_some hbreak))).step .first

theorem Reaches.deadBranch_leaves_no_trace_loop :
    Reaches loopWithDeadBranch {} none (.statement branchPastBreak) beforeDeadBranch ∧
      beforeDeadBranch.current.pc = 4 ∧ beforeDeadBranch.current.loops.parked = [3] ∧
      ∃ b', statement branchPastBreak beforeDeadBranch = .ok () b' ∧
        beforeDeadBranch.current.Traceless b'.current ∧ b'.current.children.size = 1 ∧
        b'.current.scopes.log.length = 2 ∧ b'.current.highWater = 3 := by
  have hrun : (statement branchPastBreak).value? beforeDeadBranch = some () := by decide +kernel
  have htraceless := reaches_beforeDeadBranch.deadBranch_leaves_no_trace (by decide) rfl
    (.inl rfl) (value?_eq_some hrun)
  exact ⟨reaches_beforeDeadBranch, by decide +kernel, by decide +kernel, _, value?_eq_some hrun,
    htraceless.1, by decide +kernel, by decide +kernel, by decide +kernel⟩

end Lower

end RegisterCode
