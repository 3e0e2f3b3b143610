import Mathlib.Algebra.Group.Nat.Defs
import RegisterCode.Proofs.AimedJumps
import RegisterCode.Proofs.FilledRegisters
import RegisterCode.Proofs.TrackedStatements

/-! What lowering owes the builders. Wherever the lowering of a program comes to, a construct
leaves nothing open that it opened, keeps no register that it does not hand over, puts the
value of a local into the register of the local, and aims every jump that it places. So no
function is closed before it is complete, and a program that is refused is at fault itself. -/
namespace RegisterCode

open Action

namespace FunctionBuilder

/-- Nothing of the function is open but its own scope, and only its locals are in registers. -/
structure Complete (f : FunctionBuilder) : Prop where
  scopes : f.scopes.depth = 1
  sections : f.code.sections = []
  loops : f.loops.stack = []
  temporaries : f.temporaries = []
  registers : f.nextFree = f.scopes.locals.length

theorem Done.complete {f : FunctionBuilder} (h : f.Done) (hsound : f.Sound) : f.Complete where
  scopes := h.scopes
  sections := h.sections
  loops := h.loops
  temporaries := hsound.temporaries
  registers := h.atRest.trans (Scopes.count_eq_length _)

end FunctionBuilder

namespace Lower
open ChunkBuilder FunctionBuilder

variable {b b' : ChunkBuilder} {weight slack : Nat} {held : List UInt8} {c : Construct}

/-- The same functions, scopes, sections and loops are open, and the innermost loop may
have got jumps that leave it. -/
structure SameNesting (b b' : ChunkBuilder) : Prop where
  functions : b'.enclosing.length = b.enclosing.length
  scopes : b'.current.scopes.depth = b.current.scopes.depth
  sections : b'.current.code.sections = b.current.code.sections
  loops : ∃ breaks, b'.current.loops = b.current.loops.withBreaks breaks
  temporaries : b'.current.temporaries = []

theorem sameNesting_of_grows (h : b.Grows weight b') : SameNesting b b' where
  functions := h.around.enclosing.length_eq.symm
  scopes := by rw [h.scopes]
  sections := h.current.sections
  loops := ⟨[], by rw [h.loops, Loops.withBreaks_nil]⟩
  temporaries := h.current.sound.temporaries

theorem sameNesting_of_advances (h : b.Advances [] weight b') : SameNesting b b' := by
  obtain ⟨breaks, hextends, hloops, -⟩ := h.current.grown
  obtain ⟨bound, hstack, -⟩ := h.current.bound
  exact {
    functions := h.around.enclosing.length_eq.symm
    scopes := (congrArg List.length hstack).trans (Scopes.length_gain _ _)
    sections := hextends.sections
    loops := ⟨breaks, hloops⟩
    temporaries := hextends.sound.temporaries }

/-- Of the registers handed over, those that were free before are the ones in use since,
one above the other. -/
def HandsOver (held : List UInt8) (f f' : FunctionBuilder) : Prop :=
  ∃ n, (held.filter (f.nextFree ≤ ·.toNat)).map UInt8.toNat = List.range' f.nextFree n ∧
    f'.nextFree = f.nextFree + n

namespace Construct

def declares? : Construct → Option String
  | .form _ (.declare name _) | .form _ (.function name _) => some name
  | _ => none

/-- Nothing more is open than before, and registers are given back or handed over. -/
structure Tidies (c : Construct) (b : ChunkBuilder) (held : List UInt8) (b' : ChunkBuilder) :
    Prop extends SameNesting b b' where
  between : c.isBetween = true → b'.current.nextFree = b'.current.scopes.locals.length
  within : c.isBetween = false → HandsOver held b.current b'.current

/-- All that a construct owes when it is lowered. -/
structure Honours (c : Construct) (b : ChunkBuilder) (held : List UInt8) (b' : ChunkBuilder) :
    Prop extends Tidies c b held b' where
  declares : ∀ name, c.declares? = some name → b.current.Installs name b'.current
  jumps : ∀ index target, c.Sends b b' index target → b'.current.JumpsTo index target
  parks : ∀ span, c = .form span .breakLoop →
    b'.current.opAt? b.current.pc = some .jmp ∧ b.current.pc ∈ b'.current.loops.breaks

end Construct

theorem handsOver_nil (h : b.Balanced weight b') : HandsOver [] b.current b'.current :=
  ⟨0, rfl, h.nextFree⟩

theorem handsOver_of_yields (hb : b.Ready) {operand : Operand} (h : b.Yields weight operand b') :
    HandsOver operand.register?.toList b.current b'.current := by
  cases operand with
  | register index =>
    have hcount := hb.sound.count_le
    rcases h.holds with ⟨hlocal, hnext⟩ | ⟨hindex, hnext⟩
    · rw [h.scopes] at hlocal
      refine ⟨0, ?_, hnext⟩
      have hbelow : ¬ b.current.nextFree ≤ index.toNat := by omega
      simp [Operand.register?, hbelow]
    · refine ⟨1, ?_, hnext⟩
      simp [Operand.register?, hindex]
  | _ => exact ⟨0, rfl, h.holds⟩

theorem handsOver_stacked (hregisters : held.map UInt8.toNat =
      List.range' b.current.nextFree held.length)
    (hnext : b'.current.nextFree = b.current.nextFree + held.length) :
    HandsOver held b.current b'.current := by
  refine ⟨held.length, ?_, hnext⟩
  rw [List.filter_eq_self.mpr, hregisters]
  intro register hregister
  have hmem : register.toNat ∈ held.map UInt8.toNat := List.mem_map_of_mem hregister
  rw [hregisters, List.mem_range'_1] at hmem
  simpa using hmem.1

namespace Construct.Fits

theorem tidies_grown (hgrows : b.Grows weight b') (hhands : HandsOver held b.current b'.current)
    (hwithin : c.isBetween = false) : c.Tidies b held b' :=
  ⟨sameNesting_of_grows hgrows, by simp [hwithin], fun _ => hhands⟩

theorem tidies_advanced {action : Lower Unit} (h : c.Fits slack b) (hbetween : c.isBetween = true)
    (hadvancing : Advancing (16 * c.nodes) action)
    (hrun : (do action; return []) b = .ok held b') : c.Tidies b held b' := by
  obtain ⟨_, hlower, -⟩ := bind_pure_eq_ok.mp hrun
  have hadvances := (hadvancing b h.ready (h.atRest hbetween) (h.room.weaken (by omega))).of_ok
    hlower
  exact ⟨sameNesting_of_advances hadvances,
    fun _ => hadvances.current.atRest.trans (Scopes.count_eq_length _), by simp [hbetween]⟩

theorem tidies (h : c.Fits slack b) (hrun : c.lower b = .ok held b') : c.Tidies b held b' := by
  have hroom := h.room.weaken (Nat.le_add_right _ slack)
  cases c with
  | expr e dest =>
    cases dest with
    | none =>
      obtain ⟨operand, hlower, rfl⟩ := bind_pure_eq_ok.mp hrun
      have hyields : b.Yields _ operand _ := (lowerable e none b h.ready hroom).of_ok hlower
      exact tidies_grown hyields.toGrows (handsOver_of_yields h.ready hyields) rfl
    | some target =>
      obtain ⟨operand, hlower, rfl⟩ := bind_pure_eq_ok.mp hrun
      obtain ⟨-, hbalanced⟩ := (lowerable e (some target) b h.ready hroom).of_ok hlower
      exact tidies_grown hbalanced.toGrows (handsOver_nil hbalanced) rfl
  | arguments args =>
    obtain ⟨hgrows, hregisters, hnext⟩ := (stacking_arguments args b h.ready hroom).of_ok hrun
    exact tidies_grown hgrows (handsOver_stacked hregisters hnext) rfl
  | closure f name line target =>
    obtain ⟨_, hlower, rfl⟩ := bind_pure_eq_ok.mp hrun
    have hbalanced := (balancing_closure f name line target b h.ready hroom).of_ok hlower
    exact tidies_grown hbalanced.toGrows (handsOver_nil hbalanced) rfl
  | statement stmt => exact h.tidies_advanced rfl (advancing_statement stmt) hrun
  | form span shape => exact h.tidies_advanced rfl (advancing_form span shape) hrun
  | statements body => exact h.tidies_advanced rfl (advancing_statements body) hrun

theorem installs (h : c.Fits slack b) (hrun : c.lower b = .ok held b') {name : String}
    (hname : c.declares? = some name) : b.current.Installs name b'.current := by
  have hroom := h.room
  unfold declares? at hname
  split at hname
  · next span name' init =>
    cases hname
    have hlower := lower_form_eq_ok hrun
    cases init with
    | none =>
      rw [nodes, StmtForm.nodes] at hroom
      exact (declareLocal_installs storing_nil name h.ready (h.atRest rfl)
        (hroom.weaken (by omega))).of_ok hlower
    | some init =>
      rw [nodes, StmtForm.nodes] at hroom
      exact (declareLocal_installs (storing_expr init) name h.ready (h.atRest rfl)
        (hroom.weaken (by omega))).of_ok hlower
  · next span name' f =>
    cases hname
    have hlower := lower_form_eq_ok hrun
    rw [nodes, StmtForm.nodes] at hroom
    exact (defineFunction_installs f name span.line h.ready (h.atRest rfl)
      (hroom.weaken (by omega))).of_ok hlower
  · cases hname

theorem parks {span : Span} (h : (Construct.form span .breakLoop).Fits slack b)
    (hrun : (Construct.form span .breakLoop).lower b = .ok held b') :
    b'.current.opAt? b.current.pc = some .jmp ∧ b.current.pc ∈ b'.current.loops.breaks := by
  obtain ⟨f, hbreak, rfl⟩ := onCurrent_eq_ok.mp (lower_form_eq_ok hrun)
  refine ⟨?_, ((breakLoop_ensures h.ready.sound (h.atRest rfl)).of_ok hbreak).2⟩
  obtain rfl := breakLoop_eq hbreak
  refine opAt?_eq_some.mpr ⟨b.current.stamped { op := .jmp }, ?_, rfl⟩
  have hplaced := listing_placed [b.current.stamped { op := .jmp }] b.current
  refine (congrArg (·[b.current.pc]?) hplaced).trans ?_
  simp

theorem honours (h : c.Fits slack b) (hrun : c.lower b = .ok held b') : c.Honours b held b' where
  toTidies := h.tidies hrun
  declares _ hname := h.installs hrun hname
  jumps _ _ hsends := hsends.jumpsTo h hrun
  parks span hbreak := by
    subst hbreak
    exact h.parks hrun

end Construct.Fits

/-- A function of the program has all its code, inside of so many others. -/
inductive Completes (program : Program) (options : Options) (map : Option SourceMap) :
    Nat → ChunkBuilder → Prop
  | main {b : ChunkBuilder} : program.lowering (.start options map) = .ok () b →
    Completes program options map 0 b
  | nested {params body endLine name line target} {b inner : ChunkBuilder} :
    Reaches program options map (.closure ⟨params, body, endLine⟩ name line target) b →
    functionCode params (statements body) name line b = .ok () inner →
    Completes program options map (b.enclosing.length + 1) inner

variable {program : Program} {options : Options} {map : Option SourceMap}

theorem Completes.complete {level : Nat} (h : Completes program options map level b)
    (hsize : program.nodes < 2 ^ 24) : b.enclosing.length = level ∧ b.current.Complete := by
  cases h with
  | main hrun =>
    obtain ⟨hready, henclosing, hdone⟩ := (Program.lowering_ensures hsize).of_ok hrun
    exact ⟨by rw [henclosing]; rfl, hdone.complete hready.sound⟩
  | @nested _ body _ _ _ _ outer _ hreaches hrun =>
    have hfits := hreaches.fits hsize
    have hle := hfits.room.1
    rw [Construct.nodes, FunctionLiteral.nodes] at hle
    obtain ⟨hready, haround, hdone⟩ := (functionCode_ensures (advancing_statements body)
      hfits.ready (by omega) _ _ _).of_ok hrun
    exact ⟨haround.enclosing.length_eq.symm, hdone.complete hready.sound⟩

end Lower

namespace Program
open Lower

/-- Lowering never uses the builders against their rules. A program that is refused is at
fault itself; every function is complete when it is closed; and whatever lowering comes to,
it leaves behind what it owes. -/
theorem lowering_respects_rules (program : Program) (options : Options) (map : Option SourceMap)
    (hsize : program.nodes < 2 ^ 24) :
    (∀ error, program.build options map = .error error → error.IsProgramFault) ∧
      (∀ level b, Completes program options map level b →
        b.enclosing.length = level ∧ b.current.Complete) ∧
      ∀ c b held b', Reaches program options map c b → c.lower b = .ok held b' →
        c.Honours b held b' := by
  refine ⟨?_, fun level b hcompletes => hcompletes.complete hsize,
    fun c b held b' hreaches hrun => (hreaches.fits hsize).honours hrun⟩
  intro error herror
  have hensures : program.lowering.Ensures (.start options map) fun _ b =>
    b.Ready ∧ b.enclosing = [] ∧ b.current.Done := lowering_ensures hsize
  rw [build_eq] at herror
  split at herror
  · next error' after hrun =>
    injection herror with herror
    rw [← herror]
    exact hensures.of_error hrun
  · next b hrun =>
    obtain ⟨hready, henclosing, hdone⟩ := hensures.of_ok hrun
    obtain ⟨main, hfinish, -⟩ := finish_lowered hready henclosing hdone program.endLine
    simp [hfinish, bind, Except.bind] at herror

/-- The local of a function is a parameter's value, and a loop on it is left at once. -/
def copiedParameter : StmtForm :=
  .declare "x" (some (.of (.name "a")))

def leftLoop : StmtForm :=
  .whileLoop (.of (.name "x")) [.of .breakLoop]

def leavingBody : List Stmt :=
  [.of copiedParameter, .of leftLoop, .of (.ret (some (.of (.name "x"))))]

def leaving : Program :=
  of [.of (.function "f" ⟨["a"], leavingBody, 0⟩)]

def beforeLeaving : ChunkBuilder :=
  (ChunkBuilder.onCurrent (FunctionBuilder.bindLocal "f")).after (.start {} none)

def insideLeaving : ChunkBuilder :=
  Action.after (do
    modify (ChunkBuilder.openFunction "f" 0)
    ["a"].forM fun param => do
      let _ ← ChunkBuilder.onCurrent (FunctionBuilder.bindParameter param)) beforeLeaving

def afterCopy : ChunkBuilder :=
  (statement (.of copiedParameter)).after insideLeaving

def enterLeft : Lower Unit := do
  ChunkBuilder.onCurrent (modify (FunctionBuilder.openLoop (some afterCopy.current.pc)))
  let _ ← jumpUnless (expr (.of (.name "x")) none)
  inScope "while" (statements [.of .breakLoop])

theorem reaches_leaving :
    Reaches leaving {} none (.closure ⟨["a"], leavingBody, 0⟩ "f" 0 0) beforeLeaving := by
  have hbind : (ChunkBuilder.onCurrent (FunctionBuilder.bindLocal "f")).value?
      (.start {} none) = some 0 := by decide +kernel
  exact ((Reaches.start.step .first).step (.located rfl)).step
    (.localFunction (value?_eq_some hbind))

theorem reaches_leavingBody :
    Reaches leaving {} none (.statements leavingBody) insideLeaving := by
  have henter : Action.value? (do
      modify (ChunkBuilder.openFunction "f" 0)
      ["a"].forM fun param => do
        let _ ← ChunkBuilder.onCurrent (FunctionBuilder.bindParameter param)) beforeLeaving =
      some () := by decide +kernel
  exact reaches_leaving.step (.functionBody (value?_eq_some henter))

/-- The local is in the register that the value of the parameter was moved to, and both the
test and the break of the loop go behind it. -/
theorem lowering_respects_rules_leaving :
    (∃ main map, leaving.build {} none = .ok (main, map)) ∧
      (∃ b, Completes leaving {} none 1 b ∧ b.current.Complete ∧ b.current.pc = 7) ∧
      (∃ b, statementForm {} copiedParameter insideLeaving = .ok () b ∧
        insideLeaving.current.Installs "x" b.current ∧ b.current.scopes.register? "x" = some 1) ∧
      ∃ b, statementForm {} leftLoop afterCopy = .ok () b ∧ b.current.JumpsTo 2 5 ∧
        b.current.JumpsTo 3 5 ∧ b.current.JumpsTo 4 1 := by
  obtain ⟨-, hcomplete, hhonours⟩ := lowering_respects_rules leaving {} none (by decide)
  refine ⟨?_, ?_, ?_, ?_⟩
  · have hok : (leaving.build {} none).isOk = true := by decide +kernel
    cases hbuild : leaving.build {} none with
    | ok result => exact ⟨result.1, result.2, rfl⟩
    | error error =>
      rw [hbuild] at hok
      cases hok
  · have hcode : (functionCode ["a"] (statements leavingBody) "f" 0).value? beforeLeaving =
        some () := by decide +kernel
    have hlevel : beforeLeaving.enclosing.length + 1 = 1 := by decide +kernel
    have hcompletes : Completes leaving {} none (beforeLeaving.enclosing.length + 1) _ :=
      .nested reaches_leaving (value?_eq_some hcode)
    rw [hlevel] at hcompletes
    exact ⟨_, hcompletes, (hcomplete _ _ hcompletes).2, by decide +kernel⟩
  · have hcopy : (Construct.form {} copiedParameter).lower.value? insideLeaving = some [] := by
      decide +kernel
    have hreaches : Reaches leaving {} none (.form {} copiedParameter) insideLeaving :=
      (reaches_leavingBody.step .first).step (.located rfl)
    have howed := hhonours _ _ _ _ hreaches (value?_eq_some hcopy)
    exact ⟨_, Construct.lower_form_eq_ok (value?_eq_some hcopy), howed.declares "x" rfl,
      by decide +kernel⟩
  · have hcopy : (statement (.of copiedParameter)).value? insideLeaving = some () := by
      decide +kernel
    have hloop : (Construct.form {} leftLoop).lower.value? afterCopy = some [] := by
      decide +kernel
    have hpc : ((Construct.form {} leftLoop).lower.after afterCopy).current.pc = 5 := by
      decide +kernel
    have hreaches : Reaches leaving {} none (.form {} leftLoop) afterCopy :=
      ((reaches_leavingBody.step (.rest (value?_eq_some hcopy))).step .first).step (.located rfl)
    have howed := hhonours _ _ _ _ hreaches (value?_eq_some hloop)
    have htest : Action.value? (do
        ChunkBuilder.onCurrent (modify (FunctionBuilder.openLoop (some afterCopy.current.pc)))
        jumpUnless (expr (.of (.name "x")) none)) afterCopy = some 2 := by decide +kernel
    have hbody : enterLeft afterCopy = .ok () (enterLeft.after afterCopy) :=
      value?_eq_some (by decide +kernel)
    have hparked : (enterLeft.after afterCopy).current.loops.stack = [⟨some 1, [3], []⟩] := by
      decide +kernel
    have hout := howed.jumps _ _ (.outOfLoop (value?_eq_some htest))
    have hbreak := howed.jumps 3 _ (.parked hbody hparked (by decide))
    have hagain := howed.jumps 4 _ (.again (by rw [hpc]))
    rw [hpc] at hout hbreak
    have hhead : afterCopy.current.pc = 1 := by decide +kernel
    rw [hhead] at hagain
    exact ⟨_, Construct.lower_form_eq_ok (value?_eq_some hloop), hout, hbreak, hagain⟩

end Program

end RegisterCode
