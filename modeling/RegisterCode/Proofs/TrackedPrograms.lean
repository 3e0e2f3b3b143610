import Mathlib.Algebra.Group.Nat.Defs
import RegisterCode.Proofs.TrackedStatements

/-! Functions inside functions, and lowering as a whole. A function starts with nothing set
but its parameters; when it is finished, what it shares with the function around it are
locals there. No code of a lowered program reads a register that is not set. -/
namespace RegisterCode

open Action

namespace FunctionBuilder

variable {f f' : FunctionBuilder} {i : Instruction}

structure Blank (f : FunctionBuilder) : Prop extends Fresh f where
  children : f.children = #[]
  params : f.paramCount.toNat = f.scopes.count

theorem blank_start (name : String) (outerLevel : Option Nat) (firstLine line : UInt32) :
    ((start name outerLevel firstLine).setLine line).Blank where
  toFresh := fresh_start name outerLevel firstLine line
  children := rfl
  params := rfl

theorem blank_root (name : String) : (root name).Blank where
  toFresh := fresh_root name
  children := rfl
  params := rfl

theorem bindParameter_blank (h : f.Blank) (name : String) :
    (bindParameter name).Promises f fun _ f' => f'.Blank ∧ f'.upvalues = f.upvalues := by
  refine ⟨fun {_ f'} hrun => ?_⟩
  have hfresh := (bindParameter_ensures h.toFresh name).of_ok hrun
  obtain ⟨_, _, hget, hrun⟩ := bind_eq_ok.mp hrun
  obtain ⟨rfl, rfl⟩ := get_eq_ok.mp hget
  obtain ⟨register, f₁, hbind, hrun⟩ := bind_eq_ok.mp hrun
  obtain ⟨-, hlt, -, rfl⟩ := (bindName_ensures h.sound name _).of_ok hbind
  obtain ⟨_, f₂, hcounted, hreturn⟩ := bind_eq_ok.mp hrun
  cases hcounted
  obtain ⟨-, rfl⟩ := pure_eq_ok.mp hreturn
  have hcount : f.scopes.count < 255 := Nat.lt_of_le_of_lt h.sound.count_le hlt
  have hparams : (f.paramCount + 1).toNat = f.scopes.count + 1 := by
    rw [UInt8.toNat_add, h.params]
    exact Nat.mod_eq_of_lt (Nat.succ_lt_succ hcount)
  exact ⟨⟨hfresh, h.children, hparams.trans (count_withLocal h.sound _).symm⟩, rfl⟩

theorem Blank.tracked (h : f.Blank) : f.Tracked where
  closed := by
    rw [h.listing]
    rintro k next ⟨i, hat, -⟩
    simp at hat
  supplied := by
    rw [h.listing]
    intro k i hat
    simp at hat
  children := by simp [h.children]
  homes := by simp [Loops.heads, h.loops]

theorem Blank.isSet_of_local (h : f.Blank) {k r : Nat} (hr : r ∈ f.scopes.registers) :
    f.IsSet k r := by
  rw [h.sound.registers, List.mem_range, ← h.params] at hr
  exact .of_params hr

theorem Tracked.closure (h : f.Tracked) {child : Prototype} {target : UInt8}
    (hchild : ∀ p : Prototype, p.Within child → p.Supplied)
    (hshared : ∀ up ∈ child.upvalues, up.inStack = true →
      f.IsSet f.pc up.index.toNat ∨ target.toNat = up.index.toNat)
    (hadopts : f' = { f with children := f.children.push child })
    (hmakes : i = f.stamped { op := .closure, a := target.toNat, b := f.children.size, c := 0 }) :
    f.Carries (f'.placed [i]) ∧ (f'.placed [i]).Tracked ∧
      (f'.placed [i]).IsSet (f'.placed [i]).pc target.toNat := by
  have hlisting : f'.listing = f.listing := by rw [hadopts]; rfl
  have hparams : f'.paramCount = f.paramCount := by rw [hadopts]
  have hcarries : f.Carries f' := .of_same hparams hlisting
  have htracked : f'.Tracked := by
    refine h.adopt hparams hlisting ?_ ?_ ?_
    · simp [hadopts]
    · intro other hother
      rw [hadopts, Array.toList_push, List.mem_append, List.mem_singleton] at hother
      rcases hother with hold | rfl
      · exact h.children other hold
      · exact hchild
    · rw [hadopts]
  have hsupplies : f'.Supplies f'.pc i := by
    rw [hmakes]
    refine ⟨fun r hr => False.elim hr, fun _ => ⟨child, by simp [hadopts, stamped], ?_⟩⟩
    intro up hup hstack
    exact (hshared up hup hstack).imp hcarries.at_end fun hsame => congrArg Nat.cast hsame
  have hfalls : i.Falls := by
    rw [hmakes]
    exact Instruction.falls_of_isPlain (Instruction.isPlain_of_op rfl)
  obtain ⟨hplaced, htracked', hset⟩ := htracked.fall hfalls hsupplies
  refine ⟨hcarries.trans hplaced, htracked', ?_⟩
  rw [pc_placed]
  exact hset _ (by rw [hmakes]; rfl)

end FunctionBuilder

namespace ChunkBuilder
open FunctionBuilder

variable {b b' : ChunkBuilder}

theorem tracks_of_blank (hready : b.Ready) (hblank : b.current.Blank)
    (hanchored : Anchored b.current.upvalues b.enclosing) : b.Tracks :=
  ⟨hready, hblank.tracked, hanchored, fun _ hr => hblank.isSet_of_local hr⟩

/-- All locals are set but perhaps the one that a closure is about to be put in. -/
structure TracksBut (target : Nat) (b : ChunkBuilder) : Prop where
  ready : b.Ready
  tracked : b.current.Tracked
  anchored : Anchored b.current.upvalues b.enclosing
  locals : ∀ r ∈ b.current.scopes.registers, b.current.IsSet b.current.pc r ∨ target = r

theorem Tracks.but (h : b.Tracks) (target : Nat) : b.TracksBut target :=
  ⟨h.ready, h.tracked, h.anchored, fun r hr => .inl (h.locals r hr)⟩

theorem TracksBut.captured {target : Nat} {outer : FunctionBuilder} (h : b.TracksBut target)
    (houter : b.current.Captures outer) :
    b.current.Carries outer ∧ outer.Tracked ∧
      ∀ r ∈ outer.scopes.registers, outer.IsSet outer.pc r ∨ target = r := by
  obtain ⟨captured, rfl⟩ : ∃ captured,
    outer = { b.current with upvalues := b.current.upvalues ++ captured } := houter
  exact ⟨.of_same rfl rfl, h.tracked.of_same rfl rfl rfl rfl, h.locals⟩

theorem closeFunction_eq {lastLine : UInt32} {index : Nat} {outer : FunctionBuilder}
    {rest : List FunctionBuilder} (henclosing : b.enclosing = outer :: rest)
    (hrun : closeFunction lastLine b = .ok index b') :
    ∃ child, b.current.finish lastLine = .ok child ∧ index = outer.children.size ∧
      b' = { b with
        current := { outer with children := outer.children.push child }, enclosing := rest } := by
  unfold closeFunction at hrun
  simp only [henclosing] at hrun
  cases hfinish : b.current.finish lastLine with
  | error error => simp [hfinish] at hrun
  | ok child =>
    simp only [hfinish] at hrun
    obtain ⟨f, hadd, rfl⟩ := Lower.onCurrent_eq_ok.mp hrun
    unfold addChild at hadd
    dsimp only at hadd
    split at hadd
    · injection hadd with hindex hstate
      exact ⟨child, rfl, hindex.symm, by rw [← hstate]⟩
    · simp at hadd

end ChunkBuilder

namespace Lower
open ChunkBuilder FunctionBuilder

variable {b b' : ChunkBuilder} {weight : Nat} {body : Lower Unit} {closure : UInt8 → Lower Unit}

theorem parameters_blank (params : List String) (h : b.current.Blank) :
    (params.forM fun param => do
      let _ ← onCurrent (FunctionBuilder.bindParameter param)).Promises b fun _ b' =>
        ∃ f : FunctionBuilder, f.Blank ∧ f.upvalues = b.current.upvalues ∧
          b' = { b with current := f } := by
  induction params generalizing b with
  | nil => exact promises_pure ⟨b.current, h, rfl, rfl⟩
  | cons param rest ih =>
    rw [List.forM_eq_forM, List.forM_cons, bind_assoc]
    refine ⟨fun {_ b'} hrun => ?_⟩
    obtain ⟨_, b₁, hbind, hrun⟩ := bind_eq_ok.mp hrun
    obtain ⟨f, hbound, rfl⟩ := onCurrent_eq_ok.mp hbind
    obtain ⟨hblank, hupvalues⟩ := (bindParameter_blank h param).of_ok hbound
    obtain ⟨f', hblank', hupvalues', rfl⟩ := (ih hblank).of_ok hrun
    exact ⟨f', hblank', hupvalues'.trans hupvalues, rfl⟩

/-- A function is built, and a closure of it is put in a register, that of one of the locals
in sight perhaps. -/
structure Closing (weight : Nat) (closure : UInt8 → Lower Unit) : Prop where
  balancing : ∀ target, Balancing weight (closure target)
  retains : ∀ (target : UInt8) (b : ChunkBuilder), b.TracksBut target.toNat →
    b.current.Room weight → (closure target).Promises b fun _ b' => b.Retains b' ∧
      b'.current.IsSet b'.current.pc target.toNat

theorem Closing.writing (h : Closing weight closure) : Writing weight closure where
  balancing := h.balancing
  retains := fun target b hb hroom => h.retains target b (hb.but _) hroom

/-- What a finished function shares with the one around it are locals there, and these are
set, or the closure is put in one of them. -/
theorem close_retains {inner : ChunkBuilder} {target : UInt8} {lastLine : UInt32}
    (hb : b.TracksBut target.toNat) (hinner : inner.Tracks)
    (henclosing : List.Forall₂ Captures (b.current :: b.enclosing) inner.enclosing)
    (hrun : (do
      let index ← closeFunction lastLine
      emit .closure target.toNat index 0) inner = .ok () b') (hready : b'.Ready) :
    b.Retains b' ∧ b'.current.IsSet b'.current.pc target.toNat := by
  obtain ⟨outer, rest, houter, -, hsplit⟩ := List.forall₂_cons_left_iff.mp henclosing
  obtain ⟨index, b₁, hclose, hemit⟩ := bind_eq_ok.mp hrun
  obtain ⟨child, hfinish, rfl, rfl⟩ := closeFunction_eq hsplit hclose
  obtain ⟨-, rfl⟩ := (emit_ensures _ _ _ _ _).of_ok hemit
  obtain ⟨hcaptured, htracked, hlocals⟩ := hb.captured houter
  have hanchored := hinner.anchored
  rw [hsplit] at hanchored
  have hupvalues : child.upvalues = inner.current.upvalues := by
    obtain ⟨words, -, -, rfl⟩ := prototype_of_finish hfinish
    rfl
  have hchild : ∀ p : Prototype, p.Within child → p.Supplied := fun p hwithin =>
    hinner.tracked.supplied_of_finish hinner.ready.sound hfinish hwithin
  have hshared : ∀ up ∈ child.upvalues, up.inStack = true →
      outer.IsSet outer.pc up.index.toNat ∨ target.toNat = up.index.toNat := by
    rw [hupvalues]
    exact fun up hup hstack => hlocals _ (hanchored.1 up hup hstack)
  -- from here on the closure's own register is set like all others
  obtain ⟨hcarries, htracked', hset⟩ := htracked.closure hchild hshared rfl rfl
  refine ⟨⟨hcaptured.trans hcarries, hready, htracked', hanchored.2, fun r hr => ?_⟩, hset⟩
  rcases hlocals r hr with hold | rfl
  · exact hcarries.at_end hold
  · exact hset

theorem functionInto_closing (hbody : Keeping weight body) (params : List String) (name : String)
    (line lastLine : UInt32) :
    Closing (weight + 16) (functionInto params body name line lastLine) where
  balancing := functionInto_balancing hbody.advancing params name line lastLine
  retains := by
    intro target b hb hroom
    have hensures := functionInto_balancing hbody.advancing params name line lastLine target b
      hb.ready hroom
    refine ⟨fun {_ b'} hrun => ?_⟩
    have hready := (hensures.of_ok hrun).ready hb.ready
    have hle : weight + 1 ≤ capacity := by
      have := hroom.1
      omega
    obtain ⟨_, b₀, hopen, hrun⟩ := bind_eq_ok.mp hrun
    cases hopen
    obtain ⟨_, b₁, hparams, hrun⟩ := bind_eq_ok.mp hrun
    have hblank := blank_start name (some b.level) line b.current.line
    obtain ⟨f, hblank₁, hupvalues, rfl⟩ := (parameters_blank params hblank).of_ok hparams
    rw [← bind_assoc] at hrun
    obtain ⟨_, b₂, hlower, hrun⟩ := bind_eq_ok.mp hrun
    have hready₁ : Ready { openFunction name line b with current := f } :=
      ⟨hblank₁.sound, hb.ready.environment⟩
    -- nothing is captured yet, so nothing that is captured can be unset
    have hanchored : Anchored f.upvalues (b.current :: b.enclosing) := by
      rw [hupvalues]
      exact ⟨fun _ hup => absurd hup List.not_mem_nil, hb.anchored⟩
    have hbegun := tracks_of_blank hready₁ hblank₁ hanchored
    obtain ⟨-, haround, -⟩ :=
      (body_ensures hbody.advancing hready₁ hblank₁.toFresh hle).of_ok hlower
    have hretains := ((keeping_seq hbody returnNothing_keeping).retains _ hbegun hblank₁.atRest
      (hblank₁.room hle)).of_ok hlower
    exact close_retains hb hretains.tracks haround.enclosing hrun hready

/-- The local is there before its function is built, so the function can share it. -/
theorem defineFunction_keeping (h : Closing weight closure) (name : String) :
    Keeping weight (defineFunction name closure) where
  advancing := defineFunction_advancing h.balancing name
  retains := by
    intro b hb hrest hroom
    refine ⟨fun {_ b'} hrun => ?_⟩
    obtain ⟨register, b₁, hbind, hclosure⟩ := bind_eq_ok.mp hrun
    have hcapacity : b.current.pc ≤ capacity := Nat.le_trans (Nat.le_add_right _ _) hroom.1
    obtain ⟨f', hbound, rfl⟩ := onCurrent_eq_ok.mp hbind
    obtain ⟨-, hlocal⟩ := (bindLocal_ensures hb.ready.sound hrest hcapacity name).of_ok hbound
    have hready := (advances_withCurrent hlocal).ready hb.ready
    have hroom' : f'.Room weight := hlocal.room hroom (by omega)
    obtain ⟨-, -, -, rfl⟩ :=
      (bindName_ensures hb.ready.sound name (.ofNat b.current.pc)).of_ok hbound
    have hbut : TracksBut register.toNat { b with
        current := b.current.withLocal { name, register, startPc := .ofNat b.current.pc } } := {
      ready := hready
      tracked := hb.tracked.of_same rfl rfl rfl rfl
      anchored := hb.anchored
      locals := by
        intro r hr
        rw [registers_withLocal hb.ready.sound] at hr
        rcases List.mem_append.mp hr with hold | hnew
        · exact .inl (hb.locals r hold)
        · exact .inr (List.mem_singleton.mp hnew).symm }
    obtain ⟨hretains, -⟩ := (h.retains register _ hbut hroom').of_ok hclosure
    exact ⟨hretains.carries.from_same rfl rfl, hretains.tracks⟩

theorem supplied : StmtRules (fun e => Setting (16 * e.nodes))
    (fun args => Stacked (16 * Expr.listNodes args))
    (fun f closure => ∀ name line, Closing (16 * (f.nodes + 1)) (closure name line))
    (fun _ form => Keeping (16 * (form.nodes + 1))) (fun stmt => Keeping (16 * stmt.nodes))
    (fun body => Keeping (16 * Stmt.listNodes body)) where
  nil := Setting.weaken (setting_immediate rfl fun _ => trivial) (by rw [Expr.nodes]; omega)
  boolean v := Setting.weaken (setting_immediate rfl fun _ => trivial) (by rw [Expr.nodes]; omega)
  integer v := (setting_constant _).weaken (by rw [Expr.nodes]; omega)
  number v := (setting_constant _).weaken (by rw [Expr.nodes]; omega)
  string v := (setting_constant _).weaken (by rw [Expr.nodes]; omega)
  name name := (setting_name name).weaken (by rw [Expr.nodes]; omega)
  unary op hoperand := by
    rw [Expr.nodes, ExprForm.nodes]
    exact (inPlace_setting (unaryInto_writing hoperand op)).weaken (by omega)
  binary op hleft hright := by
    rw [Expr.nodes, ExprForm.nodes]
    exact (inPlace_setting (binaryInto_writing hleft hright op)).weaken (by omega)
  logical op hleft hright := by
    rw [Expr.nodes, ExprForm.nodes]
    exact (inPlace_setting (logicalInto_writing hleft hright op)).weaken (by omega)
  assign name hstored := by
    rw [Expr.nodes, ExprForm.nodes]
    exact (inPlace_setting (assignInto_writing hstored name _)).weaken (by omega)
  call hcallee hargs := by
    rw [Expr.nodes, ExprForm.nodes]
    exact (inPlace_setting (callInto_writing hcallee hargs)).weaken (by omega)
  function hclosure := by
    rw [Expr.nodes, ExprForm.nodes]
    exact inPlace_setting (hclosure _ _).writing
  tuple _ := setting_throw trivial
  object _ := setting_throw trivial
  noArgs := stacked_nil
  moreArgs hactual hrest := by
    rw [Expr.listNodes, Nat.mul_add]
    exact stacked_cons hactual hrest
  closure params endLine hbody name line := by
    rw [FunctionLiteral.nodes, Nat.mul_add]
    exact functionInto_closing hbody params name line _
  declareNil name := (declareLocal_keeping writing_nil name).weaken (by omega)
  declare name hinit := by
    rw [StmtForm.nodes]
    exact (declareLocal_keeping hinit.writing name).weaken (by omega)
  callStatement hcallee hargs := by
    rw [StmtForm.nodes, Expr.nodes, ExprForm.nodes]
    exact (callStatement_keeping hcallee hargs).weaken (by omega)
  assignStatement name hstored := by
    rw [StmtForm.nodes, Expr.nodes, ExprForm.nodes]
    exact (discard_keeping (store_offering hstored name _)).weaken (by omega)
  discard _ _ hvalue := by
    rw [StmtForm.nodes]
    exact (discard_keeping hvalue.offering).weaken (by omega)
  define name hclosure := by
    rw [StmtForm.nodes]
    exact defineFunction_keeping (hclosure _ _) name
  returnNothing := returnNothing_keeping.weaken (by omega)
  returnValue hvalue := by
    rw [StmtForm.nodes]
    exact (returnValue_keeping hvalue.offering).weaken (by omega)
  deadBranch _ hbody := by
    rw [StmtForm.nodes]
    exact (deadBranch_keeping hbody keeping_skip).weaken (by omega)
  deadBranchElse _ hbody hotherwise := by
    rw [StmtForm.nodes]
    exact (deadBranch_keeping hbody (inScope_keeping hotherwise "else")).weaken (by omega)
  branch _ hcondition hbody := by
    rw [StmtForm.nodes]
    exact (branch_keeping hcondition.offering hbody).weaken (by omega)
  branchElse _ hcondition hbody hotherwise := by
    rw [StmtForm.nodes]
    exact (branchElse_keeping hcondition.offering hbody hotherwise).weaken (by omega)
  whileLoop hcondition hbody := by
    rw [StmtForm.nodes]
    exact (whileLoop_keeping hcondition.offering hbody).weaken (by omega)
  breakLoop := breakLoop_keeping.weaken (by omega)
  continueLoop := continueLoop_keeping.weaken (by omega)
  block hbody := by
    rw [StmtForm.nodes]
    exact (inScope_keeping hbody "block").weaken (by omega)
  classDecl _ := throw_keeping trivial
  tryBlock _ := throw_keeping trivial
  located hform := by
    rw [Stmt.nodes]
    exact (keeping_seq (locateKnown_keeping _) hform).weaken (by omega)
  empty := keeping_skip
  sequence hfirst hrest := by
    rw [Stmt.listNodes, Nat.mul_add]
    exact keeping_seq hfirst hrest

end Lower

namespace Program
open ChunkBuilder FunctionBuilder

variable {program : Program} {options : Options} {map : Option SourceMap}

theorem tracks_start : Tracks (.start options map) :=
  tracks_of_blank ready_start (blank_root options.chunkName) trivial

theorem lowering_tracks (hsize : program.nodes < 2 ^ 24) :
    program.lowering.Promises (.start options map) fun _ b => b.Tracks := by
  have hblank := blank_root options.chunkName
  have hle : 16 * Stmt.listNodes program.body + 1 ≤ capacity := by
    unfold capacity
    unfold nodes at hsize
    omega
  have hkeeping := Lower.keeping_seq (Lower.supplied.holds_statements program.body)
    Lower.returnNothing_keeping
  exact (hkeeping.retains _ tracks_start hblank.atRest (hblank.room hle)).mono
    fun _ _ hretains => hretains.tracks

theorem supplied_of_build (hsize : program.nodes < 2 ^ 24) {main : Prototype}
    {map' : Option SourceMap} (hbuild : program.build options map = .ok (main, map'))
    {p : Prototype} (hwithin : p.Within main) : p.Supplied := by
  rw [build_eq] at hbuild
  split at hbuild
  · simp at hbuild
  · next b hrun =>
    have htracks := (lowering_tracks hsize).of_ok hrun
    obtain ⟨-, henclosing, -⟩ := (lowering_ensures hsize).of_ok hrun
    obtain ⟨main', hfinish, hpair⟩ := except_bind_eq_ok.mp hbuild
    injection hpair with hpair
    injection hpair with hsame
    subst hsame
    rw [ChunkBuilder.finish, henclosing] at hfinish
    obtain ⟨whole, hwhole, hnamed⟩ := except_bind_eq_ok.mp hfinish
    injection hnamed with hnamed
    subst hnamed
    have hall : ∀ q : Prototype, q.Within whole → q.Supplied := fun q hq =>
      htracks.tracked.supplied_of_finish htracks.ready.sound hwhole hq
    cases hwithin with
    | self => exact hall whole (.self whole)
    | nested hchild hinner => exact hall p (.nested hchild hinner)

/-- In a program that is accepted, every register that an instruction reads is a parameter
or was written on the way to the instruction, and so is every register that a closure
shares, or it is the one that the closure is put in. -/
theorem registers_set_of_build (program : Program) (options : Options) (map : Option SourceMap)
    (hsize : program.nodes < 2 ^ 24) {main : Prototype} {map' : Option SourceMap}
    (hbuild : program.build options map = .ok (main, map')) {p : Prototype}
    (hwithin : p.Within main) :
    ∃ code, p.code.mapM Instruction.decode = .ok code ∧
      ∀ before k i, Arrives code before k → code[k]? = some i →
        (∀ r, i.Reads r → r < p.paramCount.toNat ∨ ∃ j ∈ before, WritesAt code r j) ∧
        ∀ r, p.SharesAt code k r →
          r < p.paramCount.toNat ∨ (∃ j ∈ before, WritesAt code r j) ∨ i.a = r := by
  obtain ⟨code, hcode, hall⟩ := supplied_of_build hsize hbuild hwithin
  refine ⟨code, hcode, fun before k i harrives hat => ?_⟩
  obtain ⟨hreads, hshares⟩ := hall k i hat
  refine ⟨fun r hr => hreads r hr before harrives, fun r hr => ?_⟩
  rcases hshares r hr with hset | htarget
  · exact (hset before harrives).imp_right .inl
  · exact .inr (.inr htarget)

/-- A loop that makes a closure each time around, of a function that shares its own name's
register and that of a variable outside of the loop. -/
def closureInLoop : Program :=
  .of [.of (.declare "x" none), .of (.whileLoop (.of (.name "x"))
    [.of (.function "g" ⟨[], [.of (.ret (some (.of (.logical .and (.of (.name "g"))
      (.of (.name "x"))))))], 0⟩),
      .of (.branch (.of (.name "g")) [.of .breakLoop] none)]),
    .of (.ret (some (.of (.name "x"))))]

def closureLoopCode : List Instruction :=
  [{ op := .loadNil }, { op := .test }, { op := .jmp, b := 5 }, { op := .closure, a := 1 },
    { op := .test, a := 1 }, { op := .jmp, b := 1 }, { op := .jmp, b := 1 },
    { op := .jmp, b := -7 }, { op := .ret, b := 2 }, { op := .ret, b := 1 }]

/-- The variable is set for the closure, and still for the return once around the loop and
out of it. -/
theorem registers_set_of_build_loop :
    ∃ main map, closureInLoop.build {} none = .ok (main, map) ∧
      main.code.mapM Instruction.decode = .ok closureLoopCode ∧
      main.SharesAt closureLoopCode 3 0 ∧ Arrives closureLoopCode [1, 0] 3 ∧
      Arrives closureLoopCode [2, 1, 7, 5, 4, 3, 1, 0] 8 ∧
      (∃ j ∈ [1, 0], WritesAt closureLoopCode 0 j) ∧
      ∃ j ∈ [2, 1, 7, 5, 4, 3, 1, 0], WritesAt closureLoopCode 0 j := by
  have hcompiles : closureInLoop.compilesTo closureLoopCode [⟨"g", true, 1⟩, ⟨"x", true, 0⟩]
    [⟨"x", 1, 10⟩, ⟨"g", 3, 7⟩] = true := by decide +kernel
  obtain ⟨main, map, child, hbuild, hcode, hchild, hcaptured, -⟩ := exists_of_compilesTo hcompiles
  have hparams : (closureInLoop.build {} none).toOption.map (·.1.paramCount) = some 0 := by
    decide +kernel
  rw [hbuild] at hparams
  have hnone : main.paramCount = 0 := Option.some.inj hparams
  have hshares : main.SharesAt closureLoopCode 3 0 :=
    ⟨{ op := .closure, a := 1 }, child, ⟨"x", true, 0⟩, rfl, rfl, by simp [hchild],
      by simp [hcaptured], rfl, rfl⟩
  have hmade : Arrives closureLoopCode [1, 0] 3 :=
    .step (.step .start ⟨{ op := .loadNil }, rfl, rfl⟩) ⟨{ op := .test }, rfl, .inr rfl⟩
  have hback : Arrives closureLoopCode [7, 5, 4, 3, 1, 0] 1 :=
    .step (.step (.step (.step hmade ⟨{ op := .closure, a := 1 }, rfl, rfl⟩)
      ⟨{ op := .test, a := 1 }, rfl, .inl rfl⟩) ⟨{ op := .jmp, b := 1 }, rfl, rfl⟩)
      ⟨{ op := .jmp, b := -7 }, rfl, rfl⟩
  have hleft : Arrives closureLoopCode [2, 1, 7, 5, 4, 3, 1, 0] 8 :=
    .step (.step hback ⟨{ op := .test }, rfl, .inl rfl⟩) ⟨{ op := .jmp, b := 5 }, rfl, rfl⟩
  obtain ⟨code, hcode', hall⟩ :=
    registers_set_of_build closureInLoop {} none (by decide) hbuild (.self main)
  rw [hcode] at hcode'
  injection hcode' with hsame
  subst hsame
  rw [hnone] at hall
  refine ⟨main, map, hbuild, hcode, hshares, hmade, hleft, ?_, ?_⟩
  · rcases (hall _ 3 _ hmade rfl).2 0 hshares with hparam | hset | htarget
    · exact absurd hparam (Nat.not_lt_zero 0)
    · exact hset
    · exact absurd htarget (by decide)
  · have hreads : Instruction.Reads { op := .ret, b := 2 } 0 := ⟨Int.le_refl 0, fun _ => by decide⟩
    exact ((hall _ 8 _ hleft rfl).1 0 hreads).resolve_left (Nat.not_lt_zero 0)

end Program

end RegisterCode
