import RegisterCode.Proofs.StatementForms

/-! Functions that are done. A function whose statements are behind it is always
accepted, and its words then stand for code that flows. -/
namespace RegisterCode

open Action

namespace Instruction

theorem mapM_encode (code : List Instruction) (h : ∀ i ∈ code, ∃ word, i.encode = .ok word) :
    ∃ words, code.mapM encode = .ok words ∧ words.mapM decode = .ok (code.map kept) ∧
      words.length = code.length := by
  induction code with
  | nil => exact ⟨[], rfl, rfl, rfl⟩
  | cons i rest ih =>
    obtain ⟨word, hword⟩ := h i (by simp)
    obtain ⟨words, hencoded, hdecoded, hlength⟩ := ih fun j hj => h j (by simp [hj])
    refine ⟨word :: words, ?_, ?_, by simp [hlength]⟩
    · rw [List.mapM_cons, hword, hencoded]
      rfl
    · rw [List.mapM_cons, decode_encode hword, hdecoded]
      rfl

end Instruction

namespace Scopes

def finalLog (scopes : Scopes) (pc : UInt32) : List LocalRange :=
  scopes.locals.map (Local.range pc) ++ scopes.log

theorem inside_of_mem_finalLog {scopes : Scopes} {size : Nat}
    (hsize : (UInt32.ofNat size).toNat = size)
    (hstarted : ∀ l ∈ scopes.locals, l.startPc.toNat ≤ size ∧ l.endPc = none)
    (hlogged : ∀ range ∈ scopes.log, range.Inside size) {range : LocalRange}
    (h : range ∈ scopes.finalLog (.ofNat size)) : range.Inside size := by
  rcases List.mem_append.mp h with hopen | hold
  · obtain ⟨l, hl, rfl⟩ := List.mem_map.mp hopen
    obtain ⟨hstart, hend⟩ := hstarted l hl
    simp only [LocalRange.Inside, Local.range, hend, Option.getD_none, hsize]
    exact ⟨hstart, Nat.le_refl size⟩
  · exact hlogged range hold

end Scopes

namespace FunctionBuilder

variable {f : FunctionBuilder}

def prototype (words : List UInt32) (lastLine : UInt32) (f : FunctionBuilder) : Prototype where
  firstLine := f.firstLine
  lastLine
  paramCount := f.paramCount
  isVararg := f.isVararg
  stackSize := .ofNat f.highWater
  code := words
  lines := f.code.lines
  constants := f.constants.toList
  upvalues := f.upvalues
  children := f.children.toList
  locals := f.scopes.finalLog (.ofNat f.pc)

theorem closeOwnScope_eq_ok (h : f.scopes.depth ≤ 1) :
    ∃ nextFree, f.closeOwnScope = .ok { f with
      scopes := ⟨[], f.scopes.finalLog (.ofNat f.pc)⟩
      nextFree } := by
  unfold closeOwnScope Scopes.depth Scopes.finalLog Scopes.locals at *
  match hstack : f.scopes.stack with
  | [] =>
    refine ⟨f.nextFree, ?_⟩
    have hscopes : f.scopes = ⟨[], f.scopes.log⟩ := by rw [← hstack]
    simp only [List.length_nil, Nat.zero_ne_one, ↓reduceIte, List.flatMap_nil, List.map_nil,
      List.nil_append]
    rw [← hscopes]
  | [scope] =>
    rw [closeScope_apply hstack]
    simp only [List.length_singleton, ↓reduceIte, List.flatMap_cons, List.flatMap_nil,
      List.append_nil]
    exact ⟨_, rfl⟩
  | _ :: _ :: _ => simp [hstack] at h

/-- The own scope is closed without fail, so a function that is complete is refused only for
its words and for the size of its stack. -/
theorem finish_eq (f : FunctionBuilder) (lastLine : UInt32) :
    f.finish lastLine =
      match f.unfinished? with
      | some violation => .error (.discipline violation)
      | none => f.code.words >>= fun words =>
        if f.highWater < 256 then .ok (f.prototype words lastLine)
        else .error (.outOfRange ⟨"stack size", .register, f.highWater, 0, 255, lastLine⟩) := by
  unfold finish
  cases hunfinished : f.unfinished? with
  | some violation => rfl
  | none =>
    have hdepth : f.scopes.depth ≤ 1 := by
      unfold unfinished? at hunfinished
      split at hunfinished
      · cases hunfinished
      · omega
    obtain ⟨nextFree, hclosed⟩ := closeOwnScope_eq_ok hdepth
    rw [hclosed]
    rfl

/-- Nothing of the function is open any more but its own scope, and its code ends with
a return. -/
structure Done (f : FunctionBuilder) : Prop where
  size : f.pc ≤ capacity
  scopes : f.scopes.depth = 1
  sections : f.code.sections = []
  loops : f.loops.stack = []
  atRest : f.AtRest
  code : ∃ (code : List Instruction) (ret : Instruction), f.listing = code ++ [ret] ∧
    Instruction.kept ret = { op := .ret, a := 0, b := 1 } ∧ Flow none 0 code []

theorem Done.unfinished? (h : f.Done) (hsound : f.Sound) : f.unfinished? = none := by
  simp [FunctionBuilder.unfinished?, h.scopes, h.sections, h.loops, Loops.anyOpen,
    hsound.temporaries]

theorem finish_eq_ok (h : f.Done) (hsound : f.Sound) {words : List UInt32}
    (hwords : f.listing.mapM Instruction.encode = .ok words) (lastLine : UInt32) :
    f.finish lastLine = .ok (f.prototype words lastLine) := by
  have hcode : f.code.words = .ok words := hwords
  have hhigh : f.highWater < 256 := by
    have := hsound.highWater_le
    unfold maxRegisters at this
    omega
  rw [finish_eq, h.unfinished? hsound]
  simp only [hcode, except_bind_eq_ok, hhigh, ↓reduceIte]
  exact ⟨words, rfl, rfl⟩

theorem isWellFormed_prototype (h : f.Done) {words : List UInt32}
    (hdecoded : words.mapM Instruction.decode = .ok (f.listing.map Instruction.kept))
    (hlength : words.length = f.listing.length) (lastLine : UInt32) :
    (f.prototype words lastLine).IsWellFormed where
  lines := by
    rw [prototype, hlength, Code.lines, List.length_map]
    rfl
  flow := by
    obtain ⟨code, ret, hcode, hret, hflow⟩ := h.code
    refine ⟨_, hdecoded, ?_⟩
    rw [hcode, List.map_append, List.map_singleton, hret]
    exact hflow.kept.controlFlow

theorem finish_wellFormed (h : f.Done) (hsound : f.Sound) (lastLine : UInt32) :
    ∃ p, f.finish lastLine = .ok p ∧ ∀ q : Prototype, q.Within p → q.IsWellFormed := by
  obtain ⟨words, hwords, hdecoded, hlength⟩ := Instruction.mapM_encode f.listing hsound.encodes
  refine ⟨_, finish_eq_ok h hsound hwords lastLine, ?_⟩
  intro q hq
  cases hq with
  | self => exact isWellFormed_prototype h hdecoded hlength lastLine
  | nested hchild hwithin => exact hsound.children _ hchild q hwithin

theorem finish_rangesInside (h : f.Done) (hsound : f.Sound) {lastLine : UInt32} {p : Prototype}
    (hfinish : f.finish lastLine = .ok p) {q : Prototype} (hq : q.Within p) : q.RangesInside := by
  obtain ⟨words, hwords, -, hlength⟩ := Instruction.mapM_encode f.listing hsound.encodes
  rw [finish_eq_ok h hsound hwords] at hfinish
  cases hfinish
  cases hq with
  | self =>
    have hsize : words.length = f.pc := hlength.trans f.length_listing
    intro range hrange
    rw [prototype, hsize]
    exact Scopes.inside_of_mem_finalLog (toNat_ofNat_of_le h.size) hsound.started hsound.logged
      hrange
  | nested hchild hwithin => exact hsound.ranges _ hchild q hwithin

structure Fresh (f : FunctionBuilder) : Prop where
  sound : f.Sound
  atRest : f.AtRest
  listing : f.listing = []
  constants : f.constants.size = 0
  scopes : f.scopes.depth = 1
  sections : f.code.sections = []
  loops : f.loops.stack = []

theorem Fresh.pc (h : f.Fresh) : f.pc = 0 := by
  rw [← length_listing, h.listing]
  rfl

theorem Fresh.room (h : f.Fresh) {weight : Nat} (hle : weight ≤ capacity) : f.Room weight := by
  unfold Room
  rw [h.pc, h.constants]
  omega

theorem fresh_start (name : String) (outerLevel : Option Nat) (firstLine line : UInt32) :
    ((start name outerLevel firstLine).setLine line).Fresh where
  sound := by
    constructor <;>
      simp [start, setLine, Scopes.openScope, Scopes.locals, Scopes.registers, Scopes.count,
        listing, Loops.parked]
  atRest := rfl
  listing := rfl
  constants := rfl
  scopes := rfl
  sections := rfl
  loops := rfl

theorem fresh_root (name : String) : (root name).Fresh :=
  { fresh_start name none 0 0 with
    sound := { (fresh_start name none 0 0).sound with } }

theorem bindParameter_ensures (h : f.Fresh) (name : String) :
    (bindParameter name).Ensures f fun _ f' => f'.Fresh := by
  unfold bindParameter
  apply ensures_get_bind
  apply (bindName_ensures h.sound name _).bind
  rintro register _ ⟨-, hlt, hregister, rfl⟩
  apply ensures_modify_bind
  apply ensures_pure
  have hsound := sound_withLocal h.sound h.atRest hlt
    (l := { name, register, startPc := f.parameterStart }) hregister f.parameterStart_le rfl rfl
  exact {
    sound := { hsound with }
    atRest := atRest_withLocal h.sound h.atRest _
    listing := h.listing
    constants := h.constants
    scopes := by
      rw [withLocal, Scopes.add_eq_gain, Scopes.depth, Scopes.length_gain]
      exact h.scopes
    sections := h.sections
    loops := h.loops }

end FunctionBuilder

namespace Lower
open ChunkBuilder

variable {b b' : ChunkBuilder} {weight : Nat}

theorem parameters_ensures (params : List String) (h : b.current.Fresh) :
    (params.forM fun param => do
      let _ ← onCurrent (FunctionBuilder.bindParameter param)).Ensures b fun _ b' =>
        ∃ f : FunctionBuilder, f.Fresh ∧ b' = { b with current := f } := by
  induction params generalizing b with
  | nil => exact ensures_pure ⟨b.current, h, rfl⟩
  | cons param rest ih =>
    rw [List.forM_eq_forM, List.forM_cons, bind_assoc]
    apply (onCurrent_ensures (FunctionBuilder.bindParameter_ensures h param)).bind
    rintro _ _ ⟨f, hfresh, rfl⟩
    rw [pure_bind]
    exact ih hfresh

theorem body_ensures {body : Lower Unit} (hbody : Advancing weight body) (h : b.Ready)
    (hfresh : b.current.Fresh) (hle : weight + 1 ≤ FunctionBuilder.capacity) :
    (do body; returnNothing).Ensures b fun _ b' =>
      b'.Ready ∧ Around b b' ∧ b'.current.Done := by
  apply (hbody b h hfresh.atRest (hfresh.room (by omega))).bind
  intro _ b₁ hadvances
  have hready := hadvances.ready h
  obtain ⟨breaks, hextends, hloops, hnone⟩ := hadvances.current.grown
  obtain ⟨bound, hstack, -⟩ := hadvances.current.bound
  obtain ⟨code, hcode, hflow⟩ := hextends.code
  apply (emit_ensures _ _ _ _ b₁).mono
  rintro _ _ ⟨hencode, rfl⟩
  refine ⟨hready.withCurrent (hready.sound.placed (by simpa using hencode)) List.prefix_rfl,
    ⟨hadvances.around.options, hadvances.around.enclosing⟩, ?_⟩
  exact {
    size := by
      have hpc := hextends.pc_le
      rw [hfresh.pc] at hpc
      simp only [FunctionBuilder.pc_placed, List.length_singleton]
      omega
    scopes := (congrArg List.length hstack).trans ((Scopes.length_gain _ _).trans hfresh.scopes)
    sections := hextends.sections.trans hfresh.sections
    loops := by
      refine (congrArg Loops.stack hloops).trans ?_
      simp [Loops.withBreaks, hfresh.loops]
    atRest := hadvances.current.atRest
    code := by
      refine ⟨code, b₁.current.stamped { op := .ret, a := 0, b := 1, c := 0 }, ?_, rfl, ?_⟩
      · rw [FunctionBuilder.listing_placed, hcode, hfresh.listing, List.nil_append]
      · have hhead : b.current.loops.head? = none := by simp [Loops.head?, hfresh.loops]
        rwa [hhead, hfresh.pc, hnone hfresh.loops, List.append_nil] at hflow }

theorem closeFunction_ensures {outer : FunctionBuilder} {rest : List FunctionBuilder}
    (henclosing : b.enclosing = outer :: rest) (h : b.Ready) (hdone : b.current.Done)
    (lastLine : UInt32) :
    (closeFunction lastLine).Ensures b fun _ b' =>
      ∃ child : Prototype, (∀ p : Prototype, p.Within child → p.IsWellFormed ∧ p.RangesInside) ∧
        b' = { b with
          current := { outer with children := outer.children.push child }, enclosing := rest } := by
  obtain ⟨child, hfinish, hwellFormed⟩ :=
    FunctionBuilder.finish_wellFormed hdone h.sound lastLine
  have hchild : ∀ p : Prototype, p.Within child → p.IsWellFormed ∧ p.RangesInside := fun p hp =>
    ⟨hwellFormed p hp, FunctionBuilder.finish_rangesInside hdone h.sound hfinish hp⟩
  rw [ensures_iff]
  simp only [closeFunction, henclosing, hfinish, onCurrent_apply, FunctionBuilder.addChild]
  split
  · next index after hrun =>
    split at hrun
    · next index' current hadd =>
      split at hadd
      · injection hadd with _ hcurrent
        injection hrun with _ hafter
        exact ⟨child, hchild, by rw [← hafter, ← hcurrent]⟩
      · simp at hadd
    · simp at hrun
  · next error after hrun =>
    split at hrun
    · simp at hrun
    · next error' current hadd =>
      split at hadd
      · simp at hadd
      · injection hadd with herror
        injection hrun with herror'
        rw [← herror', ← herror]
        trivial

theorem addChild_extends {f : FunctionBuilder} (h : f.Sound) {child : Prototype}
    (hchild : ∀ p : Prototype, p.Within child → p.IsWellFormed ∧ p.RangesInside) :
    f.Extends none [] 0 { f with children := f.children.push child } := by
  have hchildren : ∀ other ∈ (f.children.push child).toList, ∀ p : Prototype, p.Within other →
      p.IsWellFormed ∧ p.RangesInside := by
    intro other hother
    rw [Array.toList_push, List.mem_append, List.mem_singleton] at hother
    rcases hother with hother | rfl
    · exact fun p hp => ⟨h.children other hother p hp, h.ranges other hother p hp⟩
    · exact hchild
  have hsound : FunctionBuilder.Sound { f with children := f.children.push child } :=
    { h with
      children := fun other hother p hp => (hchildren other hother p hp).1
      ranges := fun other hother p hp => (hchildren other hother p hp).2 }
  exact FunctionBuilder.extends_of_code_eq (f := f) hsound rfl rfl rfl rfl rfl rfl (Nat.le_refl _)
    List.prefix_rfl List.prefix_rfl (Nat.le_add_right _ _) (by simp)

/-- The code of a nested function, up to where the function is closed. -/
def functionCode (params : List String) (body : Lower Unit) (name : String) (line : UInt32) :
    Lower Unit := do
  modify (openFunction name line)
  params.forM fun param => do
    let _ ← onCurrent (FunctionBuilder.bindParameter param)
  body
  returnNothing

theorem functionInto_eq (params : List String) (body : Lower Unit) (name : String)
    (line lastLine : UInt32) (target : UInt8) :
    functionInto params body name line lastLine target = (do
      functionCode params body name line
      let index ← closeFunction lastLine
      emit .closure target.toNat index 0) := by
  simp only [functionInto, functionCode, bind_assoc]

theorem functionCode_ensures {body : Lower Unit} (hbody : Advancing weight body) (h : b.Ready)
    (hle : weight + 1 ≤ FunctionBuilder.capacity) (params : List String) (name : String)
    (line : UInt32) :
    (functionCode params body name line).Ensures b fun _ inner =>
      inner.Ready ∧ Around (openFunction name line b) inner ∧ inner.current.Done := by
  apply ensures_modify_bind
  have hfresh := FunctionBuilder.fresh_start name (some b.level) line b.current.line
  apply (parameters_ensures params hfresh).bind
  rintro _ _ ⟨f, hstarted, rfl⟩
  have hready : Ready { openFunction name line b with current := f } :=
    ⟨hstarted.sound, h.environment⟩
  apply (body_ensures hbody hready hstarted hle).mono
  rintro _ inner ⟨hinner, haround, hdone⟩
  exact ⟨hinner, ⟨haround.options, haround.enclosing⟩, hdone⟩

theorem nested_balanced {body : Lower Unit} (hbody : Advancing weight body) (h : b.Ready)
    (hle : weight + 1 ≤ FunctionBuilder.capacity) (params : List String) (name : String)
    (line lastLine : UInt32) :
    (do functionCode params body name line; closeFunction lastLine).Ensures b fun _ b' =>
      b.Balanced 0 b' := by
  apply (functionCode_ensures hbody h hle params name line).bind
  rintro _ inner ⟨hready, haround, hdone⟩
  -- around the new function stands the old one, which may capture more by now
  have henclosing : List.Forall₂ FunctionBuilder.Captures (b.current :: b.enclosing)
      inner.enclosing := haround.enclosing
  obtain ⟨outer, rest, houter, hrest, hsplit⟩ := List.forall₂_cons_left_iff.mp henclosing
  apply (closeFunction_ensures hsplit hready hdone _).mono
  rintro index _ ⟨child, hchild, rfl⟩
  have hcaptured : b.current.Extends none [] 0 outer := houter.extends h.sound
  have hextends := hcaptured.trans (addChild_extends hcaptured.sound hchild)
  obtain ⟨captured, rfl⟩ : ∃ captured,
    outer = { b.current with upvalues := b.current.upvalues ++ captured } := houter
  exact ⟨⟨⟨hextends, haround.options, hrest⟩, rfl, rfl, rfl⟩, rfl⟩

theorem functionInto_balancing {body : Lower Unit} (hbody : Advancing weight body)
    (params : List String) (name : String) (line lastLine : UInt32) (target : UInt8) :
    Balancing (weight + 16) (functionInto params body name line lastLine target) := by
  intro b h hroom
  have hle : weight + 1 ≤ FunctionBuilder.capacity := by
    have := hroom.1
    omega
  rw [functionInto_eq, ← bind_assoc]
  apply (nested_balanced hbody h hle params name line lastLine).bind
  intro index b₁ hclosed
  apply (emit_balanced (hclosed.ready h) (Instruction.isPlain_of_op rfl)).mono
  intro _ b₂ hemitted
  exact (hclosed.trans hemitted).weaken (by omega)

end Lower

end RegisterCode
