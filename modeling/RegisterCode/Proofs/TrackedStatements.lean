import RegisterCode.Proofs.TrackedExpressions

/-! The forms of statements and the registers they find set. What is set in front of a
statement is set wherever control gets behind it, and a scope that closes leaves no locals
in sight but those that were there before. -/
namespace RegisterCode

open Action

namespace FunctionBuilder

variable {f f' : FunctionBuilder} {pending : List Nat} {weight p : Nat}

theorem Advances.heads (h : f.Advances pending weight f') : f'.loops.heads = f.loops.heads := by
  obtain ⟨breaks, -, hloops, -⟩ := h.grown
  rw [hloops, Loops.heads_withBreaks]

theorem Advances.waiting (h : f.Advances pending weight f') (hp : p ∈ pending) :
    f.pc ≤ p ∧ ∃ jump, f'.listing[p]? = some jump ∧ jump.op = .jmp := by
  obtain ⟨breaks, hextends, -⟩ := h.grown
  exact hextends.waiting (List.mem_append_left _ hp)

theorem breakLoop_eq (hrun : breakLoop f = .ok () f') :
    f' = { f.placed [f.stamped { op := .jmp }] with loops := f.loops.withBreaks [f.pc] } := by
  unfold breakLoop at hrun
  obtain ⟨_, _, hget, hrun⟩ := bind_eq_ok.mp hrun
  obtain ⟨rfl, rfl⟩ := get_eq_ok.mp hget
  split at hrun
  · next hopen =>
    have hstack : f.loops.stack ≠ [] := by simpa [Loops.anyOpen] using hopen
    obtain ⟨index, f₁, hjump, hpark⟩ := bind_eq_ok.mp hrun
    obtain ⟨rfl, -, rfl⟩ := (emit_ensures { op := .jmp } f).of_ok hjump
    rw [onLoops_apply] at hpark
    simp only [placed, parkBreak_apply hstack] at hpark
    injection hpark with _ hstate
    exact hstate.symm
  · cases hrun

end FunctionBuilder

namespace Lower
open ChunkBuilder FunctionBuilder

variable {b b' : ChunkBuilder} {weight weight' : Nat} {pending : List Nat} {action : Lower Unit}
  {value condition : Lower Operand} {body rest : Lower Unit} {name : String}
  {compute : UInt8 → Lower Unit} {wherever callee : Option UInt8 → Lower Operand}
  {args : Lower (List UInt8)}

theorem onCurrent_modify_promises {α : Type} {change : FunctionBuilder → FunctionBuilder}
    {next : Unit → Lower α} {post : α → ChunkBuilder → Prop}
    (h : (next ()).Promises { b with current := change b.current } post) :
    (onCurrent (modify change) >>= next).Promises b post := by
  refine ⟨fun hrun => ?_⟩
  obtain ⟨_, b₀, hopen, hrun⟩ := bind_eq_ok.mp hrun
  obtain rfl := onCurrent_modify_eq_ok.mp hopen
  exact h.of_ok hrun

structure Offering (weight : Nat) (value : Lower Operand) : Prop where
  delivering : Delivering none weight value
  retains : ∀ b : ChunkBuilder, b.Tracks → b.current.Room weight →
    value.Promises b fun operand b' => b.Retains b' ∧ b'.current.Has operand

structure Keeping (weight : Nat) (action : Lower Unit) : Prop where
  advancing : Advancing weight action
  retains : ∀ b : ChunkBuilder, b.Tracks → b.current.AtRest → b.current.Room weight →
    action.Promises b fun _ b' => b.Retains b'

theorem Setting.offering (h : Setting weight wherever) : Offering weight (wherever none) where
  delivering := h.serving none
  retains := h.retains none

theorem store_offering (h : Setting weight wherever) (name : String) (isLogical : Bool) :
    Offering (weight + 8) (store name isLogical wherever) where
  delivering := store_delivering name isLogical h.serving
  retains := fun _ hb hroom =>
    (store_retains h name isLogical hb hroom).mono fun _ _ hpost => hpost.2

theorem Offering.promises (h : Offering weight value) (hb : b.Tracks)
    (hroom : b.current.Room weight) :
    value.Promises b fun operand b' => b.Yields weight operand b' ∧ b.Retains b' ∧
      b'.current.Has operand :=
  (h.delivering b hb.ready hroom).and_promises (h.retains b hb hroom)

theorem Keeping.promises (h : Keeping weight action) (hb : b.Tracks) (hrest : b.current.AtRest)
    (hroom : b.current.Room weight) :
    action.Promises b fun _ b' => b.Advances [] weight b' ∧ b.Retains b' :=
  (h.advancing b hb.ready hrest hroom).and_promises (h.retains b hb hrest hroom)

theorem Keeping.weaken (h : Keeping weight action) (hle : weight ≤ weight') :
    Keeping weight' action where
  advancing := h.advancing.weaken hle
  retains := fun b hb hrest hroom => h.retains b hb hrest (hroom.weaken hle)

theorem keeping_skip : Keeping 0 (pure ()) where
  advancing := skip_advancing
  retains := fun _ hb _ _ => promises_pure hb.retains

theorem keeping_seq {first second : Lower Unit} (hfirst : Keeping weight first)
    (hsecond : Keeping weight' second) : Keeping (weight + weight') (do first; second) where
  advancing := advancing_seq hfirst.advancing hsecond.advancing
  retains := by
    intro b hb hrest hroom
    apply (hfirst.promises hb hrest (hroom.weaken (by omega))).bind
    rintro _ b₁ ⟨hone, hretains₁⟩
    apply (hsecond.retains b₁ hretains₁.tracks hone.current.atRest
      (hone.current.room hroom (by omega))).mono
    intro _ b₂ hretains₂
    exact hretains₁.trans hretains₂

theorem inScope_retains (hbody : Keeping weight body) (name : String) (hb : b.Tracks)
    (hrest : b.current.AtRest) (hroom : b.current.Room weight) :
    (inScope name body).Promises b fun _ b' => (b.Advances [] weight b' ∧
      b'.current.scopes.stack = b.current.scopes.stack) ∧ b.Retains b' := by
  have hensures := inScope_ensures hbody.advancing name hb.ready hrest hroom
  refine hensures.and_promises ⟨fun {_ b'} hrun => ?_⟩
  obtain ⟨hadvances, hstack⟩ := hensures.of_ok hrun
  have hready := hadvances.ready hb.ready
  obtain ⟨_, b₀, hopen, hrun⟩ := bind_eq_ok.mp hrun
  obtain rfl := onCurrent_modify_eq_ok.mp hopen
  obtain ⟨_, b₁, hinside, hclose⟩ := bind_eq_ok.mp hrun
  have hopened : Tracks { b with current := b.current.openScope name } := {
    ready := hb.ready.withCurrent (sound_openScope hb.ready.sound name) List.prefix_rfl
    tracked := hb.tracked.of_same rfl rfl rfl rfl
    anchored := hb.anchored
    locals := by
      intro r hr
      rw [openScope, Scopes.openScope, Scopes.registers_cons _ _ _ b.current.scopes.log] at hr
      exact hb.locals r (by simpa using hr) }
  have hretains := (hbody.retains _ hopened (atRest_openScope hrest name) hroom).of_ok hinside
  have hcarries : b.current.Carries b₁.current := hretains.carries.from_same rfl rfl
  -- the locals of the scope go out of sight, and those of `b` were set all along
  obtain ⟨scope, outer, hscopes⟩ := List.exists_cons_of_ne_nil hretains.tracks.ready.sound.inScope
  obtain ⟨f, hclosed, rfl⟩ := onCurrent_eq_ok.mp hclose
  rw [closeScope_apply hscopes] at hclosed
  cases hclosed
  exact hb.regain hretains.tracks hready (hcarries.trans (.of_same rfl rfl))
    (hretains.tracks.tracked.of_same rfl rfl rfl rfl) rfl hstack

theorem inScope_keeping (hbody : Keeping weight body) (name : String) :
    Keeping weight (inScope name body) where
  advancing := inScope_advancing hbody.advancing name
  retains := fun _ hb hrest hroom =>
    (inScope_retains hbody name hb hrest hroom).mono fun _ _ hpost => hpost.2

theorem locateKnown_keeping (span : Span) : Keeping 0 (locateKnown span) where
  advancing := locateKnown_advancing span
  retains := by
    intro b hb hrest hroom
    have hensures := locateKnown_advancing span b hb.ready hrest hroom
    refine ⟨fun {_ b'} hrun => ?_⟩
    have hready := (hensures.of_ok hrun).ready hb.ready
    unfold locateKnown at hrun
    split at hrun
    · obtain ⟨line, map, generatedLine, hlocate⟩ := locate_eq span b
      injection hrun with _ hstate
      rw [← hstate, hlocate] at hready ⊢
      exact ⟨.of_same rfl rfl, hready, hb.tracked.of_same rfl rfl rfl rfl, hb.anchored, hb.locals⟩
    · obtain ⟨-, rfl⟩ := pure_eq_ok.mp hrun
      exact hb.retains

theorem declareLocal_keeping (h : Writing weight compute) (name : String) :
    Keeping weight (declareLocal name compute) where
  advancing := declareLocal_advancing h.balancing name
  retains := by
    intro b hb hrest hroom
    have hensures := declareLocal_advancing h.balancing name b hb.ready hrest hroom
    refine ⟨fun {_ b'} hrun => ?_⟩
    have hready := (hensures.of_ok hrun).ready hb.ready
    obtain ⟨register, b₁, b₂, hallocate, hlower, -, highWater, rfl⟩ := declareLocal_eq_ok hrun
    obtain ⟨⟨hgrows, -⟩, hretains₁⟩ := (allocate_retains hb).of_ok hallocate
    obtain ⟨hretains₂, hset⟩ := (h.retains register b₁ hretains₁.tracks
      (hroom.after hgrows.current (by omega))).of_ok hlower
    have hb₂ := hretains₂.tracks
    refine hretains₁.trans (hretains₂.trans ⟨.of_same rfl rfl, hready,
      hb₂.tracked.of_same rfl rfl rfl rfl, hb₂.anchored, fun r hr => ?_⟩)
    have hregisters := registers_withLocal hb₂.ready.sound
      { name, register, startPc := .ofNat b₂.current.pc }
    have hmem : r ∈ b₂.current.scopes.registers ++ [register.toNat] := hregisters ▸ hr
    rcases List.mem_append.mp hmem with hold | hnew
    · exact hb₂.locals r hold
    · rw [List.mem_singleton.mp hnew]
      exact hset

theorem writing_nil : Writing 1 fun register => emit .loadNil register.toNat 0 0 where
  balancing := fun _ _ hb _ => emit_balanced hb (Instruction.isPlain_of_op rfl)
  retains := by
    intro register b hb hroom
    refine Promises.mono (emit_reading hb (Instruction.isPlain_of_op rfl) (by decide)
      fun _ => False.elim) fun _ _ hemitted => ⟨hemitted.2.1, hemitted.2.2 _ ?_⟩
    exact ⟨Int.le_refl _, by simp⟩

theorem throw_keeping {error : Error} (h : error.IsProgramFault) :
    Keeping weight (throw error) where
  advancing := throw_advancing h
  retains := fun _ _ _ _ => promises_throw

theorem discard_keeping (h : Offering weight value) :
    Keeping weight (discard value) where
  advancing := discard_advancing h.delivering
  retains := by
    intro b hb hrest hroom
    apply (h.promises hb hroom).bind
    rintro operand b₁ ⟨hyields, hretains₁, -⟩
    apply (free_retains hb.ready hyields hretains₁.tracks).mono
    rintro _ b₂ ⟨-, hretains₂⟩
    exact hretains₁.trans hretains₂

theorem callStatement_keeping (hcallee : Setting weight callee) (hargs : Stacked weight' args) :
    Keeping (weight + weight' + 1) (callStatement callee args) where
  advancing := callStatement_advancing hcallee.serving hargs.stacking
  retains := by
    intro b hb hrest hroom
    apply (allocate_retains hb).bind
    rintro base b₁ ⟨⟨hgrows, hbase, hnext⟩, hretains₁⟩
    apply (call_retains hcallee hargs 0 hretains₁.tracks (hroom.after hgrows.current (by omega))
      (by omega)).bind
    rintro _ b₂ ⟨hcalled, hretains₂, -⟩
    have hheld : b.Yields 0 (.register base) b₁ := ⟨hgrows, .inr ⟨hbase, hnext⟩⟩
    apply (free_retains hb.ready (hheld.balanced hcalled) hretains₂.tracks).mono
    rintro _ b₃ ⟨-, hretains₃⟩
    exact hretains₁.trans (hretains₂.trans hretains₃)

theorem returnNothing_keeping : Keeping 1 returnNothing where
  advancing := returnNothing_advancing
  retains := by
    intro b hb hrest hroom
    refine Promises.mono (emit_reading hb (Instruction.isPlain_of_op rfl) (by decide) ?_)
      fun _ _ hemitted => hemitted.2.1
    rintro r ⟨hle, hlt⟩
    have hlow : (0 : Int) ≤ r := hle
    have hhigh : (r : Int) < 0 + 1 - 1 := hlt (by simp)
    omega

theorem returnValue_keeping (h : Offering weight value) :
    Keeping (weight + 5) (returnValue value) where
  advancing := returnValue_advancing h.delivering
  retains := by
    intro b hb hrest hroom
    rw [returnValue_eq]
    apply (h.promises hb (hroom.weaken (by omega))).bind
    rintro operand b₁ ⟨hyields, hretains₁, hhas⟩
    apply (toRegister_retains hb.ready hyields hretains₁.tracks
      (hroom.after hyields.current (by omega)) hhas).bind
    rintro register b₂ ⟨hheld, hretains₂, hset⟩
    refine Promises.mono (emit_free_reading hb.ready hheld hretains₂.tracks
      (Instruction.isPlain_of_op rfl) (by decide) ?_)
      fun _ _ hdone => hretains₁.trans (hretains₂.trans hdone.1)
    rintro r ⟨hle, hlt⟩
    have hlow : (register.toNat : Int) ≤ r := hle
    have hhigh : (r : Int) < register.toNat + 2 - 1 := hlt (by simp)
    obtain rfl : r = register.toNat := by omega
    exact hset

theorem jumpUnless_retains (h : Offering weight condition) (hb : b.Tracks)
    (hroom : b.current.Room (weight + 6)) :
    (jumpUnless condition).Promises b fun skip b' => b.Awaits skip (weight + 6) b' ∧
      b.Retains b' := by
  have hensures := jumpUnless_awaits h.delivering hb.ready (hroom.weaken (by omega))
  refine hensures.and_promises ⟨fun {skip b'} hrun => ?_⟩
  have hready := (hensures.of_ok hrun).ready hb.ready
  rw [jumpUnless_eq] at hrun
  obtain ⟨operand, b₁, hlower, hrun⟩ := bind_eq_ok.mp hrun
  obtain ⟨register, b₂, hhold, hrun⟩ := bind_eq_ok.mp hrun
  obtain ⟨_, b₃, htest, hrun⟩ := bind_eq_ok.mp hrun
  obtain ⟨skip', b₄, hjump, hrun⟩ := bind_eq_ok.mp hrun
  obtain ⟨_, b₅, hfree, hreturn⟩ := bind_eq_ok.mp hrun
  obtain ⟨-, rfl⟩ := pure_eq_ok.mp hreturn
  obtain ⟨hyields, hretains₁, hhas⟩ := (h.promises hb (hroom.weaken (by omega))).of_ok hlower
  obtain ⟨-, hretains₂, hset⟩ := (toRegister_retains hb.ready hyields hretains₁.tracks
    (hroom.after hyields.current (by omega)) hhas).of_ok hhold
  obtain ⟨-, hretains₄⟩ := (test_jump_retains hretains₂.tracks hset 0).of_ok
    (bind_eq_ok.mpr ⟨_, b₃, htest, hjump⟩)
  obtain ⟨next, rfl⟩ := free_eq hfree
  have hretains₅ := hretains₄.tracks.same hready rfl rfl rfl rfl rfl rfl
  exact hretains₁.trans (hretains₂.trans (hretains₄.trans hretains₅))

theorem jump_retains (hb : b.Tracks) :
    jump.Promises b fun index b' => b.Awaits index 1 b' ∧ b.Retains b' := by
  have hensures := jump_awaits hb.ready
  refine hensures.and_promises ⟨fun {index b'} hrun => ?_⟩
  have hready := (hensures.of_ok hrun).ready hb.ready
  obtain ⟨-, -, rfl⟩ := (jump_ensures b).of_ok hrun
  have hop : (b.current.stamped { op := .jmp }).op = .jmp := rfl
  obtain ⟨hcarries, htracked⟩ := hb.tracked.jump hop rfl
  exact hb.grow hready hcarries htracked rfl rfl

theorem aimWaiting_retains {p : Nat} (hb : b.Tracks) (h : b.Retains b')
    (hadvances : b.Advances pending weight b') (hp : p ∈ pending)
    (hstack : b'.current.scopes.stack = b.current.scopes.stack) (hroom : b'.current.Room 0) :
    (aimHere p).Promises b' fun _ b'' => b.Retains b'' ∧
      b''.current.scopes.stack = b.current.scopes.stack := by
  obtain ⟨hle, hat⟩ := hadvances.current.waiting hp
  exact aimHere_retains hb h hle hat hadvances.current.heads hstack hroom.1

theorem branch_keeping (hcondition : Offering weight condition) (hbody : Keeping weight' body) :
    Keeping (weight + weight' + 6) (branch condition body) where
  advancing := branch_advancing hcondition.delivering hbody.advancing
  retains := by
    intro b hb hrest hroom
    apply (jumpUnless_retains hcondition hb (hroom.weaken (by omega))).bind
    rintro skip b₁ ⟨hawaits, hretains₁⟩
    have htested := hawaits.advances hrest
    apply (inScope_retains hbody _ hretains₁.tracks htested.current.atRest
      (htested.current.room hroom (by omega))).bind
    rintro _ b₂ ⟨⟨hinside, hstack⟩, hretains₂⟩
    rw [hawaits.scopes] at hstack
    have hadvances := htested.trans hinside
    exact (aimWaiting_retains hb (hretains₁.trans hretains₂) hadvances (by simp) hstack
      (hadvances.current.room hroom (by omega))).mono fun _ _ hpost => hpost.1

theorem branchElse_keeping {otherwise : Lower Unit} {weight'' : Nat}
    (hcondition : Offering weight condition) (hbody : Keeping weight' body)
    (hotherwise : Keeping weight'' otherwise) :
    Keeping (weight + weight' + weight'' + 7) (branchElse condition body otherwise) where
  advancing := branchElse_advancing hcondition.delivering hbody.advancing hotherwise.advancing
  retains := by
    intro b hb hrest hroom
    apply (jumpUnless_retains hcondition hb (hroom.weaken (by omega))).bind
    rintro skip b₁ ⟨hawaits, hretains₁⟩
    have htested := hawaits.advances hrest
    apply (inScope_retains hbody _ hretains₁.tracks htested.current.atRest
      (htested.current.room hroom (by omega))).bind
    rintro _ b₂ ⟨⟨hinside, hstack₂⟩, hretains₂⟩
    rw [hawaits.scopes] at hstack₂
    have hthen := htested.trans hinside
    apply (jump_retains hretains₂.tracks).bind
    rintro done b₃ ⟨hawaits', hretains₃⟩
    have hboth := hthen.trans (hawaits'.advances hthen.current.atRest)
    have hroom₃ : b₃.current.Room 0 := hboth.current.room hroom (by omega)
    -- both jumps leave from code behind `b`, so what is set in `b` is set where they go
    have hrest' : ∀ q ∈ [skip] ++ [] ++ [done], q = skip ∨ q ∈ [done] := by simp
    have hstack₃ : b₃.current.scopes.stack = b.current.scopes.stack := by
      rw [hawaits'.scopes, hstack₂]
    apply ((aimHere_advances hboth hroom₃.1 (by simp) hrest' (by simp)).and_promises
      (aimWaiting_retains hb (hretains₁.trans (hretains₂.trans hretains₃)) hboth (by simp) hstack₃
        hroom₃)).bind
    rintro _ b₄ ⟨haimed, hretains₄, hstack₄⟩
    apply (inScope_retains hotherwise _ hretains₄.tracks haimed.current.atRest
      (haimed.current.room hroom (by omega))).bind
    rintro _ b₅ ⟨⟨hinside', hstack₅⟩, hretains₅⟩
    have hadvances := haimed.trans hinside'
    exact (aimWaiting_retains hb (hretains₄.trans hretains₅) hadvances (by simp)
      (hstack₅.trans hstack₄) (hadvances.current.room hroom (by omega))).mono
      fun _ _ hpost => hpost.1

/-- A section that is discarded leaves the code as it was, with more functions inside and
more upvalues perhaps. -/
theorem discardSection_retains (hb : b.Tracks) (hcapacity : b.current.pc ≤ capacity)
    (hadvances : Advances [] weight { b with current := b.current.openSection } b')
    (hb' : b'.Tracks) (hstack : b'.current.scopes.stack = b.current.scopes.stack) :
    (onCurrent discardSection).Promises b' fun _ b'' => b.Advances [] weight b'' ∧
      b.Retains b'' := by
  refine ⟨fun {_ b''} hrun => ?_⟩
  obtain ⟨f, ⟨hcut, -⟩, rfl⟩ := (onCurrent_ensures (discardSection_advances hb.ready.sound hcapacity
    hadvances.current hstack)).of_ok hrun
  have hgone : b.Advances [] weight { b' with current := f } :=
    ⟨hcut, hadvances.around.options, hadvances.around.enclosing⟩
  obtain ⟨breaks, hextends, -⟩ := hadvances.current.grown
  obtain ⟨code, hcode, -⟩ := hextends.code
  obtain ⟨_, rfl, hsame⟩ := (onCurrent_ensures (discardSection_ensures hextends.sections
    hextends.pc_ge)).of_ok hrun
  obtain rfl := congrArg ChunkBuilder.current hsame
  have hlisting := listing_cutTo b.current.code.sections hcode
  refine ⟨hgone, hb.regain hb' (hgone.ready hb.ready) (.of_same hextends.paramCount hlisting) ?_ rfl
    (stack_cutTo hb.ready.sound hcapacity _ hstack)⟩
  exact hb.tracked.adopt hextends.paramCount hlisting hextends.children hb'.tracked.children
    hcut.heads

theorem deadBranch_keeping (hbody : Keeping weight body) (hrest : Keeping weight' rest) :
    Keeping (weight + weight') (deadBranch body rest) where
  advancing := deadBranch_advancing hbody.advancing hrest.advancing
  retains := by
    intro b hb hatRest hroom
    apply onCurrent_modify_promises
    have hready : Ready { b with current := b.current.openSection } :=
      hb.ready.withCurrent { hb.ready.sound with } List.prefix_rfl
    have hopened := (hb.same hready rfl rfl rfl rfl rfl rfl).tracks
    apply (inScope_retains hbody _ hopened hatRest (hroom.weaken (by omega))).bind
    rintro _ b₁ ⟨⟨hadvances, hstack⟩, hretains₁⟩
    have hcapacity : b.current.pc ≤ capacity := Nat.le_trans (Nat.le_add_right _ _) hroom.1
    apply (discardSection_retains hb hcapacity hadvances hretains₁.tracks hstack).bind
    rintro _ b₂ ⟨hgone, hretains₂⟩
    apply (hrest.retains b₂ hretains₂.tracks hgone.current.atRest
      (hgone.current.room hroom (by omega))).mono
    intro _ b₃ hretains₃
    exact hretains₂.trans hretains₃

theorem closeLoop_retains (hb : b.Tracks)
    (hadvances : Advances [] weight { b with current := b.current.openLoop (some b.current.pc) } b')
    (h : Retains { b with current := b.current.openLoop (some b.current.pc) } b')
    (hstack : b'.current.scopes.stack = b.current.scopes.stack) (hroom : b'.current.Room 0) :
    (onCurrent FunctionBuilder.closeLoop).Promises b' fun _ b'' => b.Retains b'' := by
  refine ⟨fun {_ b''} hrun => ?_⟩
  obtain ⟨breaks, hextends, hloops, -⟩ := hadvances.current.grown
  obtain ⟨f, hclose, rfl⟩ := onCurrent_eq_ok.mp hrun
  have hsince : b.current.Carries b'.current := h.carries.from_same rfl rfl
  have hcarries : b.current.Carries { b'.current with loops := b.current.loops } :=
    hsince.trans (.of_same rfl rfl)
  -- the head of the closed loop is no head any more; the outer ones are those of `b`
  have htracked : Tracked { b'.current with loops := b.current.loops } := {
    closed := h.tracks.tracked.closed
    supplied := h.tracks.tracked.supplied
    children := h.tracks.tracked.children
    homes := hcarries.homes hb.tracked rfl }
  obtain ⟨hcarries', htracked'⟩ := hb.tracked.aimedAll hcarries htracked rfl
    (fun p hp => hextends.waiting hp) (closeLoop_aims hloops hclose) rfl hroom.1
  have hclosed : FunctionBuilder.Extends none [] weight b.current f ∧ ∃ instructions, f =
      { b'.current with
        loops := b.current.loops
        code := { b'.current.code with instructions } } :=
    (closeLoop_ensures hextends hb.ready.sound hloops hroom.1).of_ok hclose
  obtain ⟨hextends', instructions, rfl⟩ := hclosed
  have hready := h.tracks.ready.withCurrent hextends'.sound List.prefix_rfl
  exact hb.regain h.tracks hready hcarries' htracked' rfl hstack

theorem placed_jumpBack_retains {head : Nat} (hb : b.Tracks)
    (hready : Ready { b with current := b.current.placed [b.current.jumpBack head] })
    (hcapacity : b.current.pc < capacity) (hhead : b.current.loops.head? = some head)
    (hle : head ≤ b.current.pc) :
    b.Retains { b with current := b.current.placed [b.current.jumpBack head] } := by
  obtain ⟨hcarries, htracked⟩ :=
    hb.tracked.jumpBack (Loops.mem_heads_of_head? hhead) hcapacity hle
  exact hb.grow hready hcarries htracked rfl rfl

theorem jumpBack_retains {head : Nat} (hb : b.Tracks) (hrest : b.current.AtRest)
    (hroom : b.current.Room 1) (hhead : b.current.loops.head? = some head)
    (hle : head ≤ b.current.pc) :
    (onCurrent (FunctionBuilder.jumpTo head)).Promises b fun _ b' => b.Advances [] 1 b' ∧
      b.Retains b' ∧ b'.current.scopes = b.current.scopes := by
  refine ⟨fun {_ b'} hrun => ?_⟩
  have hcapacity : b.current.pc < capacity := Nat.lt_of_lt_of_le (Nat.lt_succ_self _) hroom.1
  obtain ⟨f, ⟨hadvances, rfl⟩, rfl⟩ := (onCurrent_ensures (jumpTo_advances hb.ready.sound hrest
    hcapacity hle hhead)).of_ok hrun
  have hback := advances_withCurrent hadvances
  exact ⟨hback, placed_jumpBack_retains hb (hback.ready hb.ready) hcapacity hhead hle, rfl⟩

theorem whileLoop_keeping (hcondition : Offering weight condition)
    (hbody : Keeping weight' body) :
    Keeping (weight + weight' + 7) (whileLoop condition body) where
  advancing := whileLoop_advancing hcondition.delivering hbody.advancing
  retains := by
    intro b hb hrest hroom
    apply promises_get_bind
    apply onCurrent_modify_promises
    have hopened : Tracks { b with current := b.current.openLoop (some b.current.pc) } := {
      ready := hb.ready.withCurrent (sound_openLoop hb.ready.sound) List.prefix_rfl
      tracked := hb.tracked.openLoop
      anchored := hb.anchored
      locals := hb.locals }
    have hroom' : (b.current.openLoop (some b.current.pc)).Room (weight + weight' + 7) := hroom
    apply (jumpUnless_retains hcondition hopened (hroom'.weaken (by omega))).bind
    rintro done b₁ ⟨hawaits, hretains₁⟩
    have htested := hawaits.advances hrest
    apply (inScope_retains hbody _ hretains₁.tracks htested.current.atRest
      (htested.current.room hroom' (by omega))).bind
    rintro _ b₂ ⟨⟨hinside, hstack₂⟩, hretains₂⟩
    rw [hawaits.scopes] at hstack₂
    have hbodyDone := htested.trans hinside
    have hroom₂ : b₂.current.Room 1 := hbodyDone.current.room hroom' (by omega)
    -- all that is set at the head still is where the body ends
    apply (jumpBack_retains hretains₂.tracks hbodyDone.current.atRest hroom₂
      hbodyDone.current.head? hbodyDone.current.pc_ge).bind
    rintro _ b₃ ⟨hback, hretains₃, hscopes₃⟩
    have hround := hbodyDone.trans hback
    have hsince := hretains₁.trans (hretains₂.trans hretains₃)
    have hroom₃ : b₃.current.Room 0 := hround.current.room hroom' (by omega)
    rw [← hscopes₃] at hstack₂
    apply ((aimHere_advances_nil hround hroom₃).and_promises
      (aimWaiting_retains hopened hsince hround (by simp) hstack₂ hroom₃)).bind
    rintro _ b₄ ⟨haimed, hretains₄, hstack₄⟩
    exact closeLoop_retains hb haimed hretains₄ hstack₄ (haimed.current.room hroom' (by omega))

theorem breakLoop_keeping : Keeping 1 (onCurrent FunctionBuilder.breakLoop) where
  advancing := breakLoop_advancing
  retains := by
    intro b hb hrest hroom
    refine ⟨fun {_ b'} hrun => ?_⟩
    have hready := ((breakLoop_advancing b hb.ready hrest hroom).of_ok hrun).ready hb.ready
    obtain ⟨f, hbreak, rfl⟩ := onCurrent_eq_ok.mp hrun
    obtain rfl := breakLoop_eq hbreak
    have hop : (b.current.stamped { op := .jmp }).op = .jmp := rfl
    obtain ⟨hcarries, htracked⟩ := hb.tracked.jump hop rfl
    exact hb.grow hready (hcarries.trans (.of_same rfl rfl))
      (htracked.of_same rfl rfl rfl (Loops.heads_withBreaks _ _)) rfl rfl

theorem continueLoop_keeping : Keeping 1 (onCurrent FunctionBuilder.continueLoop) where
  advancing := continueLoop_advancing
  retains := by
    intro b hb hrest hroom
    refine ⟨fun {_ b'} hrun => ?_⟩
    have hready := ((continueLoop_advancing b hb.ready hrest hroom).of_ok hrun).ready hb.ready
    have hcapacity : b.current.pc < capacity := Nat.lt_of_lt_of_le (Nat.lt_succ_self _) hroom.1
    obtain ⟨f, ⟨-, head, hhead, hle, rfl⟩, rfl⟩ := (onCurrent_ensures (continueLoop_ensures
      hb.ready.sound hrest hcapacity)).of_ok hrun
    exact placed_jumpBack_retains hb hready hcapacity hhead hle

end Lower

end RegisterCode
