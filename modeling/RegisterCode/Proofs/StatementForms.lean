import RegisterCode.Proofs.BuilderBlocks
import RegisterCode.Proofs.ExpressionForms

/-! The forms of statements. Between statements no register is in use but those of
the locals; each form keeps that up if its parts do. -/
namespace RegisterCode

open Action

namespace ChunkBuilder

structure Advances (pending : List Nat) (weight : Nat) (b b' : ChunkBuilder) : Prop where
  current : b.current.Advances pending weight b'.current
  around : Around b b'

variable {pending more : List Nat} {weight weight' : Nat} {b b' b'' : ChunkBuilder}

theorem Advances.ready (h : b.Advances pending weight b') (hb : b.Ready) : b'.Ready where
  sound := h.current.sound
  environment := by
    obtain ⟨breaks, hextends, -⟩ := h.current.grown
    exact hb.environment.mono hextends.upvalues h.around.enclosing

theorem Advances.trans (h : b.Advances pending weight b') (h' : b'.Advances more weight' b'') :
    b.Advances (pending ++ more) (weight + weight') b'' :=
  ⟨h.current.trans h'.current, h.around.trans h'.around⟩

theorem Advances.weaken (h : b.Advances pending weight b') (hle : weight ≤ weight') :
    b.Advances pending weight' b' :=
  ⟨h.current.weaken hle, h.around⟩

theorem Balanced.advances (h : b.Balanced weight b') (hrest : b.current.AtRest) :
    b.Advances [] weight b' :=
  ⟨.of_extends h.current h.scopes h.loops h.nextFree hrest, h.around⟩

theorem Awaits.advances {jump : Nat} (h : b.Awaits jump weight b') (hrest : b.current.AtRest) :
    b.Advances [jump] weight b' :=
  ⟨.of_extends h.current h.scopes h.loops h.nextFree hrest, h.around⟩

end ChunkBuilder

namespace Lower
open ChunkBuilder

variable {pending : List Nat} {weight weight' : Nat} {b b' : ChunkBuilder}

/-- From any state between statements with room, the next such state is reached. -/
def Advancing (weight : Nat) (action : Lower Unit) : Prop :=
  ∀ b : ChunkBuilder, b.Ready → b.current.AtRest → b.current.Room weight →
    action.Ensures b fun _ b' => b.Advances [] weight b'

theorem Balancing.advancing {action : Lower Unit} (h : Balancing weight action) :
    Advancing weight action := by
  intro b hb hrest hroom
  apply (h b hb hroom).mono
  intro _ b' hbalanced
  exact hbalanced.advances hrest

theorem Delivering.ignoring {target : UInt8} {action : Lower Operand}
    (h : Delivering (some target) weight action) :
    Balancing weight (do let _ ← action) := by
  intro b hb hroom
  apply (h b hb hroom).bind
  rintro _ b' ⟨-, hbalanced⟩
  exact ensures_pure hbalanced

theorem advances_withCurrent {f : FunctionBuilder} (h : b.current.Advances pending weight f) :
    b.Advances pending weight { b with current := f } :=
  ⟨h, .of_eq rfl rfl⟩

theorem onCurrent_advances {action : Build Unit}
    (h : action.Ensures b.current fun _ f => b.current.Advances pending weight f) :
    (onCurrent action).Ensures b fun _ b' => b.Advances pending weight b' := by
  apply (onCurrent_ensures h).mono
  rintro _ _ ⟨f, hadvances, rfl⟩
  exact advances_withCurrent hadvances

theorem Advancing.weaken {action : Lower Unit} (h : Advancing weight action)
    (hle : weight ≤ weight') : Advancing weight' action :=
  fun b hb hrest hroom =>
    (h b hb hrest (hroom.weaken hle)).mono fun _ _ hpost => hpost.weaken hle

theorem advancing_seq {first second : Lower Unit} (hfirst : Advancing weight first)
    (hsecond : Advancing weight' second) :
    Advancing (weight + weight') (do first; second) := by
  intro b h hrest hroom
  apply (hfirst b h hrest (hroom.weaken (by omega))).bind
  intro _ b₁ hone
  apply (hsecond b₁ (hone.ready h) hone.current.atRest (hone.current.room hroom (by omega))).mono
  intro _ b₂ htwo
  exact hone.trans htwo

theorem onCurrent_modify_bind {α : Type} {change : FunctionBuilder → FunctionBuilder}
    {next : Unit → Lower α} {post : α → ChunkBuilder → Prop}
    (h : (next ()).Ensures { b with current := change b.current } post) :
    (onCurrent (modify change) >>= next).Ensures b post := by
  rw [ensures_iff] at h ⊢
  exact h

theorem inScope_ensures {body : Lower Unit} (hbody : Advancing weight body) (name : String)
    (h : b.Ready) (hrest : b.current.AtRest) (hroom : b.current.Room weight) :
    (inScope name body).Ensures b fun _ b' =>
      b.Advances [] weight b' ∧ b'.current.scopes.stack = b.current.scopes.stack := by
  apply onCurrent_modify_bind
  have hready : Ready { b with current := b.current.openScope name } :=
    h.withCurrent (FunctionBuilder.sound_openScope h.sound name) List.prefix_rfl
  apply (hbody _ hready (FunctionBuilder.atRest_openScope hrest name) hroom).bind
  intro _ b' hinside
  have hroom' : b'.current.Room 0 := hinside.current.room hroom (by omega)
  apply (onCurrent_ensures
    (FunctionBuilder.closeScope_ensures h.sound hinside.current hroom'.1)).mono
  rintro _ _ ⟨f, ⟨hadvances, hstack⟩, rfl⟩
  exact ⟨⟨hadvances, hinside.around.options, hinside.around.enclosing⟩, hstack⟩

theorem inScope_advancing {body : Lower Unit} (hbody : Advancing weight body) (name : String) :
    Advancing weight (inScope name body) :=
  fun _ h hrest hroom => (inScope_ensures hbody name h hrest hroom).mono fun _ _ hpost => hpost.1

theorem aimHere_advances {pending' : List Nat} {p : Nat} (h : b.Advances pending weight b')
    (hcapacity : b'.current.pc ≤ FunctionBuilder.capacity) (hwait : p ∈ pending)
    (hrest : ∀ q ∈ pending, q = p ∨ q ∈ pending') (hsub : ∀ q ∈ pending', q ∈ pending) :
    (aimHere p).Ensures b' fun _ b'' => b.Advances pending' weight b'' := by
  obtain ⟨breaks, hextends, hloops, hnone⟩ := h.current.grown
  have hrest' : ∀ q ∈ pending ++ breaks, q = p ∨ q ∈ pending' ++ breaks := by
    intro q hq
    rcases List.mem_append.mp hq with hq | hq
    · exact (hrest q hq).imp_right (List.mem_append_left _)
    · exact .inr (List.mem_append_right _ hq)
  have hsub' : ∀ q ∈ pending' ++ breaks, q ∈ pending ++ breaks := by
    intro q hq
    rcases List.mem_append.mp hq with hq | hq
    · exact List.mem_append_left _ (hsub q hq)
    · exact List.mem_append_right _ hq
  apply (aimHere_extends ⟨hextends, h.around⟩ hcapacity (List.mem_append_left _ hwait) hrest'
    hsub').mono
  rintro _ _ ⟨haimed, i, rfl⟩
  exact ⟨⟨⟨breaks, haimed.current, hloops, hnone⟩, h.current.bound, h.current.logged,
    h.current.atRest⟩, haimed.around⟩

theorem jump_awaits (h : b.Ready) : jump.Ensures b fun index b' => b.Awaits index 1 b' := by
  apply (jump_ensures b).mono
  rintro _ _ ⟨rfl, hencode, rfl⟩
  have hextends : b.current.Extends none [b.current.pc] 1
      (b.current.placed [b.current.stamped { op := .jmp }]) :=
    FunctionBuilder.extends_placed h.sound (by simpa using hencode) (.jump rfl) (Nat.le_refl _)
  exact ⟨⟨hextends, .of_eq rfl rfl⟩, rfl, rfl, rfl, rfl⟩

theorem jumpUnless_awaits {condition : Lower Operand}
    (hcondition : Delivering none weight condition) (h : b.Ready) (hroom : b.current.Room weight) :
    (jumpUnless condition).Ensures b fun skip b' => b.Awaits skip (weight + 6) b' := by
  rw [jumpUnless_eq]
  apply (hcondition b h hroom).bind
  intro operand b₁ hlowered
  apply (toRegister_yields h hlowered).bind
  intro register b₂ hheld
  have hready := hheld.ready h
  rw [← bind_assoc]
  apply (test_jump_awaits hready register 0).bind
  intro skip b₃ htested
  have hcount : b₃.current.scopes.count ≤ b.current.nextFree := by
    rw [htested.scopes, hheld.scopes]
    exact h.sound.count_le
  apply (free_grows (htested.ready hready) hcount
    (hheld.holds.congr htested.scopes htested.nextFree)).bind
  rintro _ b₄ ⟨hfreed, hnext⟩
  apply ensures_pure
  exact {
    toExtends := (hheld.toExtends.trans htested.toExtends).trans hfreed.toExtends
    scopes := hfreed.scopes.trans (htested.scopes.trans hheld.scopes)
    loops := hfreed.loops.trans (htested.loops.trans hheld.loops)
    line := hfreed.line.trans (htested.line.trans hheld.line)
    nextFree := hnext }

theorem aimHere_advances_nil {p : Nat} (h : b.Advances [p] weight b')
    (hroom : b'.current.Room 0) :
    (aimHere p).Ensures b' fun _ b'' => b.Advances [] weight b'' :=
  aimHere_advances h hroom.1 (by simp) (by simp) (by simp)

theorem locate_eq (span : Span) (b : ChunkBuilder) :
    ∃ line map generatedLine, locate span b =
      { b with current := b.current.setLine line, map, generatedLine } := by
  unfold locate
  split
  · exact ⟨_, _, _, rfl⟩
  · exact ⟨_, _, _, rfl⟩

theorem extends_setLine {f : FunctionBuilder} (h : f.Sound) (line : UInt32) :
    f.Extends none [] 0 (f.setLine line) where
  name := rfl
  outerLevel := rfl
  firstLine := rfl
  paramCount := rfl
  isVararg := rfl
  sections := rfl
  highWater := Nat.le_refl _
  upvalues := List.prefix_rfl
  constants := List.prefix_rfl
  children := List.prefix_rfl
  code := ⟨[], (List.append_nil _).symm, .nil⟩
  pc_le := Nat.le_refl _
  constants_le := Nat.le_refl _
  sound := { h with }

theorem locateKnown_advancing (span : Span) : Advancing 0 (locateKnown span) := by
  intro b h hrest hroom
  unfold locateKnown
  split
  · obtain ⟨line, map, generatedLine, hlocate⟩ := locate_eq span b
    apply ensures_modify
    rw [hlocate]
    exact ⟨.of_extends (extends_setLine h.sound line) rfl rfl rfl hrest, .of_eq rfl rfl⟩
  · exact ensures_pure ((balanced_refl h).advances hrest)

theorem declareLocal_advancing {value : UInt8 → Lower Unit}
    (hvalue : ∀ register, Balancing weight (value register)) (name : String) :
    Advancing weight (declareLocal name value) := by
  intro b h hrest hroom
  apply (allocate_ensures h).bind
  rintro register b₁ ⟨hgrows, hregister, hnext⟩
  have htaken : b.Yields 0 (.register register) b₁ := ⟨hgrows, .inr ⟨hregister, hnext⟩⟩
  apply (hvalue register b₁ (htaken.ready h) (hroom.after htaken.current (by omega))).bind
  intro _ b₂ hlowered
  have hheld := (htaken.balanced hlowered).weaken (Nat.le_of_eq (Nat.zero_add weight))
  apply (free_balanced h hheld).bind
  intro _ b₃ hfreed
  have hadvances := hfreed.advances hrest
  have hroom₃ : b₃.current.Room 0 := hadvances.current.room hroom (by omega)
  apply (onCurrent_ensures (FunctionBuilder.bindLocal_ensures hfreed.current.sound
    hadvances.current.atRest hroom₃.1 name)).bind
  rintro bound _ ⟨f, ⟨hbound, hlocal⟩, rfl⟩
  have hsame : bound = register := by
    apply UInt8.toNat_inj.mp
    rw [hbound, hregister, hfreed.nextFree]
  simp only [hsame, ne_eq, not_true_eq_false, ↓reduceIte]
  exact ensures_pure (hadvances.trans (advances_withCurrent hlocal))

theorem declareLocal_eq_ok {value : UInt8 → Lower Unit} {name : String}
    (hrun : declareLocal name value b = .ok () b') :
    ∃ register b₁ b₂, allocate b = .ok register b₁ ∧ value register b₁ = .ok () b₂ ∧
      b₂.current.scopes.checkFresh name b₂.current.line = .ok () ∧
      ∃ highWater, b' = { b₂ with current := { b₂.current with
        nextFree := register.toNat + 1
        highWater
        scopes :=
          b₂.current.scopes.add { name, register, startPc := .ofNat b₂.current.pc } } } := by
  obtain ⟨register, b₁, hallocate, hrun⟩ := bind_eq_ok.mp hrun
  obtain ⟨_, b₂, hvalue, hrun⟩ := bind_eq_ok.mp hrun
  obtain ⟨_, b₃, hfree, hrun⟩ := bind_eq_ok.mp hrun
  obtain ⟨next, rfl⟩ := free_eq hfree
  obtain ⟨bound, b₄, hbind, hrun⟩ := bind_eq_ok.mp hrun
  have hsame : bound = register := by
    apply Decidable.byContradiction
    intro hother
    simp only [ne_eq, hother, not_false_eq_true, ↓reduceIte] at hrun
    cases hrun
  subst hsame
  simp only [ne_eq, not_true_eq_false, ↓reduceIte] at hrun
  obtain ⟨-, rfl⟩ := pure_eq_ok.mp hrun
  obtain ⟨f, hbound, rfl⟩ := onCurrent_eq_ok.mp hbind
  rw [FunctionBuilder.bindLocal, FunctionBuilder.bindName_apply] at hbound
  split at hbound
  · cases hbound
  · next hfresh =>
    refine ⟨bound, b₁, b₂, hallocate, hvalue, hfresh, ?_⟩
    split at hbound
    · cases hbound
    · next register' taken htake =>
      obtain ⟨-, hregister, rfl⟩ := (FunctionBuilder.allocate_ensures _).of_ok htake
      cases hbound
      exact ⟨_, by rw [hregister]; rfl⟩

theorem discard_advancing {value : Lower Operand} (hvalue : Delivering none weight value) :
    Advancing weight (discard value) := by
  intro b h hrest hroom
  apply (hvalue b h hroom).bind
  intro operand b₁ hlowered
  apply (free_balanced h hlowered).mono
  intro _ b₂ hfreed
  exact hfreed.advances hrest

theorem callStatement_advancing {callee : Option UInt8 → Lower Operand} {args : Lower (List UInt8)}
    (hcallee : Serving weight callee) (hargs : Stacking weight' args) :
    Advancing (weight + weight' + 1) (callStatement callee args) := by
  intro b h hrest hroom
  apply (allocate_yields h).bind
  intro base b₁ hbase
  apply (call_balancing (hcallee (some base)) hargs 0 b₁ (hbase.ready h)
    (hroom.after hbase.current (by omega))).bind
  intro _ b₂ hcalled
  apply (free_balanced h (hbase.balanced hcalled)).mono
  intro _ b₃ hfreed
  exact (hfreed.advances hrest).weaken (by omega)

theorem returnValue_advancing {value : Lower Operand} (hvalue : Delivering none weight value) :
    Advancing (weight + 5) (returnValue value) := by
  intro b h hrest hroom
  rw [returnValue_eq]
  apply (hvalue b h (hroom.weaken (by omega))).bind
  intro operand b₁ hlowered
  apply (toRegister_yields h hlowered).bind
  intro register b₂ hheld
  apply (emit_free_balanced h hheld (Instruction.isPlain_of_op rfl)).mono
  intro _ b₃ hfreed
  exact hfreed.advances hrest

theorem returnNothing_advancing : Advancing 1 returnNothing :=
  Balancing.advancing fun _ h _ => emit_balanced h (Instruction.isPlain_of_op rfl)

theorem throw_advancing {error : Error} (h : error.IsProgramFault) :
    Advancing weight (throw error) :=
  fun _ _ _ _ => ensures_throw h

theorem skip_advancing : Advancing 0 (pure ()) :=
  fun _ h hrest _ => ensures_pure ((balanced_refl h).advances hrest)

theorem deadBranch_advancing {body rest : Lower Unit} (hbody : Advancing weight body)
    (hrest : Advancing weight' rest) : Advancing (weight + weight') (deadBranch body rest) := by
  intro b h hatRest hroom
  apply onCurrent_modify_bind
  have hready : Ready { b with current := b.current.openSection } :=
    h.withCurrent { h.sound with } List.prefix_rfl
  apply (inScope_ensures hbody _ hready hatRest (hroom.weaken (by omega))).bind
  rintro _ b₁ ⟨hinside, hstack⟩
  have hcapacity : b.current.pc ≤ FunctionBuilder.capacity :=
    Nat.le_trans (Nat.le_add_right _ _) hroom.1
  apply (onCurrent_ensures (FunctionBuilder.discardSection_advances h.sound hcapacity
    hinside.current hstack)).bind
  rintro _ _ ⟨f, ⟨hadvances, -⟩, rfl⟩
  have hgone : b.Advances [] weight { b₁ with current := f } :=
    ⟨hadvances, hinside.around.options, hinside.around.enclosing⟩
  apply (hrest _ (hgone.ready h) hadvances.atRest (hadvances.room hroom (by omega))).mono
  intro _ b₂ hdone
  exact hgone.trans hdone

theorem branch_advancing {condition : Lower Operand} {body : Lower Unit}
    (hcondition : Delivering none weight condition) (hbody : Advancing weight' body) :
    Advancing (weight + weight' + 6) (branch condition body) := by
  intro b h hrest hroom
  apply (jumpUnless_awaits hcondition h (hroom.weaken (by omega))).bind
  intro skip b₁ hwaiting
  have htested := hwaiting.advances hrest
  apply (inScope_advancing hbody _ b₁ (htested.ready h) htested.current.atRest
    (htested.current.room hroom (by omega))).bind
  intro _ b₂ hinside
  have hadvances := htested.trans hinside
  apply (aimHere_advances_nil hadvances (hadvances.current.room hroom (by omega))).mono
  intro _ b₃ hdone
  exact hdone.weaken (by omega)

theorem branchElse_advancing {condition : Lower Operand} {body otherwise : Lower Unit}
    {weight'' : Nat} (hcondition : Delivering none weight condition)
    (hbody : Advancing weight' body) (hotherwise : Advancing weight'' otherwise) :
    Advancing (weight + weight' + weight'' + 7) (branchElse condition body otherwise) := by
  intro b h hrest hroom
  apply (jumpUnless_awaits hcondition h (hroom.weaken (by omega))).bind
  intro skip b₁ hwaiting
  have htested := hwaiting.advances hrest
  apply (inScope_advancing hbody _ b₁ (htested.ready h) htested.current.atRest
    (htested.current.room hroom (by omega))).bind
  intro _ b₂ hinside
  have hthen := htested.trans hinside
  apply (jump_awaits (hthen.ready h)).bind
  intro done b₃ hwaiting'
  have hboth := hthen.trans (hwaiting'.advances hthen.current.atRest)
  have hrest' : ∀ q ∈ [skip] ++ [] ++ [done], q = skip ∨ q ∈ [done] := by simp
  have hroom₃ : b₃.current.Room 0 := hboth.current.room hroom (by omega)
  apply (aimHere_advances hboth hroom₃.1 (by simp) hrest' (by simp)).bind
  intro _ b₄ haimed
  apply (inScope_advancing hotherwise _ b₄ (haimed.ready h) haimed.current.atRest
    (haimed.current.room hroom (by omega))).bind
  intro _ b₅ hinside'
  have hadvances := haimed.trans hinside'
  apply (aimHere_advances_nil hadvances (hadvances.current.room hroom (by omega))).mono
  intro _ b₆ hdone
  exact hdone.weaken (by omega)

/-- Inside, continues go to the head; afterwards the head is an index of the code like
any other, and no break is left over. -/
theorem whileLoop_advancing {condition : Lower Operand} {body : Lower Unit}
    (hcondition : Delivering none weight condition) (hbody : Advancing weight' body) :
    Advancing (weight + weight' + 7) (whileLoop condition body) := by
  intro b h hrest hroom
  apply ensures_get_bind
  apply onCurrent_modify_bind
  have hready : Ready { b with current := b.current.openLoop (some b.current.pc) } :=
    h.withCurrent (FunctionBuilder.sound_openLoop h.sound) List.prefix_rfl
  have hroom' : (b.current.openLoop (some b.current.pc)).Room (weight + weight' + 7) := hroom
  apply (jumpUnless_awaits hcondition hready (hroom'.weaken (by omega))).bind
  intro done b₁ hwaiting
  have htested := hwaiting.advances hrest
  apply (inScope_advancing hbody _ b₁ (htested.ready hready) htested.current.atRest
    (htested.current.room hroom' (by omega))).bind
  intro _ b₂ hinside
  have hbodyDone := htested.trans hinside
  have hroom₂ : b₂.current.Room 1 := hbodyDone.current.room hroom' (by omega)
  have hpc : b.current.pc ≤ b₂.current.pc := hbodyDone.current.pc_ge
  have hcapacity : b₂.current.pc < FunctionBuilder.capacity :=
    Nat.lt_of_lt_of_le (Nat.lt_succ_self _) hroom₂.1
  have hhead : b₂.current.loops.head? = some b.current.pc := hbodyDone.current.head?
  apply (onCurrent_ensures (FunctionBuilder.jumpTo_advances hbodyDone.current.sound
    hbodyDone.current.atRest hcapacity hpc hhead)).bind
  rintro _ _ ⟨f, ⟨hback, -⟩, rfl⟩
  have hround := hbodyDone.trans (advances_withCurrent hback)
  have hroom₃ : f.Room 0 := hround.current.room hroom' (by omega)
  apply (aimHere_advances_nil hround hroom₃).bind
  intro _ b₄ haimed
  obtain ⟨breaks, hextends, hloops, -⟩ := haimed.current.grown
  have hroom₄ : b₄.current.Room 0 := haimed.current.room hroom' (by omega)
  apply (onCurrent_ensures (FunctionBuilder.closeLoop_ensures hextends h.sound hloops
    hroom₄.1)).mono
  rintro _ _ ⟨_, ⟨hclosed, instructions, rfl⟩, rfl⟩
  exact ⟨⟨⟨[], hclosed.weaken (by omega), (Loops.withBreaks_nil _).symm, fun _ => rfl⟩,
    haimed.current.bound, haimed.current.logged, haimed.current.atRest⟩,
    haimed.around.options, haimed.around.enclosing⟩

theorem breakLoop_advancing : Advancing 1 (onCurrent FunctionBuilder.breakLoop) :=
  fun _ h hrest _ => onCurrent_advances
    ((FunctionBuilder.breakLoop_ensures h.sound hrest).mono fun _ _ hpost => hpost.1)

theorem continueLoop_advancing : Advancing 1 (onCurrent FunctionBuilder.continueLoop) := by
  intro b h hrest hroom
  have hcapacity : b.current.pc < FunctionBuilder.capacity :=
    Nat.lt_of_lt_of_le (Nat.lt_succ_self _) hroom.1
  exact onCurrent_advances
    ((FunctionBuilder.continueLoop_ensures h.sound hrest hcapacity).mono fun _ _ hpost => hpost.1)

theorem defineFunction_advancing {closure : UInt8 → Lower Unit}
    (hclosure : ∀ register, Balancing weight (closure register)) (name : String) :
    Advancing weight (defineFunction name closure) := by
  intro b h hrest hroom
  have hcapacity : b.current.pc ≤ FunctionBuilder.capacity :=
    Nat.le_trans (Nat.le_add_right _ _) hroom.1
  apply (onCurrent_ensures (FunctionBuilder.bindLocal_ensures h.sound hrest hcapacity name)).bind
  rintro register _ ⟨f, ⟨-, hlocal⟩, rfl⟩
  have hbound := advances_withCurrent hlocal
  apply (hclosure register _ (hbound.ready h) (hbound.current.room hroom (by omega))).mono
  intro _ b₁ hloaded
  exact (hbound.trans (hloaded.advances hbound.current.atRest)).weaken (by omega)

end Lower

end RegisterCode
