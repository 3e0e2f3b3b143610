import RegisterCode.Proofs.BuilderSteps

/-! Scopes, loops and sections of a function. Each is opened, filled by statements and
closed again, and afterwards nothing but the code of the statements is left. -/
namespace RegisterCode

open Action

namespace Scopes

theorem registers_cons (scope : Scope) (outer : List Scope) (log log' : List LocalRange) :
    registers ⟨scope :: outer, log⟩ =
      registers ⟨outer, log'⟩ ++ scope.locals.map fun l => l.register.toNat := by
  simp [registers]

@[simp] theorem gain_nil (stack : List Scope) : gain [] stack = stack := by
  cases stack with
  | nil => rfl
  | cons scope outer => simp [gain]

@[simp] theorem gain_gain (first second : List Local) (stack : List Scope) :
    gain second (gain first stack) = gain (first ++ second) stack := by
  cases stack with
  | nil => rfl
  | cons scope outer => simp [gain]

@[simp] theorem length_gain (bound : List Local) (stack : List Scope) :
    (gain bound stack).length = stack.length := by
  cases stack <;> rfl

theorem add_eq_gain (l : Local) (scopes : Scopes) :
    scopes.add l = { scopes with stack := gain [l] scopes.stack } := by
  cases scopes with
  | mk stack log => cases stack <;> rfl

theorem registers_gain {stack : List Scope} (hstack : stack ≠ []) (bound : List Local)
    (log log' : List LocalRange) :
    registers ⟨gain bound stack, log⟩ =
      registers ⟨stack, log'⟩ ++ bound.map fun l => l.register.toNat := by
  cases stack with
  | nil => exact absurd rfl hstack
  | cons scope outer =>
    rw [gain, registers_cons _ _ _ log', registers_cons _ _ _ log', List.map_append,
      List.append_assoc]

theorem mem_locals_gain {bound : List Local} {stack : List Scope} {log log' : List LocalRange}
    {l : Local} (h : l ∈ locals ⟨gain bound stack, log⟩) :
    l ∈ locals ⟨stack, log'⟩ ∨ l ∈ bound := by
  cases stack with
  | nil => exact .inl h
  | cons scope outer =>
    simp only [locals, gain, List.flatMap_cons, List.mem_append] at h ⊢
    tauto

theorem lowest_of_registers {bound : List Local} {n : Nat}
    (hown : ∀ l ∈ bound, l.isAlias = false)
    (hregisters : (bound.map fun l => l.register.toNat) = List.range' n bound.length) :
    match ((bound.filter (!·.isAlias)).map Local.register).min? with
    | none => bound = []
    | some lowest => lowest.toNat = n := by
  have hall : bound.filter (!·.isAlias) = bound := by
    rw [List.filter_eq_self]
    intro l hl
    simp [hown l hl]
  have hmem : ∀ m, (∃ l ∈ bound, l.register.toNat = m) ↔ m ∈ List.range' n bound.length := by
    intro m
    rw [← hregisters, List.mem_map]
  rw [hall]
  split
  · next hnone => simpa using hnone
  · next lowest hlowest =>
    obtain ⟨hin, hleast⟩ := List.min?_eq_some_iff.mp hlowest
    obtain ⟨l, hl, rfl⟩ := List.mem_map.mp hin
    have hge : n ≤ l.register.toNat := (List.mem_range'_1.mp ((hmem _).mp ⟨l, hl, rfl⟩)).1
    have hlength : 0 < bound.length := List.length_pos_of_mem hl
    obtain ⟨first, hfirst, hregister⟩ := (hmem n).mpr (by simp [hlength])
    have hle := hleast first.register (List.mem_map_of_mem hfirst)
    rw [UInt8.le_iff_toNat_le] at hle
    omega

end Scopes

namespace FunctionBuilder

variable {f f' f'' : FunctionBuilder} {pending more : List Nat} {weight weight' : Nat}

/-- No register is in use but those of the locals. -/
def AtRest (f : FunctionBuilder) : Prop :=
  f.nextFree = f.scopes.count

/-- The function grew by statements: they may have left breaks with the innermost
loop, locals with the innermost scope, and ranges of locals in the log. -/
structure Advances (pending : List Nat) (weight : Nat) (f f' : FunctionBuilder) : Prop where
  grown : ∃ breaks, f.Extends f.loops.head? (pending ++ breaks) weight f' ∧
    f'.loops = f.loops.withBreaks breaks ∧ (f.loops.stack = [] → breaks = [])
  bound : ∃ bound, f'.scopes.stack = Scopes.gain bound f.scopes.stack ∧
    ∀ l ∈ bound, f.pc ≤ l.startPc.toNat
  logged : ∃ closed, f'.scopes.log = closed ++ f.scopes.log ∧
    ∀ r ∈ closed, f.pc ≤ r.startPc.toNat
  atRest : f'.AtRest

namespace Advances

theorem sound (h : Advances pending weight f f') : f'.Sound := by
  obtain ⟨breaks, hextends, -⟩ := h.grown
  exact hextends.sound

theorem pc_ge (h : Advances pending weight f f') : f.pc ≤ f'.pc := by
  obtain ⟨breaks, hextends, -⟩ := h.grown
  exact hextends.pc_ge

theorem room {total rest : Nat} (h : Advances pending weight f f') (hroom : f.Room total)
    (hle : weight + rest ≤ total) : f'.Room rest := by
  obtain ⟨breaks, hextends, -⟩ := h.grown
  exact hroom.after hextends hle

theorem weaken (h : Advances pending weight f f') (hle : weight ≤ weight') :
    Advances pending weight' f f' :=
  { h with
    grown := by
      obtain ⟨breaks, hextends, hloops⟩ := h.grown
      exact ⟨breaks, hextends.weaken hle, hloops⟩ }

theorem trans (h : Advances pending weight f f') (h' : Advances more weight' f' f'') :
    Advances (pending ++ more) (weight + weight') f f'' where
  grown := by
    obtain ⟨breaks, hextends, hloops, hnone⟩ := h.grown
    obtain ⟨breaks', hextends', hloops', hnone'⟩ := h'.grown
    rw [hloops, Loops.head?_withBreaks] at hextends'
    refine ⟨breaks ++ breaks', ?_, ?_, ?_⟩
    · apply (hextends.trans hextends').congr
      intro p
      simp only [List.mem_append]
      tauto
    · rw [hloops', hloops, Loops.withBreaks_withBreaks]
    · intro hstack
      have hstack' : f'.loops.stack = [] := by
        rw [hloops]
        simp [Loops.withBreaks, hstack]
      rw [hnone hstack, hnone' hstack', List.append_nil]
  bound := by
    obtain ⟨bound, hstack, hstart⟩ := h.bound
    obtain ⟨bound', hstack', hstart'⟩ := h'.bound
    refine ⟨bound ++ bound', by rw [hstack', hstack, Scopes.gain_gain], ?_⟩
    intro l hl
    have hle := h.pc_ge
    rcases List.mem_append.mp hl with hl | hl
    · exact hstart l hl
    · exact Nat.le_trans hle (hstart' l hl)
  logged := by
    obtain ⟨closed, hlog, hstart⟩ := h.logged
    obtain ⟨closed', hlog', hstart'⟩ := h'.logged
    refine ⟨closed' ++ closed, by rw [hlog', hlog, List.append_assoc], ?_⟩
    intro r hr
    have hle := h.pc_ge
    rcases List.mem_append.mp hr with hr | hr
    · exact Nat.le_trans hle (hstart' r hr)
    · exact hstart r hr
  atRest := h'.atRest

theorem head? (h : Advances pending weight f f') : f'.loops.head? = f.loops.head? := by
  obtain ⟨breaks, -, hloops, -⟩ := h.grown
  rw [hloops, Loops.head?_withBreaks]

theorem of_extends (h : f.Extends none pending weight f') (hscopes : f'.scopes = f.scopes)
    (hloops : f'.loops = f.loops) (hnext : f'.nextFree = f.nextFree) (hrest : f.AtRest) :
    Advances pending weight f f' where
  grown := ⟨[], by rw [List.append_nil]; exact h.of_none, by rw [hloops, Loops.withBreaks_nil],
    fun _ => rfl⟩
  bound := ⟨[], by rw [hscopes, Scopes.gain_nil], by simp⟩
  logged := ⟨[], by rw [hscopes, List.nil_append], by simp⟩
  atRest := by
    unfold AtRest at hrest ⊢
    rw [hnext, hscopes, hrest]

end Advances

theorem sound_openScope (h : f.Sound) (name : String) : (f.openScope name).Sound := by
  have hregisters : (f.openScope name).scopes.registers = f.scopes.registers := by
    rw [openScope, Scopes.openScope, Scopes.registers_cons _ _ _ f.scopes.log]
    simp
  have hcount : (f.openScope name).scopes.count = f.scopes.count := by
    rw [Scopes.count, hregisters, Scopes.count]
  have hlocals : (f.openScope name).scopes.locals = f.scopes.locals := by
    simp [openScope, Scopes.openScope, Scopes.locals]
  exact { h with
    inScope := by simp [openScope, Scopes.openScope]
    own := by
      rw [hlocals]
      exact h.own
    registers := by
      rw [hregisters, hcount]
      exact h.registers
    count_le := by
      rw [hcount]
      exact h.count_le
    started := by
      rw [hlocals]
      exact h.started }

theorem atRest_openScope (h : f.AtRest) (name : String) : (f.openScope name).AtRest := by
  unfold AtRest at h ⊢
  rw [Scopes.count, openScope, Scopes.openScope, Scopes.registers_cons _ _ _ f.scopes.log]
  simpa [Scopes.count] using h

theorem closeScope_apply {scope : Scope} {outer : List Scope}
    (hstack : f.scopes.stack = scope :: outer) :
    closeScope f = .ok ()
      { f with
        scopes := ⟨outer, scope.locals.map (Local.range (.ofNat f.pc)) ++ f.scopes.log⟩
        nextFree := match ((scope.locals.filter (!·.isAlias)).map Local.register).min? with
          | some lowest => lowest.toNat
          | none => f.nextFree } := by
  unfold closeScope
  rw [onScopes_apply]
  simp only [Scopes.closeScope, hstack]
  generalize ((scope.locals.filter (!·.isAlias)).map Local.register).min? = lowest
  cases lowest <;> rfl

theorem Sound.registers_inner {scope : Scope} (h : f.Sound) (h' : f'.Sound)
    (hstack : f'.scopes.stack = scope :: f.scopes.stack) :
    f'.scopes.count = f.scopes.count + scope.locals.length ∧
      (scope.locals.map fun l => l.register.toNat) =
        List.range' f.scopes.count scope.locals.length := by
  have hall : f'.scopes.registers =
      f.scopes.registers ++ scope.locals.map fun l => l.register.toNat := by
    rw [← Scopes.registers_cons scope f.scopes.stack f'.scopes.log f.scopes.log, ← hstack]
  have hcount : f'.scopes.count = f.scopes.count + scope.locals.length := by
    rw [Scopes.count, hall, List.length_append, List.length_map, Scopes.count]
  have hrange := h'.registers
  rw [hall, h.registers, hcount, List.range_add] at hrange
  rw [List.range'_eq_map_range]
  exact ⟨hcount, List.append_cancel_left hrange⟩

theorem closeScope_eq {scope : Scope} (h : f.Sound) (h' : f'.Sound) (hrest : f'.AtRest)
    (hstack : f'.scopes.stack = scope :: f.scopes.stack) :
    closeScope f' = .ok () { f' with
      scopes := ⟨f.scopes.stack,
        scope.locals.map (Local.range (.ofNat f'.pc)) ++ f'.scopes.log⟩
      nextFree := f.scopes.count } := by
  obtain ⟨hcount, hregisters⟩ := h.registers_inner h' hstack
  have hown : ∀ l ∈ scope.locals, l.isAlias = false := by
    intro l hl
    exact h'.own l (by simp [Scopes.locals, hstack, hl])
  have hlowest := Scopes.lowest_of_registers hown hregisters
  rw [closeScope_apply hstack]
  split at hlowest
  · next hmin =>
    have hnext : f'.nextFree = f.scopes.count := by
      rw [hrest, hcount, hlowest]
      rfl
    simp only [hmin, hnext]
  · next lowest hmin => simp only [hmin, hlowest]

theorem closeScope_ensures {name : String} (hsound : f.Sound)
    (h : Advances pending weight (f.openScope name) f') (hcapacity : f'.pc ≤ capacity) :
    closeScope.Ensures f' fun _ f'' =>
      Advances pending weight f f'' ∧ f''.scopes.stack = f.scopes.stack := by
  obtain ⟨bound, hstack, hstart⟩ := h.bound
  obtain ⟨closed, hlog, hclosed⟩ := h.logged
  obtain ⟨breaks, hextends, hloops, hnone⟩ := h.grown
  have hsound' := h.sound
  have hstack' : f'.scopes.stack = { name, locals := bound } :: f.scopes.stack := hstack
  have hlocals : ∀ {l : Local}, l ∈ bound ∨ l ∈ f.scopes.locals → l ∈ f'.scopes.locals := by
    intro l hl
    simpa [Scopes.locals, hstack'] using hl
  apply ensures_of_eq_ok (closeScope_eq hsound hsound' h.atRest hstack')
  have hend := toNat_ofNat_of_le hcapacity
  have hrange : ∀ r ∈ bound.map (Local.range (.ofNat f'.pc)), f.pc ≤ r.startPc.toNat ∧
      r.startPc.toNat ≤ r.endPc.toNat ∧ r.endPc.toNat ≤ f'.pc := by
    intro r hr
    obtain ⟨l, hl, rfl⟩ := List.mem_map.mp hr
    obtain ⟨hstarted, hopen⟩ := hsound'.started l (hlocals (.inl hl))
    have hfrom := hstart l hl
    simp only [Local.range, hopen, Option.getD_none, hend]
    exact ⟨hfrom, hstarted, Nat.le_refl _⟩
  have hcount : f.scopes.count ≤ f'.scopes.count := by
    rw [(hsound.registers_inner hsound' hstack').1]
    exact Nat.le_add_right _ _
  refine ⟨⟨⟨breaks, { hextends with sound := ?_ }, hloops, hnone⟩, ?_, ?_, rfl⟩, rfl⟩
  · exact { hsound' with
      inScope := hsound.inScope
      own := fun l hl => hsound'.own l (hlocals (.inr hl))
      registers := hsound.registers
      count_le := Nat.le_refl _
      nextFree_le := Nat.le_trans hcount (Nat.le_trans hsound'.count_le hsound'.nextFree_le)
      started := fun l hl => hsound'.started l (hlocals (.inr hl))
      logged := by
        intro r hr
        rcases List.mem_append.mp hr with hr | hr
        · exact (hrange r hr).2
        · exact hsound'.logged r hr }
  · exact ⟨[], (Scopes.gain_nil _).symm, by simp⟩
  · refine ⟨bound.map (Local.range (.ofNat f'.pc)) ++ closed, ?_, ?_⟩
    · rw [List.append_assoc]
      exact congrArg _ hlog
    · intro r hr
      rcases List.mem_append.mp hr with hr | hr
      · exact (hrange r hr).1
      · exact hclosed r hr

def withLocal (l : Local) (f : FunctionBuilder) : FunctionBuilder :=
  { f with
    nextFree := f.nextFree + 1
    highWater := max f.highWater (f.nextFree + 1)
    scopes := f.scopes.add l }

theorem bindName_ensures (h : f.Sound) (name : String) (startPc : UInt32) :
    (bindName name startPc).Ensures f fun register f' =>
      f.scopes.checkFresh name f.line = .ok () ∧ f.nextFree < maxRegisters ∧
        register.toNat = f.nextFree ∧ f' = f.withLocal { name, register, startPc } := by
  have hfault : ∀ error, f.scopes.checkFresh name f.line = .error error →
      error.IsProgramFault := by
    intro error herror
    unfold Scopes.checkFresh at herror
    split at herror
    · next hstack => exact absurd hstack h.inScope
    · split at herror
      · injection herror with herror
        subst herror
        rfl
      · simp at herror
  have hallocate := allocate_ensures f
  rw [ensures_iff] at hallocate ⊢
  rw [bindName_apply]
  cases hfresh : f.scopes.checkFresh name f.line with
  | error error => exact hfault error hfresh
  | ok _ =>
    dsimp only
    cases hrun : allocate f with
    | error error after =>
      rw [hrun] at hallocate
      exact hallocate
    | ok register after =>
      rw [hrun] at hallocate
      obtain ⟨hlt, hregister, rfl⟩ := hallocate
      exact ⟨rfl, hlt, hregister, rfl⟩

theorem registers_withLocal (h : f.Sound) (l : Local) :
    (f.withLocal l).scopes.registers = f.scopes.registers ++ [l.register.toNat] := by
  rw [withLocal, Scopes.add_eq_gain, Scopes.registers_gain h.inScope _ _ f.scopes.log]
  rfl

theorem count_withLocal (h : f.Sound) (l : Local) :
    (f.withLocal l).scopes.count = f.scopes.count + 1 := by
  rw [Scopes.count, registers_withLocal h, List.length_append, List.length_singleton, Scopes.count]

theorem atRest_withLocal (h : f.Sound) (hrest : f.AtRest) (l : Local) :
    (f.withLocal l).AtRest := by
  unfold AtRest at hrest ⊢
  rw [count_withLocal h, ← hrest]
  rfl

theorem sound_withLocal (h : f.Sound) (hrest : f.AtRest) {l : Local}
    (hlt : f.nextFree < maxRegisters) (hregister : l.register.toNat = f.nextFree)
    (hstart : l.startPc.toNat ≤ f.pc) (hend : l.endPc = none) (hown : l.isAlias = false) :
    (f.withLocal l).Sound := by
  have hmem : ∀ other ∈ (f.withLocal l).scopes.locals, other ∈ f.scopes.locals ∨ other = l := by
    intro other hother
    rw [withLocal, Scopes.add_eq_gain] at hother
    have hsplit : other ∈ f.scopes.locals ∨ other ∈ [l] := Scopes.mem_locals_gain hother
    simpa using hsplit
  have hhigh := h.highWater_le
  exact { h with
    inScope := by
      have hstack := h.inScope
      rw [withLocal, Scopes.add_eq_gain, Ne, ← List.length_eq_zero_iff, Scopes.length_gain,
        List.length_eq_zero_iff]
      exact hstack
    own := by
      intro other hother
      rcases hmem other hother with hother | rfl
      · exact h.own other hother
      · exact hown
    registers := by
      rw [registers_withLocal h, count_withLocal h, List.range_succ, h.registers, hregister, hrest]
    count_le := Nat.le_of_eq (atRest_withLocal h hrest l).symm
    nextFree_le := Nat.le_max_right _ _
    highWater_le := show max f.highWater (f.nextFree + 1) ≤ maxRegisters by omega
    started := by
      intro other hother
      rcases hmem other hother with hother | rfl
      · exact h.started other hother
      · exact ⟨hstart, hend⟩
    logged := by
      rw [withLocal, Scopes.add_eq_gain]
      exact h.logged }

theorem bindLocal_ensures (h : f.Sound) (hrest : f.AtRest) (hcapacity : f.pc ≤ capacity)
    (name : String) :
    (bindLocal name).Ensures f fun register f' =>
      register.toNat = f.nextFree ∧ Advances [] 0 f f' := by
  have hrun : bindLocal name f = bindName name (.ofNat f.pc) f := rfl
  apply ((bindName_ensures h name (.ofNat f.pc)).congr hrun).mono
  rintro register _ ⟨-, hlt, hregister, rfl⟩
  have hstart := toNat_ofNat_of_le hcapacity
  have hsound := sound_withLocal h hrest hlt (l := { name, register, startPc := .ofNat f.pc })
    hregister (Nat.le_of_eq hstart) rfl rfl
  refine ⟨hregister, ?_, ?_, ?_, atRest_withLocal h hrest _⟩
  · refine ⟨[], ?_, (Loops.withBreaks_nil _).symm, fun _ => rfl⟩
    exact extends_of_code_eq (f := f) hsound rfl rfl rfl rfl rfl rfl (Nat.le_max_left _ _)
      List.prefix_rfl List.prefix_rfl (Nat.le_add_right _ _) List.prefix_rfl
  · refine ⟨[{ name, register, startPc := .ofNat f.pc }], ?_, by simp [hstart]⟩
    rw [withLocal, Scopes.add_eq_gain]
  · refine ⟨[], ?_, by simp⟩
    rw [withLocal, Scopes.add_eq_gain]
    rfl

theorem parkBreak_apply {index : Nat} {loops : Loops} (h : loops.stack ≠ []) :
    Loops.parkBreak index loops = .ok () (loops.withBreaks [index]) := by
  cases loops with
  | mk stack =>
    cases stack with
    | nil => exact absurd rfl h
    | cons loop outer => rfl

theorem heads_withBreaks {breaks : List Nat} {loops : Loops} {P : Loop → Prop}
    (h : ∀ loop ∈ loops.stack, P loop)
    (hbreaks : ∀ loop, P loop → P { loop with breaks := loop.breaks ++ breaks }) :
    ∀ loop ∈ (loops.withBreaks breaks).stack, P loop := by
  cases loops with
  | mk stack =>
    cases stack with
    | nil => exact h
    | cons loop outer =>
      intro other hother
      rcases List.mem_cons.mp hother with rfl | hother
      · exact hbreaks loop (h loop (by simp))
      · exact h other (by simp [hother])

theorem breakLoop_ensures (h : f.Sound) (hrest : f.AtRest) :
    breakLoop.Ensures f fun _ f' => Advances [] 1 f f' ∧ f.pc ∈ f'.loops.breaks := by
  unfold breakLoop
  apply ensures_get_bind
  split
  · next hopen =>
    have hstack : f.loops.stack ≠ [] := by simpa [Loops.anyOpen] using hopen
    apply (emit_ensures { op := .jmp } f).bind
    rintro _ _ ⟨rfl, hencode, rfl⟩
    have hencodes : ∀ i ∈ [f.stamped { op := .jmp }], ∃ word, i.encode = .ok word := by
      simpa using hencode
    have hextends : f.Extends f.loops.head? [f.pc] 1 (f.placed [f.stamped { op := .jmp }]) :=
      extends_placed h hencodes (.jump rfl) (Nat.le_refl _)
    have hrun : onLoops (Loops.parkBreak f.pc) (f.placed [f.stamped { op := .jmp }]) =
        .ok () { f.placed [f.stamped { op := .jmp }] with loops := f.loops.withBreaks [f.pc] } := by
      rw [onLoops_apply]
      simp only [placed, parkBreak_apply hstack]
    apply ensures_of_eq_ok hrun
    have hparked : f.pc ∈ (f.loops.withBreaks [f.pc]).breaks := by
      rw [Loops.breaks_withBreaks fun hnone => absurd hnone hstack]
      simp
    refine ⟨⟨⟨[f.pc], { hextends with sound := ?_ }, rfl, fun hnone => absurd hnone hstack⟩,
      ⟨[], (Scopes.gain_nil _).symm, by simp⟩, ⟨[], rfl, by simp⟩, hrest⟩, hparked⟩
    exact { hextends.sound with
      parked := by
        intro p hp
        have hpc := hextends.sound.parked p
        rcases Loops.mem_parked_withBreaks hp with hp | hp
        · exact hpc hp
        · rw [List.mem_singleton.mp hp]
          have hone : (f.placed [f.stamped { op := .jmp }]).pc = f.pc + 1 := pc_placed _ _
          exact Nat.lt_of_lt_of_eq (Nat.lt_succ_self _) hone.symm
      heads := heads_withBreaks hextends.sound.heads fun _ hloop => hloop }
  · exact ensures_throw rfl

def jumpBack (target : Nat) (f : FunctionBuilder) : Instruction :=
  f.stamped { op := .jmp, b := Code.displacement f.pc target }

theorem jumpBack_target {target : Nat} (hcapacity : f.pc < capacity) (htarget : target ≤ f.pc) :
    (target : Int) = f.pc + 1 + (f.jumpBack target).b := by
  have hdisplacement := displacement_eq hcapacity (Nat.le_trans htarget (Nat.le_of_lt hcapacity))
  simp only [jumpBack, stamped, hdisplacement]
  omega

theorem jumpTo_advances {target : Nat} (h : f.Sound) (hrest : f.AtRest)
    (hcapacity : f.pc < capacity) (htarget : target ≤ f.pc)
    (hhead : f.loops.head? = some target) :
    (jumpTo target).Ensures f fun _ f' =>
      Advances [] 1 f f' ∧ f' = f.placed [f.jumpBack target] := by
  apply ((emit_ensures _ f).congr (jumpTo_eq_emit target f)).mono
  rintro _ _ ⟨-, hencode, rfl⟩
  have hencodes : ∀ i ∈ [f.jumpBack target], ∃ word, i.encode = .ok word := by
    simpa [jumpBack] using hencode
  have hextends : f.Extends f.loops.head? [] 1 (f.placed [f.jumpBack target]) :=
    extends_placed h hencodes (.jumpTo rfl (jumpBack_target hcapacity htarget) hhead)
      (Nat.le_refl _)
  exact ⟨⟨⟨[], hextends, (Loops.withBreaks_nil _).symm, fun _ => rfl⟩,
    ⟨[], (Scopes.gain_nil _).symm, by simp⟩, ⟨[], rfl, by simp⟩, hrest⟩, rfl⟩

theorem continueLoop_ensures (h : f.Sound) (hrest : f.AtRest) (hcapacity : f.pc < capacity) :
    continueLoop.Ensures f fun _ f' => Advances [] 1 f f' ∧
      ∃ head, f.loops.head? = some head ∧ head ≤ f.pc ∧ f' = f.placed [f.jumpBack head] := by
  unfold continueLoop
  apply ensures_get_bind
  have hfault : ∀ error, f.loops.continueTarget = .error error → error.IsProgramFault := by
    intro error herror
    unfold Loops.continueTarget at herror
    split at herror
    · injection herror with herror
      subst herror
      rfl
    · simp at herror
  apply ensures_ofExcept_bind hfault
  intro target htarget
  unfold Loops.continueTarget at htarget
  split at htarget
  · simp at htarget
  · next loop outer hstack =>
    obtain ⟨-, head, hhead, hle⟩ := h.heads loop (by simp [hstack])
    injection htarget with htarget
    rw [← htarget, hhead]
    have hinnermost : f.loops.head? = some head := by simp [Loops.head?, hstack, hhead]
    apply (jumpTo_advances h hrest hcapacity hle hinnermost).bind
    rintro _ f' ⟨hadvances, hplaced⟩
    exact ensures_pure ⟨hadvances, head, hinnermost, hle, hplaced⟩

theorem sound_openLoop (h : f.Sound) : (f.openLoop (some f.pc)).Sound :=
  { h with
    parked := by
      intro p hp
      apply h.parked p
      simpa [openLoop, Loops.openLoop, Loops.parked, Loop.parked] using hp
    heads := by
      intro loop hloop
      rcases List.mem_cons.mp hloop with rfl | hloop
      · exact ⟨rfl, f.pc, rfl, Nat.le_refl _⟩
      · exact h.heads loop hloop }

theorem aimAll_ensures {head : Option Nat} (breaks : List Nat)
    (h : Extends head breaks weight f f') (hcapacity : f'.pc ≤ capacity) :
    (breaks.forM (aim · f'.pc)).Ensures f' fun _ f'' => Extends head [] weight f f'' ∧
      ∃ instructions, f'' = { f' with code := { f'.code with instructions } } := by
  induction breaks generalizing f' with
  | nil => exact ensures_pure ⟨h, _, rfl⟩
  | cons p rest ih =>
    rw [List.forM_eq_forM, List.forM_cons]
    have hrest : ∀ q ∈ p :: rest, q = p ∨ q ∈ rest := fun q hq => List.mem_cons.mp hq
    apply (aim_extends h hcapacity (by simp) hrest fun q hq => List.mem_cons_of_mem p hq).bind
    rintro _ _ ⟨hextends, i, rfl⟩
    have hpc : (f'.replaced p i).pc = f'.pc := pc_replaced p i f'
    rw [← hpc] at hcapacity ⊢
    apply (ih hextends hcapacity).mono
    rintro _ _ ⟨hall, instructions, rfl⟩
    exact ⟨hall, instructions, rfl⟩

theorem closeLoop_ensures {head : Option Nat} {breaks : List Nat}
    (h : Extends (some f.pc) breaks weight (f.openLoop (some f.pc)) f') (hsound : f.Sound)
    (hloops : f'.loops = (f.openLoop (some f.pc)).loops.withBreaks breaks)
    (hcapacity : f'.pc ≤ capacity) :
    closeLoop.Ensures f' fun _ f'' => Extends head [] weight f f'' ∧
      ∃ instructions, f'' =
        { f' with loops := f.loops, code := { f'.code with instructions } } := by
  have hpc : f.pc ≤ f'.pc := h.pc_ge
  have hrun : onLoops Loops.closeLoop f' =
      .ok { continueTarget := some f.pc, breaks } { f' with loops := f.loops } := by
    rw [onLoops_apply, hloops]
    rfl
  have hclosed : ({ f' with loops := f.loops } : FunctionBuilder).Sound :=
    { h.sound with
      parked := fun p hp => Nat.lt_of_lt_of_le (hsound.parked p hp) hpc
      heads := by
        intro loop hloop
        obtain ⟨hcontinues, head, hhead, hle⟩ := hsound.heads loop hloop
        exact ⟨hcontinues, head, hhead, Nat.le_trans hle hpc⟩ }
  have hextends : Extends (some f.pc) breaks weight f { f' with loops := f.loops } :=
    { h with sound := hclosed }
  have hpopped : (onLoops Loops.closeLoop).Ensures f' fun loop g =>
      loop = { continueTarget := some f.pc, breaks } ∧ g = { f' with loops := f.loops } :=
    ensures_of_eq_ok hrun ⟨rfl, rfl⟩
  unfold closeLoop
  apply hpopped.bind
  rintro _ _ ⟨rfl, rfl⟩
  apply ensures_get_bind
  apply (aimAll_ensures breaks hextends hcapacity).bind
  rintro _ _ ⟨haimed, instructions, rfl⟩
  exact ensures_pure ⟨haimed.of_head, instructions, rfl⟩

theorem keepBelow_withBreaks {start : Nat} {breaks : List Nat} {loops : Loops}
    (hparked : ∀ p ∈ loops.parked, p < start) (hbreaks : ∀ p ∈ breaks, start ≤ p) :
    (loops.withBreaks breaks).keepBelow start = loops := by
  have hkept : ∀ {list : List Nat}, (∀ p ∈ list, p < start) → list.filter (· < start) = list := by
    intro list hlist
    rw [List.filter_eq_self]
    simpa using hlist
  have hdropped : breaks.filter (· < start) = [] := by
    rw [List.filter_eq_nil_iff]
    simpa using hbreaks
  have hloop : ∀ loop ∈ loops.stack, loop.keepBelow start = loop := by
    intro loop hmem
    have hall : ∀ p ∈ loop.parked, p < start := fun p hp =>
      hparked p (List.mem_flatMap.mpr ⟨loop, List.mem_reverse.mpr hmem, hp⟩)
    unfold Loop.keepBelow
    rw [hkept fun p hp => hall p (List.mem_append_left _ hp),
      hkept fun p hp => hall p (List.mem_append_right _ hp)]
  cases loops with
  | mk stack =>
    cases stack with
    | nil => rfl
    | cons loop outer =>
      have hhead : loop.breaks.filter (· < start) = loop.breaks :=
        congrArg Loop.breaks (hloop loop (by simp))
      have hcontinues : loop.continues.filter (· < start) = loop.continues :=
        congrArg Loop.continues (hloop loop (by simp))
      have hrest : outer.map (Loop.keepBelow start) = outer :=
        (List.map_congr_left fun other hother => hloop other (by simp [hother])).trans
          (List.map_id outer)
      simp [Loops.withBreaks, Loops.keepBelow, Loop.keepBelow, List.filter_append, hhead,
        hcontinues, hdropped, hrest]

theorem clamp_stack {limit : UInt32} {scopes : Scopes}
    (h : ∀ l ∈ scopes.locals, l.startPc.toNat ≤ limit.toNat ∧ l.endPc = none) :
    (scopes.clamp limit).stack = scopes.stack := by
  have hlocal : ∀ l ∈ scopes.locals, l.clamp limit = l := by
    intro l hl
    obtain ⟨hstart, hend⟩ := h l hl
    have hmin : min l.startPc limit = l.startPc := by
      apply UInt32.toNat_inj.mp
      rw [UInt32.toNat_min]
      omega
    cases l
    simp_all [Local.clamp]
  have hscope : ∀ scope ∈ scopes.stack,
      { scope with locals := scope.locals.map (Local.clamp limit) } = scope := by
    intro scope hscope
    have hsame : scope.locals.map (Local.clamp limit) = scope.locals :=
      (List.map_congr_left fun l hl =>
        hlocal l (List.mem_flatMap.mpr ⟨scope, hscope, hl⟩)).trans (List.map_id _)
    rw [hsame]
  exact (List.map_congr_left hscope).trans (List.map_id _)

theorem clamp_range {limit : UInt32} {r : LocalRange} (h : r.startPc.toNat ≤ r.endPc.toNat)
    (hend : r.endPc.toNat ≤ limit.toNat) : r.clamp limit = r := by
  have hstart : min r.startPc limit = r.startPc := by
    apply UInt32.toNat_inj.mp
    rw [UInt32.toNat_min]
    omega
  have hend' : min r.endPc limit = r.endPc := by
    apply UInt32.toNat_inj.mp
    rw [UInt32.toNat_min]
    omega
  cases r
  simp_all [LocalRange.clamp]

def cutTo (start : Nat) (sections : List Nat) (f : FunctionBuilder) : FunctionBuilder :=
  { f with
    loops := f.loops.keepBelow start
    code := { f.code with instructions := f.code.instructions.take start, sections }
    scopes := f.scopes.clamp (.ofNat start) }

theorem discardSection_ensures {start : Nat} {outer : List Nat}
    (hsections : f.code.sections = start :: outer) (hle : start ≤ f.pc) :
    discardSection.Ensures f fun _ f' => f' = f.cutTo start outer := by
  have hkept : (f.loops.keepBelow start).parked.find? (start ≤ ·) = none := by
    rw [Loops.parked_keepBelow, List.find?_eq_none]
    intro p hp
    simpa using (List.mem_filter.mp hp).2
  have hsize : (f.code.instructions.take start).size = start := by
    have hle' : start ≤ f.code.instructions.size := hle
    simp [hle']
  have hstart : f.code.sectionStart? = some start := by
    rw [Code.sectionStart?, hsections]
    rfl
  have hcut : (onCode (Code.discardSection (f.loops.keepBelow start).parked)).Ensures
      { f with loops := f.loops.keepBelow start } fun _ g => g = { f with
        loops := f.loops.keepBelow start
        code := { f.code with
          instructions := f.code.instructions.take start, sections := outer } } := by
    rw [ensures_iff, onCode_apply]
    simp only [Code.discardSection, hsections, hkept]
  unfold discardSection
  apply ensures_get_bind
  rw [hstart]
  apply ensures_modify_bind
  apply ensures_get_bind
  apply hcut.bind
  rintro removed _ rfl
  apply ensures_modify_bind
  apply ensures_pure
  simp only [clampRanges, cutTo, pc, Code.size, hsize]

section Cut

variable {code : List Instruction} {breaks : List Nat} {closed : List LocalRange}
  (hsound : f.Sound) (hcapacity : f.pc ≤ capacity) (sections : List Nat)

theorem listing_cutTo (hcode : f'.listing = f.listing ++ code) :
    (f'.cutTo f.pc sections).listing = f.listing := by
  have htake : (f'.cutTo f.pc sections).listing = f'.listing.take f.pc := by
    simp [cutTo, listing]
  rw [htake, hcode]
  exact List.take_left' (length_listing f)

include hsound

theorem loops_cutTo (hloops : f'.loops = f.loops.withBreaks breaks)
    (hbreaks : ∀ p ∈ breaks, f.pc ≤ p) : (f'.cutTo f.pc sections).loops = f.loops := by
  rw [cutTo, hloops]
  exact keepBelow_withBreaks hsound.parked hbreaks

include hcapacity

theorem stack_cutTo (hstack : f'.scopes.stack = f.scopes.stack) :
    (f'.cutTo f.pc sections).scopes.stack = f.scopes.stack := by
  rw [← hstack]
  apply clamp_stack
  rw [Scopes.locals, hstack, toNat_ofNat_of_le hcapacity]
  exact hsound.started

theorem log_cutTo (hlog : f'.scopes.log = closed ++ f.scopes.log) :
    (f'.cutTo f.pc sections).scopes.log =
      closed.map (LocalRange.clamp (.ofNat f.pc)) ++ f.scopes.log := by
  have hsame : f.scopes.log.map (LocalRange.clamp (.ofNat f.pc)) = f.scopes.log := by
    refine (List.map_congr_left fun r hr => ?_).trans (List.map_id _)
    obtain ⟨hle, hend⟩ := hsound.logged r hr
    exact clamp_range hle (by rwa [toNat_ofNat_of_le hcapacity])
  have happend := congrArg (List.map (LocalRange.clamp (.ofNat f.pc))) hlog
  rw [List.map_append] at happend
  exact happend.trans (congrArg _ hsame)

/-- Of what was placed and bound since, a cut leaves only the log of the scopes closed. -/
theorem sound_cutTo (h : f'.Sound) (hcode : f'.listing = f.listing ++ code)
    (hloops : f'.loops = f.loops.withBreaks breaks) (hbreaks : ∀ p ∈ breaks, f.pc ≤ p)
    (hstack : f'.scopes.stack = f.scopes.stack) (hlog : f'.scopes.log = closed ++ f.scopes.log) :
    (f'.cutTo f.pc sections).Sound := by
  have hlisting' := listing_cutTo sections hcode
  have hloops' := loops_cutTo hsound sections hloops hbreaks
  have hstack' := stack_cutTo hsound hcapacity sections hstack
  have hpc' : (f'.cutTo f.pc sections).pc = f.pc := by
    rw [← length_listing, hlisting', length_listing]
  have hlocals' : (f'.cutTo f.pc sections).scopes.locals = f.scopes.locals := by
    rw [Scopes.locals, hstack', Scopes.locals]
  have hregisters' : (f'.cutTo f.pc sections).scopes.registers = f'.scopes.registers := by
    rw [Scopes.registers, hstack', ← hstack, Scopes.registers]
  have hcount' : (f'.cutTo f.pc sections).scopes.count = f'.scopes.count := by
    rw [Scopes.count, hregisters', Scopes.count]
  exact { h with
    inScope := by
      rw [hstack']
      exact hsound.inScope
    own := by
      rw [hlocals']
      exact hsound.own
    registers := by
      rw [hregisters', hcount']
      exact h.registers
    count_le := by
      rw [hcount']
      exact h.count_le
    encodes := by
      rw [hlisting']
      exact hsound.encodes
    parked := by
      rw [hloops', hpc']
      exact hsound.parked
    heads := by
      rw [hloops', hpc']
      exact hsound.heads
    started := by
      rw [hlocals', hpc']
      exact hsound.started
    logged := by
      rw [log_cutTo hsound hcapacity sections hlog, hpc']
      intro r hr
      rcases List.mem_append.mp hr with hr | hr
      · obtain ⟨old, hold, rfl⟩ := List.mem_map.mp hr
        have hrange := h.logged old (by rw [hlog]; exact List.mem_append_left _ hold)
        simp only [LocalRange.clamp, UInt32.toNat_min, toNat_ofNat_of_le hcapacity]
        omega
      · exact hsound.logged r hr }

end Cut

theorem discardSection_advances (hsound : f.Sound) (hcapacity : f.pc ≤ capacity)
    (h : Advances [] weight f.openSection f') (hstack : f'.scopes.stack = f.scopes.stack) :
    discardSection.Ensures f' fun _ f'' => Advances [] weight f f'' ∧ f''.pc = f.pc ∧
      f''.scopes.stack = f.scopes.stack := by
  obtain ⟨closed, hlog, hclosed⟩ := h.logged
  obtain ⟨breaks, hextends, hloops, -⟩ := h.grown
  obtain ⟨code, hcode, hflow⟩ := hextends.code
  have hpc : f.pc ≤ f'.pc := h.pc_ge
  have hsections : f'.code.sections = f.pc :: f.code.sections := hextends.sections
  have hbreaks : ∀ p ∈ breaks, f.pc ≤ p := by
    intro p hp
    obtain ⟨k, -, rfl, -⟩ := hflow.waiting p hp
    exact Nat.le_add_right _ _
  apply (discardSection_ensures hsections hpc).mono
  rintro _ _ rfl
  have hlisting' : (f'.cutTo f.pc f.code.sections).listing = f.listing := listing_cutTo _ hcode
  have hstack' := stack_cutTo hsound hcapacity f.code.sections hstack
  have hpc' : (f'.cutTo f.pc f.code.sections).pc = f.pc := by
    rw [← length_listing, hlisting', length_listing]
  refine ⟨⟨⟨[], ?_, ?_, fun _ => rfl⟩, ⟨[], ?_, by simp⟩,
    ⟨_, log_cutTo hsound hcapacity _ hlog, ?_⟩, ?_⟩, hpc', hstack'⟩
  · exact { hextends with
      sections := rfl
      code := ⟨[], by rw [hlisting', List.append_nil], .nil⟩
      pc_le := by
        rw [hpc']
        omega
      sound := sound_cutTo hsound hcapacity _ hextends.sound hcode hloops hbreaks hstack hlog }
  · rw [Loops.withBreaks_nil]
    exact loops_cutTo hsound _ hloops hbreaks
  · rw [hstack', Scopes.gain_nil]
  · intro r hr
    obtain ⟨old, hold, rfl⟩ := List.mem_map.mp hr
    have hfrom : f.pc ≤ old.startPc.toNat := hclosed old hold
    simp only [LocalRange.clamp, UInt32.toNat_min, toNat_ofNat_of_le hcapacity]
    omega
  · have hcount : (f'.cutTo f.pc f.code.sections).scopes.count = f'.scopes.count := by
      rw [Scopes.count, Scopes.registers, hstack', ← hstack, Scopes.count, Scopes.registers]
    exact h.atRest.trans hcount.symm

end FunctionBuilder

end RegisterCode
