import Mathlib.Data.List.Nodup
import RegisterCode.Proofs.ExpressionMeaning

/-! The code of statements does to the registers of the locals what the statements do to
the variables, and it leaves them where the statements do: behind, out of the innermost
loop, at its head, or at the end of the run. -/
namespace RegisterCode

open Action

namespace Scopes

variable {Value : Type} {values values' : Nat → Value} {name : String}

theorem view_openScope (values : Nat → Value) (scopes : Scopes) (name : String) :
    (scopes.openScope name).view values = (scopes.view values).enter :=
  rfl

theorem view_of_stack {scopes scopes' : Scopes} (h : scopes'.stack = scopes.stack) :
    scopes'.view values = scopes.view values := by
  rw [view, h, view]

theorem view_add (scopes : Scopes) (l : Local) :
    (scopes.add l).view values = (scopes.view values).declare l.name (values l.register.toNat) := by
  obtain ⟨_ | ⟨scope, outer⟩, log⟩ := scopes
  · rfl
  · simp only [add, view, List.map_cons, Environment.declare, List.cons.injEq, and_true]
    funext other
    by_cases hother : other = l.name
    · simp [blockOf, Scope.find?, hother]
    · have hlast : (l.name == other) = false := by simpa using fun h => hother h.symm
      simp [blockOf, Scope.find?, Function.update_of_ne hother, hlast]

theorem blockOf_assign {scope : Scope} {l : Local}
    (hdistinct : (scope.locals.map fun l => l.register.toNat).Nodup)
    (hfind : scope.find? name = some l)
    (hsame : ∀ l' ∈ scope.locals, l'.register.toNat ≠ l.register.toNat →
      values' l'.register.toNat = values l'.register.toNat) :
    blockOf values' scope =
      Function.update (blockOf values scope) name (some (values' l.register.toNat)) := by
  funext other
  by_cases hother : other = name
  · simp [blockOf, hother, hfind]
  · rw [Function.update_of_ne hother]
    unfold blockOf
    cases hfind' : scope.find? other with
    | none => rfl
    | some l' =>
      obtain ⟨hl, hname⟩ := Scope.mem_of_find? hfind
      obtain ⟨hl', hname'⟩ := Scope.mem_of_find? hfind'
      have hne : l'.register.toNat ≠ l.register.toNat := by
        intro hregister
        have hlocal : l' = l := List.inj_on_of_nodup_map hdistinct hl' hl hregister
        exact hother (by rw [← hname, ← hname', hlocal])
      rw [Option.map_some, Option.map_some, hsame l' hl' hne]

theorem view_assign {stack : List Scope} {log : List LocalRange} {target : UInt8}
    (hdistinct : (registers ⟨stack, log⟩).Nodup)
    (hfound : register? ⟨stack, log⟩ name = some target)
    (hsame : ∀ r ∈ registers ⟨stack, log⟩, r ≠ target.toNat → values' r = values r) :
    view values' ⟨stack, log⟩ = (view values ⟨stack, log⟩).assign name (values' target.toNat) := by
  induction stack with
  | nil => simp [register?, find?] at hfound
  | cons scope outer ih =>
    rw [registers_cons scope outer log log] at hdistinct hsame
    obtain ⟨houter, hscope, hapart⟩ := List.nodup_append.mp hdistinct
    have hlocal : ∀ l ∈ scope.locals, l.register.toNat ∈ scope.locals.map (·.register.toNat) :=
      fun l hl => List.mem_map_of_mem hl
    change blockOf values' scope :: view values' ⟨outer, log⟩ =
      Environment.assign name _ (blockOf values scope :: view values ⟨outer, log⟩)
    cases hfind : scope.find? name with
    | some l =>
      have htarget : l.register = target := by
        simpa [register?, find?, hfind] using hfound
      subst htarget
      have hl := (Scope.mem_of_find? hfind).1
      have hblock := blockOf_assign hscope hfind fun l' hl' =>
        hsame _ (List.mem_append_right _ (hlocal l' hl'))
      have hrest : view values' ⟨outer, log⟩ = view values ⟨outer, log⟩ := by
        apply view_congr
        intro l' hl'
        have hmem := mem_registers.mpr ⟨l', hl', rfl⟩
        exact hsame _ (List.mem_append_left _ hmem) (hapart _ hmem _ (hlocal l hl))
      have hsome : (blockOf values scope name).isSome = true := by simp [blockOf, hfind]
      rw [Environment.assign, if_pos hsome, hblock, hrest]
    | none =>
      have hfound' : register? ⟨outer, log⟩ name = some target := by
        simpa [register?, find?, hfind] using hfound
      have hmem := mem_registers_of_register? hfound'
      have hblock : blockOf values' scope = blockOf values scope := by
        apply blockOf_congr
        intro l hl
        exact hsame _ (List.mem_append_right _ (hlocal l hl)) (hapart _ hmem _ (hlocal l hl)).symm
      have hnone : ¬ (blockOf values scope name).isSome = true := by simp [blockOf, hfind]
      rw [Environment.assign, if_neg hnone, hblock,
        ih houter hfound' fun r hr => hsame r (List.mem_append_left _ hr)]

end Scopes

theorem FunctionBuilder.Sound.view_assign {Value : Type} {values values' : Nat → Value}
    {f : FunctionBuilder} {name : String} {target : UInt8} (h : f.Sound)
    (hfound : f.scopes.register? name = some target)
    (hsame : ∀ r < f.scopes.count, r ≠ target.toNat → values' r = values r) :
    f.scopes.view values' = (f.scopes.view values).assign name (values' target.toNat) := by
  apply Scopes.view_assign _ hfound
  · intro r hr
    apply hsame
    rwa [← List.mem_range, ← h.registers]
  · have hregisters := h.registers
    rw [hregisters]
    exact List.nodup_range

namespace FunctionBuilder

variable {f f' : FunctionBuilder} {pending : List Nat} {weight : Nat}

theorem Advances.appends (h : f.Advances pending weight f') : f.Appends f' := by
  obtain ⟨_, hextends, -⟩ := h.grown
  obtain ⟨code, hcode, -⟩ := hextends.code
  exact ⟨⟨code, hcode.symm⟩, hextends.constants⟩

theorem Advances.breaks (h : f.Advances pending weight f') :
    ∃ more, f'.loops.breaks = f.loops.breaks ++ more ∧ ∀ p ∈ more, f.pc ≤ p := by
  obtain ⟨more, hextends, hloops, hnone⟩ := h.grown
  obtain ⟨code, -, hflow⟩ := hextends.code
  refine ⟨more, by rw [hloops, Loops.breaks_withBreaks hnone], ?_⟩
  intro p hp
  obtain ⟨k, _, rfl, -⟩ := hflow.waiting p (List.mem_append_right _ hp)
  exact Nat.le_add_right _ _

theorem Advances.view_tail {Value : Type} (h : f.Advances pending weight f')
    (registers : Nat → Value) :
    (f'.scopes.view registers).tail = (f.scopes.view registers).tail := by
  obtain ⟨bound, hstack, -⟩ := h.bound
  rw [Scopes.view, hstack, Scopes.view]
  cases f.scopes.stack <;> rfl

end FunctionBuilder

namespace Machine

variable {Value Fault : Type} {M : Machine Value Fault} {exit lo lo' weight : Nat}
  {pending pending' more : List Nat} {f f' g : FunctionBuilder} {s s' : State Value}
  {outcome : Outcome Value Fault}

/-- From index `lo` on, the code of a function is the machine's, but for `pending` jumps and
those that leave the innermost loop, which go to `exit` in the end. -/
structure Settled (M : Machine Value Fault) (exit lo : Nat) (pending : List Nat)
    (f : FunctionBuilder) : Prop where
  covers : M.Covers lo (pending ++ f.loops.breaks) f
  exits : ∀ p ∈ f.loops.breaks, M.JumpsTo p exit

theorem Settled.before (h : M.Settled exit lo pending f') (hadvances : f.Advances more weight f') :
    M.Settled exit lo pending f := by
  obtain ⟨added, hbreaks, hadded⟩ := hadvances.breaks
  constructor
  · apply h.covers.before (Nat.le_refl _) hadvances.appends.listing hadvances.appends.constants
    intro p hp _ hlt
    rw [hbreaks, List.mem_append, List.mem_append] at hp
    rw [List.mem_append]
    rcases hp with hp | hp | hp
    · exact .inl hp
    · exact .inr hp
    · have := hadded p hp
      omega
  · intro p hp
    exact h.exits p (by rw [hbreaks]; exact List.mem_append_left _ hp)

theorem Settled.later (h : M.Settled exit lo pending f) (hlo : lo ≤ lo')
    (hpending : ∀ p ∈ pending, lo' ≤ p → p < f.pc → p ∈ pending') :
    M.Settled exit lo' pending' f := by
  refine ⟨?_, h.exits⟩
  apply h.covers.before hlo List.prefix_rfl List.prefix_rfl
  intro p hp hle hlt
  rcases List.mem_append.mp hp with hp | hp
  · exact List.mem_append_left _ (hpending p hp hle hlt)
  · exact List.mem_append_right _ hp

theorem Settled.of_replaced {p : Nat} {i : Instruction}
    (h : M.Settled exit lo pending (f.replaced p i)) : M.Settled exit lo (p :: pending) f :=
  ⟨h.covers.of_replaced, h.exits⟩

theorem Settled.inside (h : M.Settled exit lo pending f') (hsound : f.Sound)
    (hloops : f'.loops = f.loops) (hlo : lo ≤ f.pc) : M.Covers f.pc pending f' := by
  apply h.covers.before hlo List.prefix_rfl List.prefix_rfl
  intro p hp hle _
  rcases List.mem_append.mp hp with hp | hp
  · exact hp
  · rw [hloops] at hp
    have := hsound.parked p (Loops.parked_of_breaks hp)
    omega

/-- Where the machine gets from the code of statements, from `f` to `f'`, and what the
registers hold there. What was declared on the way is out of sight at the ends of a loop. -/
def Follows (M : Machine Value Fault) (exit : Nat) (f f' : FunctionBuilder) (s : State Value) :
    Outcome Value Fault → Prop
  | .next env => ∃ registers, M.Reaches s ⟨f'.pc, registers⟩ ∧ f'.scopes.view registers = env
  | .broke env => ∃ registers, M.Reaches s ⟨exit, registers⟩ ∧
      (f.scopes.view registers).tail = env.tail
  | .continued env => ∃ head registers, f.loops.head? = some head ∧
      M.Reaches s ⟨head, registers⟩ ∧ (f.scopes.view registers).tail = env.tail
  | .ended ending => M.Ends s ending

theorem Reaches.follows (h : M.Reaches s s') (hfollows : M.Follows exit f f' s' outcome) :
    M.Follows exit f f' s outcome := by
  cases outcome with
  | next env =>
    obtain ⟨registers, hreaches, hview⟩ := hfollows
    exact ⟨registers, h.trans hreaches, hview⟩
  | broke env =>
    obtain ⟨registers, hreaches, hview⟩ := hfollows
    exact ⟨registers, h.trans hreaches, hview⟩
  | continued env =>
    obtain ⟨head, registers, hhead, hreaches, hview⟩ := hfollows
    exact ⟨head, registers, hhead, h.trans hreaches, hview⟩
  | ended ending => exact h.ends hfollows

theorem Gives.follows {result : Except Fault Value} {post : Value → State Value → Prop}
    {next : Value → Outcome Value Fault} (h : M.Gives s result post)
    (hnext : ∀ v s', post v s' → M.Follows exit f f' s' (next v)) :
    M.Follows exit f f' s (.after result next) := by
  cases result with
  | ok v =>
    obtain ⟨s', hreaches, hpost⟩ := h
    exact hreaches.follows (hnext v s' hpost)
  | error fault => exact h

theorem Follows.of_advances (h : M.Follows exit g f' s outcome)
    (hadvances : f.Advances pending weight g) : M.Follows exit f f' s outcome := by
  cases outcome with
  | next env => exact h
  | broke env =>
    obtain ⟨registers, hreaches, hview⟩ := h
    exact ⟨registers, hreaches, by rw [← hadvances.view_tail, hview]⟩
  | continued env =>
    obtain ⟨head, registers, hhead, hreaches, hview⟩ := h
    exact ⟨head, registers, by rw [← hadvances.head?, hhead], hreaches,
      by rw [← hadvances.view_tail, hview]⟩
  | ended ending => exact h

theorem Follows.onward (h : M.Follows exit f g s outcome)
    (hnext : outcome.isNext = true → (∀ registers, M.Reaches ⟨g.pc, registers⟩ ⟨f'.pc, registers⟩) ∧
      f'.scopes.stack = g.scopes.stack) :
    M.Follows exit f f' s outcome := by
  cases outcome with
  | next env =>
    obtain ⟨registers, hreaches, hview⟩ := h
    obtain ⟨honward, hstack⟩ := hnext rfl
    exact ⟨registers, hreaches.trans (honward registers), (Scopes.view_of_stack hstack).trans hview⟩
  | _ => exact h

theorem Follows.leave {name : String} (h : M.Follows exit (f.openScope name) g s outcome)
    (hpc : f'.pc = g.pc) (hstack : f'.scopes.stack = g.scopes.stack.tail) :
    M.Follows exit f f' s outcome.leave := by
  cases outcome with
  | next env =>
    obtain ⟨registers, hreaches, rfl⟩ := h
    refine ⟨registers, by rw [hpc]; exact hreaches, ?_⟩
    rw [Scopes.view, hstack, List.map_tail]
    rfl
  | broke env =>
    obtain ⟨registers, hreaches, hview⟩ := h
    exact ⟨registers, hreaches, congrArg List.tail hview⟩
  | continued env =>
    obtain ⟨head, registers, hhead, hreaches, hview⟩ := h
    exact ⟨head, registers, hhead, hreaches, congrArg List.tail hview⟩
  | ended ending => exact h

end Machine

namespace Lower
open ChunkBuilder

variable {Value Fault : Type} {M : Machine Value Fault} {registers : Nat → Value}
  {env env' : Environment Value} {outcome : Outcome Value Fault} {result : Except Fault Value}
  {b b' : ChunkBuilder} {exit weight weight' : Nat} {action first second body : Lower Unit}
  {name : String} {span : Span}

structure Entered (M : Machine Value Fault) (action : Lower Unit) (weight : Nat)
    (env : Environment Value) (exit : Nat) (b b' : ChunkBuilder) (registers : Nat → Value) :
    Prop where
  ready : b.Ready
  atRest : b.current.AtRest
  room : b.current.Room weight
  run : action b = .ok () b'
  settled : M.Settled exit b.current.pc [] b'.current
  view : b.current.scopes.view registers = env

structure Simulates (M : Machine Value Fault) (action : Lower Unit) (weight : Nat)
    (env : Environment Value) (outcome : Outcome Value Fault) : Prop where
  follows : ∀ {exit : Nat} {b b' : ChunkBuilder} {registers : Nat → Value},
    Entered M action weight env exit b b' registers →
    M.Follows exit b.current b'.current ⟨b.current.pc, registers⟩ outcome

theorem Simulates.weaken (h : Simulates M action weight env outcome) (hle : weight ≤ weight') :
    Simulates M action weight' env outcome :=
  ⟨fun e => h.follows { e with room := e.room.weaken hle }⟩

theorem simulates_done : Simulates M (pure ()) 0 env (.next env) := by
  refine ⟨fun {exit b b' registers} e => ?_⟩
  obtain ⟨-, rfl⟩ := pure_eq_ok.mp e.run
  exact ⟨registers, .refl, e.view⟩

theorem simulates_step (hfirst : Advancing weight first) (hsecond : Advancing weight' second)
    (h : Simulates M first weight env (.next env')) (h' : Simulates M second weight' env' outcome) :
    Simulates M (do first; second) (weight + weight') env outcome := by
  refine ⟨fun {exit b b' registers} e => ?_⟩
  obtain ⟨_, b₁, hone, htwo⟩ := bind_eq_ok.mp e.run
  have hroom : b.current.Room weight := e.room.weaken (by omega)
  have hadvances := (hfirst b e.ready e.atRest hroom).of_ok hone
  have hready₁ := hadvances.ready e.ready
  have hrest₁ := hadvances.current.atRest
  have hroom₁ : b₁.current.Room weight' := hadvances.current.room e.room (Nat.le_refl _)
  have hadvances' := (hsecond b₁ hready₁ hrest₁ hroom₁).of_ok htwo
  obtain ⟨registers₁, hreaches, hview⟩ := h.follows
    ⟨e.ready, e.atRest, hroom, hone, e.settled.before hadvances'.current, e.view⟩
  have hsettled : M.Settled exit b₁.current.pc [] b'.current :=
    e.settled.later hadvances.current.pc_ge (by simp)
  apply hreaches.follows
  exact (h'.follows ⟨hready₁, hrest₁, hroom₁, htwo, hsettled, hview⟩).of_advances hadvances.current

theorem simulates_stop (hfirst : Advancing weight first) (hsecond : Advancing weight' second)
    (h : Simulates M first weight env outcome) (hstop : outcome.isNext = false) :
    Simulates M (do first; second) (weight + weight') env outcome := by
  refine ⟨fun {exit b b' registers} e => ?_⟩
  obtain ⟨_, b₁, hone, htwo⟩ := bind_eq_ok.mp e.run
  have hroom : b.current.Room weight := e.room.weaken (by omega)
  have hadvances := (hfirst b e.ready e.atRest hroom).of_ok hone
  have hroom₁ : b₁.current.Room weight' := hadvances.current.room e.room (Nat.le_refl _)
  have hready₁ := hadvances.ready e.ready
  have hadvances' := (hsecond b₁ hready₁ hadvances.current.atRest hroom₁).of_ok htwo
  apply (h.follows
    ⟨e.ready, e.atRest, hroom, hone, e.settled.before hadvances'.current, e.view⟩).onward
  intro hnext
  simp [hstop] at hnext

theorem simulates_locate (span : Span) : Simulates M (locateKnown span) 0 env (.next env) := by
  refine ⟨fun {exit b b' registers} e => ?_⟩
  have hrun := e.run
  unfold locateKnown at hrun
  split at hrun
  · obtain ⟨line, map, generatedLine, hlocate⟩ := locate_eq span b
    have hstate : EStateM.Result.ok () (locate span b) = .ok () b' := hrun
    injection hstate with _ hstate
    rw [hlocate] at hstate
    subst hstate
    exact ⟨registers, .refl, e.view⟩
  · obtain ⟨-, rfl⟩ := pure_eq_ok.mp hrun
    exact ⟨registers, .refl, e.view⟩

theorem simulates_alone {form : StmtForm}
    (h : Simulates M (statementForm span form) (16 * (form.nodes + 1)) env outcome) :
    Simulates M (statements [⟨form, span⟩]) (16 * Stmt.listNodes [⟨form, span⟩]) env outcome := by
  rw [statements, statements, bind_pure_unit, statement, Stmt.listNodes, Stmt.listNodes, Stmt.nodes]
  have hlocated := simulates_step (locateKnown_advancing span) (advancing_form span form)
    (simulates_locate span) h
  exact hlocated.weaken (by omega)

theorem inScope_entered (hbody : Advancing weight body)
    (e : Entered M (inScope name body) weight env exit b b' registers) :
    ∃ b₁, Entered M body weight env.enter exit { b with current := b.current.openScope name } b₁
        registers ∧
      b'.current.pc = b₁.current.pc ∧
      b'.current.scopes.stack = b₁.current.scopes.stack.tail := by
  obtain ⟨_, b₀, hopen, hrun⟩ := bind_eq_ok.mp e.run
  obtain ⟨_, b₁, hinside, hclose⟩ := bind_eq_ok.mp hrun
  obtain rfl := onCurrent_modify_eq_ok.mp hopen
  have hready : Ready { b with current := b.current.openScope name } :=
    e.ready.withCurrent (FunctionBuilder.sound_openScope e.ready.sound name) List.prefix_rfl
  have hrest := FunctionBuilder.atRest_openScope e.atRest name
  have hadvances := (hbody _ hready hrest e.room).of_ok hinside
  obtain ⟨bound, hbound, -⟩ := hadvances.current.bound
  have hstack : b₁.current.scopes.stack = { name, locals := bound } :: b.current.scopes.stack :=
    hbound
  rw [onCurrent_apply, FunctionBuilder.closeScope_apply hstack] at hclose
  injection hclose with _ hclosed
  subst hclosed
  have hsettled : M.Settled exit b.current.pc [] b₁.current :=
    ⟨⟨e.settled.covers.code, e.settled.covers.constants⟩, e.settled.exits⟩
  have hview : (b.current.openScope name).scopes.view registers = env.enter := by
    rw [FunctionBuilder.openScope, Scopes.view_openScope, e.view]
  exact ⟨b₁, ⟨hready, hrest, e.room, hinside, hsettled, hview⟩, rfl, by rw [hstack]; rfl⟩

theorem simulates_inScope (hbody : Advancing weight body)
    (h : Simulates M body weight env.enter outcome) (name : String) :
    Simulates M (inScope name body) weight env outcome.leave := by
  refine ⟨fun {exit b b' registers} e => ?_⟩
  obtain ⟨b₁, hentered, hpc, hstack⟩ := inScope_entered hbody e
  exact (h.follows hentered).leave hpc hstack

theorem simulates_discard {value : Expr} (h : Computes M value env result) :
    Simulates M (discard (expr value none)) (16 * value.nodes) env
      (.after result fun _ => .next env) := by
  refine ⟨fun {exit b b' registers} e => ?_⟩
  obtain ⟨operand, b₁, hvalue, hfree⟩ := bind_eq_ok.mp e.run
  have hlowered : b.Yields _ operand b₁ := (lowerable value none b e.ready e.room).of_ok hvalue
  obtain ⟨next, rfl⟩ := free_eq hfree
  have hcovers := e.settled.inside e.ready.sound hlowered.loops (Nat.le_refl _)
  have hcovers₁ : M.Covers b.current.pc [] b₁.current := ⟨hcovers.code, hcovers.constants⟩
  apply (h.gives ⟨e.ready, e.room, hvalue, hcovers₁, e.view, nofun⟩).follows
  rintro v ⟨pc, registers₁⟩ ⟨rfl, -, hkept⟩
  have hcount := e.ready.sound.count_le
  refine ⟨registers₁, .refl, ?_⟩
  rw [hlowered.scopes, ← e.view]
  exact e.ready.sound.view_eq fun r hr => hkept r (by omega) nofun

theorem simulates_declareLocal {value : UInt8 → Lower Unit}
    (hvalue : ∀ register, Balancing weight (value register))
    (hgives : ∀ {b b₁ b₂ : ChunkBuilder} {register : UInt8} {registers : Nat → Value},
      b.Ready → b.current.Room weight → allocate b = .ok register b₁ →
      value register b₁ = .ok () b₂ → M.Covers b.current.pc [] b₂.current →
      b.current.scopes.view registers = env →
      M.Gives ⟨b.current.pc, registers⟩ result (Held register b b₂ registers))
    (name : String) :
    Simulates M (declareLocal name value) weight env
      (.after result fun v => .next (env.declare name v)) := by
  refine ⟨fun {exit b b' registers} e => ?_⟩
  obtain ⟨register, b₁, b₂, hallocate, hvalueRun, -, highWater, rfl⟩ := declareLocal_eq_ok e.run
  have htaken := (allocate_yields e.ready).of_ok hallocate
  have hlowered := (hvalue register b₁ (htaken.ready e.ready)
    (e.room.after htaken.current (by omega))).of_ok hvalueRun
  have hheld := htaken.balanced hlowered
  have hcovers := e.settled.inside e.ready.sound hheld.loops (Nat.le_refl _)
  have hcovers₂ : M.Covers b.current.pc [] b₂.current := ⟨hcovers.code, hcovers.constants⟩
  apply (hgives e.ready e.room hallocate hvalueRun hcovers₂ e.view).follows
  rintro v ⟨pc, registers₂⟩ ⟨rfl, hat, hkept⟩
  have hcount := e.ready.sound.count_le
  have hview : b₂.current.scopes.view registers₂ = env := by
    rw [hheld.scopes, ← e.view]
    exact e.ready.sound.view_eq fun r hr => hkept r (by omega)
  refine ⟨registers₂, .refl, ?_⟩
  rw [← hview, ← hat]
  exact Scopes.view_add _ _

theorem simulates_declareNil (name : String) :
    Simulates M (statementForm span (.declare name none)) 1 env
      (.next (env.declare name (M.meaning.literal .nil))) := by
  rw [statementForm]
  have hvalue : ∀ register : UInt8, Balancing 1 (emit .loadNil register.toNat 0 0) :=
    fun _ _ h _ => emit_balanced h (Instruction.isPlain_of_op rfl)
  change Simulates M _ 1 env
    (.after (.ok (M.meaning.literal .nil)) fun v => .next (env.declare name v))
  refine simulates_declareLocal hvalue ?_ name
  intro b b₁ b₂ register registers hready _ hallocate hemit hcovers _
  obtain ⟨htaken, hregister, -⟩ := (allocate_ensures hready).of_ok hallocate
  have hreaches : M.Reaches ⟨b₁.current.pc, registers⟩ ⟨b₂.current.pc,
      Function.update registers register.toNat (M.meaning.literal .nil)⟩ :=
    emit_reaches hemit hcovers (Nat.le_of_eq htaken.pc_eq.symm) rfl
  rw [htaken.pc_eq] at hreaches
  refine ⟨_, hreaches, rfl, Function.update_self .., ?_⟩
  intro r hr
  exact Function.update_of_ne (by omega) ..

theorem store_gives {value : Expr} {target : UInt8} {operand : Operand}
    (h : Computes M value env result) (hready : b.Ready)
    (hroom : b.current.Room (16 * (value.nodes + 1)))
    (hfound : b.current.scopes.register? name = some target)
    (hrun : store name value.form.isLogical (expr value) b = .ok operand b')
    (hcovers : M.Covers b.current.pc [] b'.current)
    (hview : b.current.scopes.view registers = env) :
    M.Gives ⟨b.current.pc, registers⟩ result fun v s => s.pc = b'.current.pc ∧
      s.registers target.toNat = v ∧
      ∀ r < b.current.scopes.count, r ≠ target.toNat → s.registers r = registers r := by
  have hresolve : resolve name b = .ok (.register target) b := by
    simp only [resolve, hfound]
  have hcount := hready.sound.count_le
  rw [store_eq, bind_apply, hresolve] at hrun
  cases hlogical : value.form.isLogical with
  | false =>
    simp only [hlogical, Bool.false_eq_true, ↓reduceIte] at hrun
    obtain ⟨_, b₁, hvalue, hreturn⟩ := bind_eq_ok.mp hrun
    obtain ⟨-, rfl⟩ := pure_eq_ok.mp hreturn
    have hroom₁ : b.current.Room (16 * value.nodes) := hroom.weaken (by omega)
    have hgives := target_gives h hready hroom₁ hvalue hcovers (Nat.le_refl _) hview
      fun hother => by simp [hlogical] at hother
    apply hgives.mono
    rintro v s ⟨hs, hat, hkept⟩
    exact ⟨hs, hat, fun r hr => hkept r (by omega)⟩
  | true =>
    simp only [hlogical, ↓reduceIte] at hrun
    obtain ⟨value', b₁, hvalue, hrun⟩ := bind_eq_ok.mp hrun
    obtain ⟨stored, b₂, hstored, hrun⟩ := bind_eq_ok.mp hrun
    obtain ⟨_, b₃, hload, hrun⟩ := bind_eq_ok.mp hrun
    obtain ⟨_, b₄, hfree, hreturn⟩ := bind_eq_ok.mp hrun
    obtain ⟨-, rfl⟩ := pure_eq_ok.mp hreturn
    have hroom₁ : b.current.Room (16 * value.nodes) := hroom.weaken (by omega)
    have hheld := toRegister_held hready hroom₁ hvalue hstored
    have hloaded := (load_balanced (hheld.ready hready) (.register stored) target).of_ok hload
    have hcovers₃ := hcovers.of_appends (free_appends hfree) (Nat.le_refl _)
    have hcovers₂ := hcovers₃.of_appends hloaded.appends (Nat.le_refl _)
    have hpc₂ := hheld.current.pc_ge
    obtain ⟨next, rfl⟩ := free_eq hfree
    apply (toRegister_gives hready hroom₁ hvalue hstored h hcovers₂ (Nat.le_refl _) hview).onward
    rintro v ⟨pc, registers₂⟩ ⟨rfl, hat, hkept⟩
    have hreaches := load_reaches hload hcovers₃ hpc₂
      (show M.Denotes registers₂ v (.register stored) from hat)
    refine ⟨_, hreaches, rfl, Function.update_self .., ?_⟩
    intro r hr hother
    exact (Function.update_of_ne hother ..).trans (hkept r (by omega))

theorem simulates_assign {value : Expr} (hname : (env.lookup name).isSome = true)
    (h : Computes M value env result) :
    Simulates M (discard (store name value.form.isLogical (expr value)))
      (16 * (value.nodes + 1)) env (.after result fun v => .next (env.assign name v)) := by
  refine ⟨fun {exit b b' registers} e => ?_⟩
  obtain ⟨operand, b₁, hstore, hfree⟩ := bind_eq_ok.mp e.run
  rw [← e.view, Scopes.lookup_view, Option.isSome_map] at hname
  obtain ⟨target, hfound⟩ := Option.isSome_iff_exists.mp hname
  have hroom : b.current.Room (16 * value.nodes + 8) := e.room.weaken (by omega)
  have hstored : b.Yields _ operand b₁ :=
    (store_delivering name value.form.isLogical (lowerable value) b e.ready hroom).of_ok hstore
  obtain ⟨next, rfl⟩ := free_eq hfree
  have hcovers := e.settled.inside e.ready.sound hstored.loops (Nat.le_refl _)
  have hcovers₁ : M.Covers b.current.pc [] b₁.current := ⟨hcovers.code, hcovers.constants⟩
  apply (store_gives h e.ready e.room hfound hstore hcovers₁ e.view).follows
  rintro v ⟨pc, registers₁⟩ ⟨rfl, hat, hkept⟩
  refine ⟨registers₁, .refl, ?_⟩
  rw [hstored.scopes, ← e.view, ← hat]
  exact e.ready.sound.view_assign hfound hkept

theorem simulates_returnNothing :
    Simulates M returnNothing 1 env (.ended (.returned [])) := by
  refine ⟨fun {exit b b' registers} e => ?_⟩
  have hemitted := (emit_balanced e.ready (Instruction.isPlain_of_op rfl)).of_ok e.run
  have hcovers := e.settled.inside e.ready.sound hemitted.loops (Nat.le_refl _)
  have hat := (emit_covered e.run hcovers (Nat.le_refl _) (by simp)).1
  exact Machine.ends_of_perform hat rfl

theorem simulates_returnValue {value : Expr} (h : Computes M value env result) :
    Simulates M (returnValue (expr value none)) (16 * (value.nodes + 1)) env
      (.after result fun v => .ended (.returned [v])) := by
  refine ⟨fun {exit b b' registers} e => ?_⟩
  have hrun := e.run
  rw [returnValue_eq] at hrun
  obtain ⟨operand, b₁, hvalue, hrun⟩ := bind_eq_ok.mp hrun
  obtain ⟨register, b₂, hregister, hrun⟩ := bind_eq_ok.mp hrun
  obtain ⟨_, b₃, hemit, hfree⟩ := bind_eq_ok.mp hrun
  have hroom : b.current.Room (16 * value.nodes) := e.room.weaken (by omega)
  have hheld := toRegister_held e.ready hroom hvalue hregister
  have hemitted :=
    (emit_balanced (hheld.ready e.ready) (Instruction.isPlain_of_op rfl)).of_ok hemit
  obtain ⟨next, rfl⟩ := free_eq hfree
  have hcovers := e.settled.inside e.ready.sound (hemitted.loops.trans hheld.loops) (Nat.le_refl _)
  have hcovers₃ : M.Covers b.current.pc [] b₃.current := ⟨hcovers.code, hcovers.constants⟩
  have hcovers₂ := hcovers₃.of_appends hemitted.appends (Nat.le_refl _)
  have hpc₂ := hheld.current.pc_ge
  apply (toRegister_gives e.ready hroom hvalue hregister h hcovers₂ (Nat.le_refl _) e.view).follows
  rintro v ⟨pc, registers₂⟩ ⟨rfl, hat, -⟩
  have hcode := (emit_covered hemit hcovers₃ hpc₂ (by simp)).1
  rw [← hat]
  exact Machine.ends_of_perform hcode rfl

theorem simulates_breakLoop :
    Simulates M (onCurrent FunctionBuilder.breakLoop) 1 env (.broke env) := by
  refine ⟨fun {exit b b' registers} e => ?_⟩
  obtain ⟨f, ⟨-, hparked⟩, rfl⟩ := (onCurrent_ensures
    (FunctionBuilder.breakLoop_ensures e.ready.sound e.atRest)).of_ok e.run
  have hjumps : M.JumpsTo b.current.pc exit := e.settled.exits _ hparked
  exact ⟨registers, hjumps.reaches, by rw [e.view]⟩

theorem simulates_continueLoop :
    Simulates M (onCurrent FunctionBuilder.continueLoop) 1 env (.continued env) := by
  refine ⟨fun {exit b b' registers} e => ?_⟩
  have hcapacity : b.current.pc < FunctionBuilder.capacity :=
    Nat.lt_of_lt_of_le (Nat.lt_succ_self _) e.room.1
  obtain ⟨f, ⟨-, head, hhead, hle, rfl⟩, rfl⟩ := (onCurrent_ensures
    (FunctionBuilder.continueLoop_ensures e.ready.sound e.atRest hcapacity)).of_ok e.run
  have hcovers := e.settled.inside e.ready.sound rfl (Nat.le_refl _)
  have hjumps := hcovers.jumpsBack (Nat.le_refl _) (by simp) hcapacity hle
  exact ⟨head, registers, hhead, hjumps.reaches, by rw [e.view]⟩

end Lower

end RegisterCode
