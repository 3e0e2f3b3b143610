import Mathlib.Data.List.Forall2
import RegisterCode.ChunkBuilder
import RegisterCode.Proofs.CodeFlow

/-! What holds of a function while it is built. Locals own the lowest registers in the
order in which they were bound, the code flows, and everything that is recorded
about the code lies inside it. Growing a function keeps all of this. -/
namespace RegisterCode

namespace Prototype

inductive Within : Prototype → Prototype → Prop
  | self (p : Prototype) : Within p p
  | nested {p child parent : Prototype} : child ∈ parent.children → Within p child → Within p parent

/-- Every word stands for an instruction, each has its line, and control stays inside
the code. -/
structure IsWellFormed (p : Prototype) : Prop where
  lines : p.lines.length = p.code.length
  flow : ∃ code, p.code.mapM Instruction.decode = .ok code ∧ ControlFlow code

end Prototype

def LocalRange.Inside (size : Nat) (range : LocalRange) : Prop :=
  range.startPc.toNat ≤ range.endPc.toNat ∧ range.endPc.toNat ≤ size

def Prototype.RangesInside (p : Prototype) : Prop :=
  ∀ range ∈ p.locals, range.Inside p.code.length

theorem Scope.mem_of_find? {scope : Scope} {name : String} {l : Local}
    (h : scope.find? name = some l) : l ∈ scope.locals ∧ l.name = name :=
  ⟨List.mem_reverse.mp (List.mem_of_find?_eq_some h), by simpa using List.find?_some h⟩

theorem Scope.find?_eq_none_iff {scope : Scope} {name : String} :
    scope.find? name = none ↔ ∀ l ∈ scope.locals, l.name ≠ name := by
  simp [find?]

namespace Scopes

def registers (scopes : Scopes) : List Nat :=
  scopes.stack.reverse.flatMap fun scope => scope.locals.map fun l => l.register.toNat

def count (scopes : Scopes) : Nat :=
  scopes.registers.length

theorem count_eq_length (scopes : Scopes) : scopes.count = scopes.locals.length := by
  simp [count, registers, locals, List.length_flatMap, List.map_reverse, List.sum_reverse]

def add (l : Local) (scopes : Scopes) : Scopes :=
  match scopes.stack with
  | [] => scopes
  | scope :: outer =>
    { scopes with stack := { scope with locals := scope.locals ++ [l] } :: outer }

theorem declare_apply (l : Local) (line : UInt32) (scopes : Scopes) :
    declare l line scopes =
      match scopes.checkFresh l.name line with
      | .error error => .error error scopes
      | .ok _ => .ok () (scopes.add l) := by
  obtain ⟨_ | ⟨scope, outer⟩, log⟩ := scopes
  · rfl
  · unfold declare
    cases checkFresh _ l.name line <;> rfl

def gain (bound : List Local) : List Scope → List Scope
  | [] => []
  | scope :: outer => { scope with locals := scope.locals ++ bound } :: outer

theorem mem_registers {scopes : Scopes} {n : Nat} :
    n ∈ scopes.registers ↔ ∃ l ∈ scopes.locals, l.register.toNat = n := by
  simp only [registers, locals, List.mem_flatMap, List.mem_reverse, List.mem_map]
  constructor
  · rintro ⟨scope, hscope, l, hl, rfl⟩
    exact ⟨l, ⟨scope, hscope, hl⟩, rfl⟩
  · rintro ⟨l, ⟨scope, hscope, hl⟩, rfl⟩
    exact ⟨scope, hscope, l, hl, rfl⟩

theorem mem_locals_of_find? {scopes : Scopes} {name : String} {l : Local}
    (hfound : scopes.find? name = some l) : l ∈ scopes.locals ∧ l.name = name := by
  obtain ⟨scope, hscope, hfind⟩ := List.exists_of_findSome?_eq_some hfound
  obtain ⟨hmem, hname⟩ := Scope.mem_of_find? hfind
  exact ⟨List.mem_flatMap.mpr ⟨scope, hscope, hmem⟩, hname⟩

theorem mem_registers_of_register? {scopes : Scopes} {name : String} {target : UInt8}
    (hfound : scopes.register? name = some target) : target.toNat ∈ scopes.registers := by
  obtain ⟨l, hl, rfl⟩ := Option.map_eq_some_iff.mp hfound
  exact mem_registers.mpr ⟨l, (mem_locals_of_find? hl).1, rfl⟩

end Scopes

namespace Loops

def head? (loops : Loops) : Option Nat :=
  loops.stack.head?.bind Loop.continueTarget

def withBreaks (breaks : List Nat) (loops : Loops) : Loops :=
  match loops.stack with
  | [] => loops
  | loop :: outer => ⟨{ loop with breaks := loop.breaks ++ breaks } :: outer⟩

@[simp] theorem withBreaks_nil (loops : Loops) : loops.withBreaks [] = loops := by
  unfold withBreaks
  split
  · rfl
  · next loop outer hstack =>
    cases loops
    simp_all

@[simp] theorem withBreaks_withBreaks (first second : List Nat) (loops : Loops) :
    (loops.withBreaks first).withBreaks second = loops.withBreaks (first ++ second) := by
  obtain ⟨_ | ⟨loop, outer⟩⟩ := loops <;> simp [withBreaks]

@[simp] theorem head?_withBreaks (breaks : List Nat) (loops : Loops) :
    (loops.withBreaks breaks).head? = loops.head? := by
  obtain ⟨_ | ⟨loop, outer⟩⟩ := loops <;> simp [withBreaks, head?]

theorem mem_parked_withBreaks {breaks : List Nat} {loops : Loops} {p : Nat}
    (h : p ∈ (loops.withBreaks breaks).parked) : p ∈ loops.parked ∨ p ∈ breaks := by
  obtain ⟨_ | ⟨loop, outer⟩⟩ := loops
  · exact .inl h
  · simp only [withBreaks, parked, Loop.parked, List.reverse_cons, List.flatMap_append,
      List.flatMap_cons, List.flatMap_nil, List.append_nil, List.mem_append] at h ⊢
    tauto

def breaks (loops : Loops) : List Nat :=
  match loops.stack with
  | [] => []
  | loop :: _ => loop.breaks

theorem breaks_withBreaks {loops : Loops} {more : List Nat}
    (hnone : loops.stack = [] → more = []) :
    (loops.withBreaks more).breaks = loops.breaks ++ more := by
  obtain ⟨_ | ⟨loop, outer⟩⟩ := loops
  · rw [hnone rfl, List.append_nil]
    rfl
  · rfl

theorem parked_of_breaks {loops : Loops} {p : Nat} (h : p ∈ loops.breaks) : p ∈ loops.parked := by
  obtain ⟨_ | ⟨loop, outer⟩⟩ := loops
  · exact absurd h List.not_mem_nil
  · have hp : p ∈ loop.breaks := h
    simp [parked, Loop.parked, hp]

end Loops

namespace FunctionBuilder

def placed (code : List Instruction) (f : FunctionBuilder) : FunctionBuilder :=
  { f with code := { f.code with instructions := f.code.instructions ++ code } }

def listing (f : FunctionBuilder) : List Instruction :=
  f.code.instructions.toList

@[simp] theorem length_listing (f : FunctionBuilder) : f.listing.length = f.pc := by
  simp [listing, pc, Code.size]

@[simp] theorem listing_placed (code : List Instruction) (f : FunctionBuilder) :
    (f.placed code).listing = f.listing ++ code := by
  simp [listing, placed]

@[simp] theorem pc_placed (code : List Instruction) (f : FunctionBuilder) :
    (f.placed code).pc = f.pc + code.length := by
  rw [← length_listing, listing_placed, List.length_append, length_listing]

@[simp] theorem placed_placed (first second : List Instruction) (f : FunctionBuilder) :
    (f.placed first).placed second = f.placed (first ++ second) := by
  have harray :
      f.code.instructions ++ first ++ second = f.code.instructions ++ (first ++ second) := by
    apply Array.toList_inj.mp
    simp
  simp [placed, harray]

/-- The bookkeeping of a function agrees with its registers and its code. -/
structure Sound (f : FunctionBuilder) : Prop where
  inScope : f.scopes.stack ≠ []
  own : ∀ l ∈ f.scopes.locals, l.isAlias = false
  registers : f.scopes.registers = List.range f.scopes.count
  count_le : f.scopes.count ≤ f.nextFree
  nextFree_le : f.nextFree ≤ f.highWater
  highWater_le : f.highWater ≤ maxRegisters
  temporaries : f.temporaries = []
  encodes : ∀ i ∈ f.listing, ∃ word, i.encode = .ok word
  children : ∀ child ∈ f.children.toList, ∀ p : Prototype, p.Within child → p.IsWellFormed
  ranges : ∀ child ∈ f.children.toList, ∀ p : Prototype, p.Within child → p.RangesInside
  parked : ∀ p ∈ f.loops.parked, p < f.pc
  heads : ∀ loop ∈ f.loops.stack, loop.continues = [] ∧
    ∃ head, loop.continueTarget = some head ∧ head ≤ f.pc
  started : ∀ l ∈ f.scopes.locals, l.startPc.toNat ≤ f.pc ∧ l.endPc = none
  logged : ∀ r ∈ f.scopes.log, r.startPc.toNat ≤ r.endPc.toNat ∧ r.endPc.toNat ≤ f.pc

/-- The function grew by code whose `pending` jumps still wait, by at most `weight`
instructions and constants, and kept what it had. -/
structure Extends (head : Option Nat) (pending : List Nat) (weight : Nat)
    (f f' : FunctionBuilder) : Prop where
  name : f'.name = f.name
  outerLevel : f'.outerLevel = f.outerLevel
  firstLine : f'.firstLine = f.firstLine
  paramCount : f'.paramCount = f.paramCount
  isVararg : f'.isVararg = f.isVararg
  sections : f'.code.sections = f.code.sections
  highWater : f.highWater ≤ f'.highWater
  upvalues : f.upvalues <+: f'.upvalues
  constants : f.constants.toList <+: f'.constants.toList
  children : f.children.toList <+: f'.children.toList
  code : ∃ code, f'.listing = f.listing ++ code ∧ Flow head f.pc code pending
  pc_le : f'.pc ≤ f.pc + weight
  constants_le : f'.constants.size ≤ f.constants.size + weight
  sound : f'.Sound

namespace Extends

variable {head : Option Nat} {pending more : List Nat} {weight weight' : Nat}
  {f f' f'' : FunctionBuilder}

theorem trans (h : Extends head pending weight f f') (h' : Extends head more weight' f' f'') :
    Extends head (pending ++ more) (weight + weight') f f'' where
  name := h'.name.trans h.name
  outerLevel := h'.outerLevel.trans h.outerLevel
  firstLine := h'.firstLine.trans h.firstLine
  paramCount := h'.paramCount.trans h.paramCount
  isVararg := h'.isVararg.trans h.isVararg
  sections := h'.sections.trans h.sections
  highWater := Nat.le_trans h.highWater h'.highWater
  upvalues := h.upvalues.trans h'.upvalues
  constants := h.constants.trans h'.constants
  children := h.children.trans h'.children
  code := by
    obtain ⟨code, hcode, hflow⟩ := h.code
    obtain ⟨code', hcode', hflow'⟩ := h'.code
    refine ⟨code ++ code', by rw [hcode', hcode, List.append_assoc], hflow.append ?_⟩
    have hpc : f'.pc = f.pc + code.length := by
      rw [← length_listing, hcode, List.length_append, length_listing]
    rwa [hpc] at hflow'
  pc_le := by
    have := h.pc_le
    have := h'.pc_le
    omega
  constants_le := by
    have := h.constants_le
    have := h'.constants_le
    omega
  sound := h'.sound

theorem weaken (h : Extends head pending weight f f') (hle : weight ≤ weight') :
    Extends head pending weight' f f' :=
  { h with
    pc_le := Nat.le_trans h.pc_le (by omega)
    constants_le := Nat.le_trans h.constants_le (by omega) }

theorem pc_ge (h : Extends head pending weight f f') : f.pc ≤ f'.pc := by
  obtain ⟨code, hcode, -⟩ := h.code
  rw [← length_listing, ← length_listing, hcode, List.length_append]
  omega

theorem congr (h : Extends head pending weight f f') (hsame : ∀ p, p ∈ pending ↔ p ∈ more) :
    Extends head more weight f f' :=
  { h with
    code := by
      obtain ⟨code, hcode, hflow⟩ := h.code
      exact ⟨code, hcode, hflow.congr hsame⟩ }

theorem of_none (h : Extends none pending weight f f') : Extends head pending weight f f' :=
  { h with
    code := by
      obtain ⟨code, hcode, hflow⟩ := h.code
      exact ⟨code, hcode, hflow.of_none⟩ }

theorem of_head (h : Extends (some f.pc) pending weight f f') :
    Extends head pending weight f f' :=
  { h with
    code := by
      obtain ⟨code, hcode, hflow⟩ := h.code
      exact ⟨code, hcode, hflow.of_head⟩ }

end Extends

/-- Far below the width of a word, so that no index of code or constants wraps. -/
def capacity : Nat := 1073741824

theorem toNat_ofNat_of_le {n : Nat} (h : n ≤ capacity) : (UInt32.ofNat n).toNat = n := by
  unfold capacity at h
  rw [UInt32.toNat_ofNat']
  omega

def Room (weight : Nat) (f : FunctionBuilder) : Prop :=
  f.pc + weight ≤ capacity ∧ f.constants.size + weight ≤ capacity

theorem Room.weaken {weight weight' : Nat} {f : FunctionBuilder} (h : f.Room weight)
    (hle : weight' ≤ weight) : f.Room weight' := by
  unfold Room at h ⊢
  omega

theorem Room.after {head : Option Nat} {pending : List Nat} {total weight rest : Nat}
    {f f' : FunctionBuilder} (h : f.Room total) (hstep : Extends head pending weight f f')
    (hle : weight + rest ≤ total) : f'.Room rest := by
  unfold Room at h ⊢
  have := hstep.pc_le
  have := hstep.constants_le
  omega

/-- A function around the current one is only made to capture more. -/
def Captures (f f' : FunctionBuilder) : Prop :=
  ∃ captured, f' = { f with upvalues := f.upvalues ++ captured }

theorem Captures.refl (f : FunctionBuilder) : f.Captures f :=
  ⟨[], by simp⟩

theorem Captures.scopes {f f' : FunctionBuilder} (h : f.Captures f') : f'.scopes = f.scopes := by
  obtain ⟨captured, rfl⟩ := h
  rfl

theorem Captures.trans {f f' f'' : FunctionBuilder} (h : f.Captures f') (h' : f'.Captures f'') :
    f.Captures f'' := by
  obtain ⟨captured, rfl⟩ := h
  obtain ⟨captured', rfl⟩ := h'
  exact ⟨captured ++ captured', by simp⟩

end FunctionBuilder

namespace ChunkBuilder

structure Around (b b' : ChunkBuilder) : Prop where
  options : b'.options = b.options
  enclosing : List.Forall₂ FunctionBuilder.Captures b.enclosing b'.enclosing

theorem Around.of_eq {b b' : ChunkBuilder} (hoptions : b'.options = b.options)
    (henclosing : b'.enclosing = b.enclosing) : Around b b' where
  options := hoptions
  enclosing := by
    rw [henclosing]
    exact List.forall₂_same.mpr fun f _ => .refl f

theorem Around.trans {b b' b'' : ChunkBuilder} (h : Around b b') (h' : Around b' b'') :
    Around b b'' where
  options := h'.options.trans h.options
  enclosing := by
    have hone := h.enclosing
    have htwo := h'.enclosing
    generalize b.enclosing = first at hone
    generalize b'.enclosing = second at hone htwo
    generalize b''.enclosing = third at htwo
    induction hone generalizing third with
    | nil => exact htwo
    | cons hstep _ ih =>
      cases htwo with
      | cons hstep' hrest => exact .cons (hstep.trans hstep') (ih _ hrest)

def KnowsEnvironment : FunctionBuilder → List FunctionBuilder → Prop
  | f, [] => ∃ up ∈ f.upvalues, up.name = FunctionBuilder.environmentName
  | _, outer :: rest => KnowsEnvironment outer rest

theorem KnowsEnvironment.mono {f f' : FunctionBuilder} {enclosing enclosing' : List FunctionBuilder}
    (h : KnowsEnvironment f enclosing) (hcurrent : f.upvalues <+: f'.upvalues)
    (haround : List.Forall₂ FunctionBuilder.Captures enclosing enclosing') :
    KnowsEnvironment f' enclosing' := by
  induction haround generalizing f f' with
  | nil =>
    obtain ⟨up, hup, hname⟩ := h
    exact ⟨up, hcurrent.subset hup, hname⟩
  | cons hstep _ ih =>
    obtain ⟨captured, rfl⟩ := hstep
    exact ih h (List.prefix_append _ _)

/-- The invariant of lowering. -/
structure Ready (b : ChunkBuilder) : Prop where
  sound : b.current.Sound
  environment : KnowsEnvironment b.current b.enclosing

theorem Ready.withCurrent {b : ChunkBuilder} {f : FunctionBuilder} (h : b.Ready) (hsound : f.Sound)
    (hupvalues : b.current.upvalues <+: f.upvalues) : Ready { b with current := f } where
  sound := hsound
  environment := h.environment.mono hupvalues (List.forall₂_same.mpr fun f _ => .refl f)

structure Extends (head : Option Nat) (pending : List Nat) (weight : Nat)
    (b b' : ChunkBuilder) : Prop where
  current : b.current.Extends head pending weight b'.current
  around : Around b b'

theorem Extends.ready {head : Option Nat} {pending : List Nat} {weight : Nat}
    {b b' : ChunkBuilder} (h : Extends head pending weight b b') (hb : b.Ready) : b'.Ready where
  sound := h.current.sound
  environment := hb.environment.mono h.current.upvalues h.around.enclosing

theorem Extends.trans {head : Option Nat} {pending more : List Nat} {weight weight' : Nat}
    {b b' b'' : ChunkBuilder} (h : Extends head pending weight b b')
    (h' : Extends head more weight' b' b'') :
    Extends head (pending ++ more) (weight + weight') b b'' where
  current := h.current.trans h'.current
  around := h.around.trans h'.around

/-- The current function grew by the code of an expression: no jump is left open, and
scopes and loops are as before. -/
structure Grows (weight : Nat) (b b' : ChunkBuilder) : Prop extends
    Extends none [] weight b b' where
  scopes : b'.current.scopes = b.current.scopes
  loops : b'.current.loops = b.current.loops
  line : b'.current.line = b.current.line

theorem Grows.trans {weight weight' : Nat} {b b' b'' : ChunkBuilder} (h : Grows weight b b')
    (h' : Grows weight' b' b'') : Grows (weight + weight') b b'' where
  toExtends := h.toExtends.trans h'.toExtends
  scopes := h'.scopes.trans h.scopes
  loops := h'.loops.trans h.loops
  line := h'.line.trans h.line

theorem Grows.weaken {weight weight' : Nat} {b b' : ChunkBuilder} (h : Grows weight b b')
    (hle : weight ≤ weight') : Grows weight' b b' :=
  { h with current := h.current.weaken hle }

end ChunkBuilder

end RegisterCode
