import Mathlib.Algebra.Group.Nat.Defs
import RegisterCode.Proofs.ClosedFunctions
import RegisterCode.Proofs.LoweredPrograms

/-! The ranges of locals stay inside the code, also where code is cut off again. Positions
are words, so no scope may be closed where the code is too long for one. -/
namespace RegisterCode

open Action

namespace Scopes

theorem mem_locals_add {scopes : Scopes} {l new : Local} (h : l ∈ (scopes.add new).locals) :
    l ∈ scopes.locals ∨ l = new := by
  rw [add_eq_gain] at h
  exact (mem_locals_gain h).imp_right List.mem_singleton.mp

theorem mem_locals_clamp {scopes : Scopes} {limit : UInt32} {l : Local}
    (h : l ∈ (scopes.clamp limit).locals) : ∃ old ∈ scopes.locals, l = old.clamp limit := by
  simp only [clamp, locals, List.mem_flatMap, List.mem_map] at h ⊢
  obtain ⟨_, ⟨scope, hscope, rfl⟩, hl⟩ := h
  obtain ⟨old, hold, rfl⟩ := List.mem_map.mp hl
  exact ⟨old, ⟨scope, hscope, hold⟩, rfl⟩

end Scopes

theorem LocalRange.Inside.clamp {size size' : Nat} {range : LocalRange} {limit : UInt32}
    (h : range.Inside size) (hlimit : limit.toNat ≤ size') : (range.clamp limit).Inside size' := by
  unfold Inside at h ⊢
  simp only [LocalRange.clamp, UInt32.toNat_min]
  omega

namespace FunctionBuilder

variable {usage : Usage} {f f' : FunctionBuilder}

structure Recorded (f : FunctionBuilder) : Prop where
  started : ∀ l ∈ f.scopes.locals, l.startPc.toNat ≤ f.pc ∧ l.endPc = none
  logged : ∀ range ∈ f.scopes.log, range.Inside f.pc

theorem toNat_ofNat_le (n : Nat) : (UInt32.ofNat n).toNat ≤ n := by
  rw [UInt32.toNat_ofNat']
  exact Nat.mod_le _ _

theorem Recorded.of_scopes_eq (h : f.Recorded) (hscopes : f'.scopes = f.scopes)
    (hpc : f.pc ≤ f'.pc) : f'.Recorded where
  started := by
    rw [hscopes]
    intro l hl
    exact ⟨Nat.le_trans (h.started l hl).1 hpc, (h.started l hl).2⟩
  logged := by
    rw [hscopes]
    intro range hrange
    exact ⟨(h.logged range hrange).1, Nat.le_trans (h.logged range hrange).2 hpc⟩

theorem Recorded.add (h : f.Recorded) {l : Local} (hstart : l.startPc.toNat ≤ f.pc)
    (hend : l.endPc = none) (hscopes : f'.scopes = f.scopes.add l) (hpc : f'.pc = f.pc) :
    f'.Recorded where
  started := by
    rw [hscopes, hpc]
    intro other hother
    rcases Scopes.mem_locals_add hother with hold | rfl
    · exact h.started other hold
    · exact ⟨hstart, hend⟩
  logged := by
    rw [hscopes, Scopes.add_eq_gain, hpc]
    exact h.logged

theorem Recorded.closeScope {scope : Scope} {outer : List Scope} (h : f.Recorded)
    (hpc : f.pc < 2 ^ 32) (hstack : f.scopes.stack = scope :: outer) (nextFree : Nat) :
    Recorded { f with
      scopes := ⟨outer, scope.locals.map (Local.range (.ofNat f.pc)) ++ f.scopes.log⟩
      nextFree } := by
  have hlocals : f.scopes.locals = scope.locals ++ outer.flatMap Scope.locals := by
    rw [Scopes.locals, hstack, List.flatMap_cons]
  have hsize : (UInt32.ofNat f.pc).toNat = f.pc := by
    rw [UInt32.toNat_ofNat']
    exact Nat.mod_eq_of_lt hpc
  constructor
  · intro l hl
    exact h.started l (hlocals ▸ List.mem_append_right _ hl)
  · -- The log is what closing the innermost scope alone would leave in the end.
    have hstarted : ∀ l ∈ (⟨[scope], f.scopes.log⟩ : Scopes).locals,
        l.startPc.toNat ≤ f.pc ∧ l.endPc = none := by
      intro l hl
      refine h.started l (hlocals ▸ List.mem_append_left _ ?_)
      simpa [Scopes.locals] using hl
    intro range hrange
    refine Scopes.inside_of_mem_finalLog hsize hstarted h.logged ?_
    simpa [Scopes.finalLog, Scopes.locals] using hrange

theorem Recorded.change (h : f.Recorded) (hclose : usage f .close → f.pc < 2 ^ 32)
    (hchange : Change usage f f') : f'.Recorded := by
  cases hchange with
  | openScope name => exact ⟨h.started, h.logged⟩
  | closeScope hcloses hstack => exact h.closeScope (hclose hcloses) hstack _
  | bind name register startPc hfresh hlt hregister hstart => exact h.add hstart rfl rfl rfl
  | label name register => exact h.add (toNat_ofNat_le f.pc) rfl rfl rfl
  | place i => exact h.of_scopes_eq rfl (by simp)
  | aim jump index target => exact h.of_scopes_eq rfl (by simp)
  | replace index i => exact h.of_scopes_eq rfl (by simp)
  | cut size =>
    have hpc : FunctionBuilder.pc { f with
        code := { f.code with instructions := f.code.instructions.take size }
        scopes := f.scopes.clamp (.ofNat (min size f.pc)) } = min size f.pc := by
      simp [pc, Code.size]
    have hlimit := toNat_ofNat_le (min size f.pc)
    constructor
    · rw [hpc]
      intro l hl
      obtain ⟨old, hold, rfl⟩ := Scopes.mem_locals_clamp hl
      simp only [Local.clamp, UInt32.toNat_min, (h.started old hold).2, Option.map_none, and_true]
      omega
    · rw [hpc]
      intro range hrange
      obtain ⟨old, hold, rfl⟩ := List.mem_map.mp hrange
      exact (h.logged old hold).clamp hlimit
  | _ => exact h.of_scopes_eq rfl (Nat.le_refl _)

theorem IsInitial.recorded (h : f.IsInitial) : f.Recorded := by
  have hnone : f.scopes.locals = [] ∧ f.scopes.log = [] := by
    cases h <;> exact ⟨rfl, rfl⟩
  exact ⟨by simp [hnone.1], by simp [hnone.2]⟩

/-- A scope is closed only where a word can say how long the code is. -/
def Measured (f : FunctionBuilder) : Operation → Prop
  | .closeScope => f.pc < 2 ^ 32
  | _ => True

def measuring : Usage := fun f event =>
  match event with
  | .close => f.pc < 2 ^ 32
  | _ => True

theorem Measured.respects {operation : Operation} (h : f.Measured operation) :
    operation.Respects measuring f := by
  cases operation with
  | closeScope => exact h
  | _ => simp [Operation.Respects, LoadsConstant, Jumps, measuring]

theorem Reachable.recorded (h : f.Reachable Measured) : f.Recorded := by
  obtain ⟨initial, hinitial, hrun⟩ := h
  exact hrun.induction (fun _ _ => Measured.respects)
    (fun _ _ hchange hrecorded => hrecorded.change id hchange) hinitial.recorded

theorem Recorded.finish (h : f.Recorded) (hpc : f.pc < 2 ^ 32) {lastLine : UInt32}
    {p : Prototype} (hfinish : f.finish lastLine = .ok p) : p.RangesInside := by
  obtain ⟨words, hwords, -, rfl⟩ := prototype_of_finish hfinish
  obtain ⟨-, hlength⟩ :=
    Prototype.instructions_of_mapM_encode hwords (p := f.prototype words lastLine) rfl rfl
  intro range hrange
  rw [hlength, length_listing]
  have hsize : (UInt32.ofNat f.pc).toNat = f.pc := by
    rw [UInt32.toNat_ofNat']
    exact Nat.mod_eq_of_lt hpc
  exact Scopes.inside_of_mem_finalLog hsize h.started h.logged hrange

end FunctionBuilder

namespace Program

theorem rangesInside_of_build {program : Program} {options : Options} {map map' : Option SourceMap}
    (hsize : program.nodes < 2 ^ 24) {main : Prototype}
    (hbuild : program.build options map = .ok (main, map')) {p : Prototype}
    (hwithin : p.Within main) : p.RangesInside := by
  rw [build_eq] at hbuild
  split at hbuild
  · simp at hbuild
  · next b hrun =>
    obtain ⟨hready, henclosing, hdone⟩ := (lowering_ensures hsize).of_ok hrun
    obtain ⟨root, hroot, hpair⟩ := except_bind_eq_ok.mp hbuild
    cases hpair
    rw [ChunkBuilder.finish, henclosing] at hroot
    obtain ⟨root, hfinish, hmain⟩ := except_bind_eq_ok.mp hroot
    cases hmain
    -- naming the source of the outermost function changes nothing else
    cases hwithin with
    | self =>
      have hinside : root.RangesInside :=
        FunctionBuilder.finish_rangesInside hdone hready.sound hfinish (.self root)
      exact hinside
    | nested hchild hwithin =>
      exact FunctionBuilder.finish_rangesInside hdone hready.sound hfinish (.nested hchild hwithin)

end Program

namespace FunctionBuilder

/-- Whatever was done to a function, if only no scope was closed in code too long for a word,
its locals start inside the code and the logged ranges lie inside it, and when it is
finished all ranges do. So do those of every function of a lowered program. -/
theorem ranges_inside_code :
    (∀ f : FunctionBuilder, f.Reachable Measured →
      (∀ l ∈ f.scopes.locals, l.startPc.toNat ≤ f.pc) ∧
      (∀ range ∈ f.scopes.log,
        range.startPc.toNat ≤ range.endPc.toNat ∧ range.endPc.toNat ≤ f.pc) ∧
      (f.pc < 2 ^ 32 → ∀ lastLine p, f.finish lastLine = .ok p → ∀ range ∈ p.locals,
        range.startPc.toNat ≤ range.endPc.toNat ∧ range.endPc.toNat ≤ p.code.length)) ∧
    ∀ (program : Program) (options : Options) (map : Option SourceMap), program.nodes < 2 ^ 24 →
      ∀ main map', program.build options map = .ok (main, map') →
        ∀ p : Prototype, p.Within main → ∀ range ∈ p.locals,
          range.startPc.toNat ≤ range.endPc.toNat ∧ range.endPc.toNat ≤ p.code.length := by
  constructor
  · intro f hreachable
    have hrecorded := hreachable.recorded
    exact ⟨fun l hl => (hrecorded.started l hl).1, hrecorded.logged,
      fun hpc _ _ hfinish => hrecorded.finish hpc hfinish⟩
  · intro program options map hsize main map' hbuild p hwithin
    exact Program.rangesInside_of_build hsize hbuild hwithin

/-- A local in a scope in a section, under the name of a local of the function. -/
def shadowed : FunctionBuilder :=
  [Operation.bindLocal "x", .openSection, .emit { op := .move, a := 0 }, .openScope "block",
    .bindLocal "x", .bindLocal "x", .emit { op := .move, a := 1 }].foldl
    (fun f operation => operation.after f) (start "f" none 1)

def retracted : FunctionBuilder :=
  [Operation.discardSection, .emit { op := .move, a := 0 }].foldl
    (fun f operation => operation.after f) (Operation.closeScope.after shadowed)

theorem ranges_inside_code_retracted :
    retracted.Reachable Measured ∧ retracted.scopes.log = [⟨"x", 0, 0⟩] ∧
      (∃ p, retracted.finish 3 = .ok p ∧ p.locals = [⟨"x", 0, 1⟩, ⟨"x", 0, 0⟩] ∧
        ∀ range ∈ p.locals,
          range.startPc.toNat ≤ range.endPc.toNat ∧ range.endPc.toNat ≤ p.code.length) ∧
      ∃ main map, Program.loopInFunction.build {} none = .ok (main, map) ∧
        ∀ p : Prototype, p.Within main → ∀ range ∈ p.locals,
          range.startPc.toNat ≤ range.endPc.toNat ∧ range.endPc.toNat ≤ p.code.length := by
  have hreachable : retracted.Reachable Measured := by
    have hshadowed : Runs Measured (start "f" none 1) shadowed :=
      runs_foldl _ (by simp [Measured]) _
    have hpc : shadowed.pc < 2 ^ 32 := by decide +kernel
    have hclosed := hshadowed.tail ⟨.closeScope, hpc, rfl⟩
    exact ⟨_, .start "f" none 1, hclosed.trans (runs_foldl _ (by simp [Measured]) _)⟩
  have hfinish : (match retracted.finish 3 with
      | .ok p => p.locals == [⟨"x", 0, 1⟩, ⟨"x", 0, 0⟩]
      | .error _ => false) = true := by decide +kernel
  have hbuild : (match Program.loopInFunction.build {} none with
      | .ok _ => true
      | .error _ => false) = true := by decide +kernel
  refine ⟨hreachable, by decide +kernel, ?_, ?_⟩
  · split at hfinish
    · next p hp =>
      exact ⟨p, hp, by simpa using hfinish,
        (ranges_inside_code.1 retracted hreachable).2.2 (by decide +kernel) 3 p hp⟩
    · simp at hfinish
  · split at hbuild
    · next built hbuilt =>
      exact ⟨built.1, built.2, hbuilt,
        ranges_inside_code.2 Program.loopInFunction {} none (by decide) built.1 built.2 hbuilt⟩
    · simp at hbuild

def idle : Instruction := { op := .move }

def filled (count : Nat) (f : FunctionBuilder) : FunctionBuilder :=
  (List.replicate count (Operation.emit idle)).foldl (fun f operation => operation.after f) f

theorem filled_eq (count : Nat) (f : FunctionBuilder) :
    filled count f = { f with
      code := { f.code with
        instructions := f.code.instructions ++
          Array.replicate count { idle with line := f.line } } } := by
  induction count generalizing f with
  | zero => simp [filled]
  | succ count ih =>
    have hone : (Operation.emit idle).after f = { f with
        code := { f.code with
          instructions := f.code.instructions.push { idle with line := f.line } } } := rfl
    have hrest := ih ((Operation.emit idle).after f)
    rw [hone] at hrest
    rw [filled, List.replicate_succ, List.foldl_cons, hone, ← filled, hrest]
    simp [FunctionBuilder.line, Array.replicate_succ']

def scopedLocal : FunctionBuilder :=
  [Operation.openScope "s", .emit idle, .bindLocal "x", .openSection].foldl
    (fun f operation => operation.after f) (start "f" (some 0) 1)

/-- The section is filled, the scope is closed in it, and the section is discarded. -/
def overrun (count : Nat) : FunctionBuilder :=
  [Operation.closeScope, .discardSection].foldl (fun f operation => operation.after f)
    (filled count scopedLocal)

theorem overrun_eq (count : Nat) :
    overrun count = { start "f" (some 0) 1 with
      highWater := 1
      scopes := ⟨[⟨"f", []⟩], [LocalRange.clamp 1 ⟨"x", 1, .ofNat (1 + count)⟩]⟩
      code := { instructions := #[idle] } } := by
  have hsize : (#[idle] ++ Array.replicate count idle).size = 1 + count := by simp
  have htake : (#[idle] ++ Array.replicate count idle).take 1 = #[idle] := by simp
  have hcut : overrun count = clampRanges { start "f" (some 0) 1 with
      highWater := 1
      scopes := ⟨[⟨"f", []⟩],
        [⟨"x", 1, .ofNat (#[idle] ++ Array.replicate count idle).size⟩]⟩
      code := { instructions := (#[idle] ++ Array.replicate count idle).take 1 } } := by
    rw [overrun, filled_eq]
    rfl
  rw [hcut, hsize, htake]
  rfl

/-- A scope that is closed where the length of the code is no word gets a range that ends
before it starts. Discarding the section leaves no other trace of that length. -/
theorem not_inside_overrun :
    (overrun (2 ^ 32 - 1)).Reachable (fun _ _ => True) ∧ (overrun (2 ^ 32 - 1)).pc = 1 ∧
      (overrun (2 ^ 32 - 1)).scopes.log = [⟨"x", 1, 0⟩] ∧
      ∃ p, (overrun (2 ^ 32 - 1)).finish 1 = .ok p ∧ p.code.length = 1 ∧
        ¬ ∀ range ∈ p.locals, range.startPc.toNat ≤ range.endPc.toNat := by
  have hwrapped : LocalRange.clamp 1 ⟨"x", 1, .ofNat (1 + (2 ^ 32 - 1))⟩ = ⟨"x", 1, 0⟩ := by
    decide
  have hreachable : (overrun (2 ^ 32 - 1)).Reachable (fun _ _ => True) := by
    have hscoped : Runs (fun _ _ => True) (start "f" (some 0) 1) scopedLocal :=
      runs_foldl _ (fun _ _ _ => trivial) _
    have hfilled := hscoped.trans (runs_foldl (List.replicate (2 ^ 32 - 1) (.emit idle))
      (fun _ _ _ => trivial) _)
    exact ⟨_, .start "f" (some 0) 1, hfilled.trans (runs_foldl _ (fun _ _ _ => trivial) _)⟩
  have hstate := overrun_eq (2 ^ 32 - 1)
  rw [hwrapped] at hstate
  refine ⟨hreachable, by rw [hstate]; rfl, by rw [hstate], ?_⟩
  rw [hstate]
  refine ⟨_, rfl, rfl, ?_⟩
  intro hinside
  exact absurd (hinside ⟨"x", 1, 0⟩ (by decide)) (by decide)

end FunctionBuilder

end RegisterCode
