import RegisterCode.Proofs.LoweredConstructs

/-! Operands of finished programs. Every register is inside the frame of its function,
every table entry and every captured variable is where the operand says. -/
namespace RegisterCode

open Action

/-- All that the code of a function and the captures of its children name is there. -/
structure Prototype.OperandsExist (nested : Bool) (p : Prototype) : Prop where
  code : ∃ code, p.code.mapM Instruction.decode = .ok code ∧ ∀ i ∈ code,
    (∀ r, i.Reads r ∨ i.Writes r → r < p.stackSize.toNat) ∧
      ∀ entry ∈ i.entries, (p.tables nested).Has entry
  children : ∀ child ∈ p.children, child.CapturesWithin p.stackSize.toNat p.upvalues.length

theorem Prototype.Lowered.operandsExist {p : Prototype} (h : p.Lowered) : p.OperandsExist true := by
  obtain ⟨⟨code, hcode, hall⟩, hchildren⟩ := h
  refine ⟨⟨code, hcode, ?_⟩, hchildren⟩
  intro i hi
  obtain ⟨hfits, hentries⟩ := hall i hi
  refine ⟨?_, hentries⟩
  rintro r (hread | hwritten)
  · exact (hfits r).1 hread
  · exact (hfits r).2.1 hwritten

theorem Prototype.OperandsExist.outermost {p : Prototype} (h : p.OperandsExist true)
    (hupvalues : p.upvalues.length = 1) : p.OperandsExist false := by
  obtain ⟨⟨code, hcode, hall⟩, hchildren⟩ := h
  refine ⟨⟨code, hcode, ?_⟩, hchildren⟩
  intro i hi
  refine ⟨(hall i hi).1, ?_⟩
  intro entry hentry
  have hhas := (hall i hi).2 entry hentry
  cases entry with
  | upvalue slot =>
    obtain ⟨hnonneg, hlt, -⟩ := hhas
    have hcount : (p.tables true).upvalues = 1 := hupvalues
    exact ⟨hnonneg, hlt, fun _ => by omega⟩
  | constant slot => exact hhas
  | child index => exact hhas

namespace Program
open ChunkBuilder FunctionBuilder

variable {program : Program} {options : Options} {map map' : Option SourceMap} {main : Prototype}

theorem orderly_start (hsize : program.nodes < 2 ^ 24) :
    (ChunkBuilder.start options map).Orderly (Stmt.listConstants program.body) where
  sized := (IsInitial.root options.chunkName).sized
  linked := (Reachable.start options map).linked
  small := Nat.lt_of_le_of_lt (Stmt.length_listConstants program.body) hsize

theorem lowering_continuing :
    Lower.Continuing (Stmt.listConstants program.body) program.lowering :=
  (Lower.continuing_statements program.body (List.Subset.refl _)).bind fun _ =>
    Lower.returnNothing_continuing

theorem lowered_of_build (hsize : program.nodes < 2 ^ 24)
    (hbuild : program.build options map = .ok (main, map')) :
    main.upvalues = [⟨environmentName, true, 0⟩] ∧
      ∀ p : Prototype, p.Within main → p.Lowered := by
  rw [build_eq] at hbuild
  split at hbuild
  · simp at hbuild
  · next b hrun =>
    have hb := (lowering_continuing _ (orderly_start hsize)).of_ok hrun
    have henclosing : b.enclosing = [] := List.forall₂_nil_left_iff.mp hb.around.enclosing
    obtain ⟨finished, hfinish, hpair⟩ := except_bind_eq_ok.mp hbuild
    injection hpair with hpair
    injection hpair with hmain
    rw [ChunkBuilder.finish, henclosing] at hfinish
    obtain ⟨inner, hinner, hsource⟩ := except_bind_eq_ok.mp hfinish
    injection hsource with hsource
    have hlinked := hb.linked
    rw [henclosing] at hlinked
    rw [← hmain, ← hsource]
    constructor
    · obtain ⟨words, -, -, rfl⟩ := prototype_of_finish hinner
      exact hlinked.2
    · intro p hwithin
      cases hwithin with
      | self => exact { hb.sized.lowered hinner (.self inner) with }
      | nested hchild hwithin => exact hb.sized.lowered hinner (.nested hchild hwithin)

/-- Every operand of a program that is accepted names something that exists: registers
inside the frame, constants, upvalues and functions of the tables, and captured variables
of the function around. -/
theorem operands_exist (program : Program) (options : Options) (map : Option SourceMap)
    (hsize : program.nodes < 2 ^ 24) {main : Prototype} {map' : Option SourceMap}
    (hbuild : program.build options map = .ok (main, map')) :
    main.upvalues = [⟨environmentName, true, 0⟩] ∧ main.OperandsExist false ∧
      ∀ p : Prototype, p.Within main → p.OperandsExist true := by
  obtain ⟨hupvalues, hlowered⟩ := lowered_of_build hsize hbuild
  refine ⟨hupvalues, ?_, fun p hwithin => (hlowered p hwithin).operandsExist⟩
  exact (hlowered main (.self main)).operandsExist.outermost (by rw [hupvalues]; rfl)

/-- A local that is called with two arguments two functions further in, where it is reached
through the upvalue of the function between. -/
def distantCall : Program :=
  .of [.of (.declare "x" none), .of (.function "f" ⟨["y"], [.of (.function "g" ⟨["z"],
    [.of (.ret (some (.of (.call (.of (.name "x")) [.of (.binary .concat (.of (.name "y"))
      (.of (.name "z"))), .of .nil]))))], 0⟩)], 0⟩)]

theorem operands_exist_distantCall :
    distantCall.nodes < 2 ^ 24 ∧ ∃ main map, distantCall.build {} none = .ok (main, map) ∧
      main.children.flatMap (fun f => f.children.map Prototype.upvalues) =
        [[⟨"x", false, 0⟩, ⟨"y", true, 0⟩]] ∧
      main.OperandsExist false ∧ ∀ p : Prototype, p.Within main → p.OperandsExist true := by
  have hok : (match distantCall.build {} none with
      | .ok (main, _) => main.children.flatMap (fun f => f.children.map Prototype.upvalues) ==
        [[⟨"x", false, 0⟩, ⟨"y", true, 0⟩]]
      | .error _ => false) = true := by decide +kernel
  refine ⟨by decide, ?_⟩
  split at hok
  · next main map hbuild =>
    exact ⟨main, map, hbuild, by simpa using hok,
      (operands_exist distantCall {} none (by decide) hbuild).2⟩
  · simp at hok

end Program

end RegisterCode
