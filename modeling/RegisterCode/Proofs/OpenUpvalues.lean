import Mathlib.Data.List.Chain
import RegisterCode.Proofs.OperandBounds

/-! Variables that closures share with the function that made them. Lowering closes no
upvalue before the function returns, so a closure keeps a variable of a block that has
ended only as long as nothing else is put into the register. -/
namespace RegisterCode

def WritesAt (code : List Instruction) (r k : Nat) : Prop :=
  ∃ i, code[k]? = some i ∧ i.Writes r

def ClosesAt (code : List Instruction) (r k : Nat) : Prop :=
  ∃ i, code[k]? = some i ∧ i.Closes r

/-- On the path, the upvalue of the register is closed before the register is written. -/
def ClosedInTime (code : List Instruction) (r : Nat) (path : List Nat) : Prop :=
  ∀ before k after, path = before ++ k :: after → WritesAt code r k →
    ∃ j ∈ before, ClosesAt code r j

namespace Prototype

variable {p : Prototype} {code : List Instruction} {k r : Nat}

/-- The closure that is made at an index shares a register with the function. -/
def SharesAt (p : Prototype) (code : List Instruction) (k r : Nat) : Prop :=
  ∃ i child up, code[k]? = some i ∧ i.op = .closure ∧ p.children[i.b.toNat]? = some child ∧
    up ∈ child.upvalues ∧ up.inStack = true ∧ up.index.toNat = r

theorem Lowered.shares_lt (h : p.Lowered) (hshares : p.SharesAt code k r) :
    r < p.stackSize.toNat := by
  obtain ⟨i, child, up, -, -, hchild, hup, hstack, rfl⟩ := hshares
  have hbound := (h.children child (List.mem_of_getElem? hchild)).bounded up hup
  rwa [if_pos hstack] at hbound

end Prototype

theorem not_closesAt {code : List Instruction} {size r : Nat}
    (hfits : ∀ i ∈ code, i.Fits size) {before : List Nat} {k : Nat} {after : List Nat}
    (hpath : (before ++ k :: after).IsChain (Successor code)) {j : Nat} (hj : j ∈ before) :
    ¬ ClosesAt code r j := by
  rintro ⟨i, hat, hcloses⟩
  obtain ⟨first, rest, rfl⟩ := List.append_of_mem hj
  obtain ⟨next, hnext⟩ : ∃ next, Successor code j next := by
    rw [List.append_assoc, List.cons_append] at hpath
    cases rest with
    | nil => exact ⟨k, (List.isChain_append_cons_cons.mp hpath).2.1⟩
    | cons second rest => exact ⟨second, (List.isChain_append_cons_cons.mp hpath).2.1⟩
  exact hnext.not_closes hat (hfits i (List.mem_of_getElem? hat)) hcloses

theorem closedInTime_iff {code : List Instruction} {size r : Nat}
    (hfits : ∀ i ∈ code, i.Fits size) {path : List Nat} (hpath : path.IsChain (Successor code)) :
    ClosedInTime code r path ↔ ∀ k ∈ path, ¬ WritesAt code r k := by
  constructor
  · intro hclosed k hk hwrites
    obtain ⟨before, after, rfl⟩ := List.append_of_mem hk
    obtain ⟨j, hj, hcloses⟩ := hclosed before k after rfl hwrites
    exact not_closesAt hfits hpath hj hcloses
  · rintro hunwritten before k after rfl hwrites
    exact absurd hwrites (hunwritten k (by simp))

namespace Program
open FunctionBuilder

/-- In a program that is accepted, a register that a closure shares is closed in time on a
path behind the closure if and only if the path never writes the register. -/
theorem shared_closed_iff_unwritten (program : Program) (options : Options)
    (map : Option SourceMap) (hsize : program.nodes < 2 ^ 24) {main : Prototype}
    {map' : Option SourceMap} (hbuild : program.build options map = .ok (main, map'))
    {p : Prototype} (hwithin : p.Within main) :
    ∃ code, p.code.mapM Instruction.decode = .ok code ∧
      ∀ k r, p.SharesAt code k r → r < p.stackSize.toNat ∧
        ∀ path, (k :: path).IsChain (Successor code) →
          (ClosedInTime code r path ↔ ∀ j ∈ path, ¬ WritesAt code r j) := by
  have hlowered := (lowered_of_build hsize hbuild).2 p hwithin
  obtain ⟨code, hcode, hall⟩ := hlowered.code
  refine ⟨code, hcode, ?_⟩
  intro k r hshares
  refine ⟨hlowered.shares_lt hshares, ?_⟩
  intro path hpath
  exact closedInTime_iff (fun i hi => (hall i hi).1) hpath.tail

def compilesTo (program : Program) (code : List Instruction) (captured : List Capture)
    (locals : List LocalRange) : Bool :=
  match program.build {} none with
  | .ok (main, _) => decide ((main.code.mapM Instruction.decode).toOption = some code ∧
    main.children.map Prototype.upvalues = [captured] ∧ main.locals = locals)
  | .error _ => false

theorem exists_of_compilesTo {program : Program} {code : List Instruction}
    {captured : List Capture} {locals : List LocalRange}
    (h : program.compilesTo code captured locals = true) :
    ∃ main map child, program.build {} none = .ok (main, map) ∧
      main.code.mapM Instruction.decode = .ok code ∧ main.children = [child] ∧
      child.upvalues = captured ∧ main.locals = locals := by
  unfold compilesTo at h
  split at h
  · next main map hbuild =>
    obtain ⟨hcode, hcaptured, hlocals⟩ := of_decide_eq_true h
    obtain ⟨child, hchild, hupvalues⟩ := List.map_eq_singleton_iff.mp hcaptured
    refine ⟨main, map, child, hbuild, ?_, hchild, hupvalues, hlocals⟩
    cases hwords : main.code.mapM Instruction.decode with
    | ok code' =>
      rw [hwords] at hcode
      exact congrArg Except.ok (Option.some.inj hcode)
    | error error =>
      rw [hwords] at hcode
      cases hcode
  · simp at h

/-- A loop whose variable is captured anew each time around. -/
def freshEachTime : Program :=
  .of [.of (.declare "f" none), .of (.whileLoop (.of (.boolean true))
    [.of (.declare "x" none), .of (.expr (.of (.assign "f" (.of (.function
      ⟨[], [.of (.ret (some (.of (.name "x"))))], 0⟩)))))])]

def loopCode : List Instruction :=
  [{ op := .loadNil }, { op := .loadBool, a := 1, b := 1 }, { op := .test, a := 1 },
    { op := .jmp, b := 3 }, { op := .loadNil, a := 1 }, { op := .closure },
    { op := .jmp, b := -6 }, { op := .ret, b := 1 }]

/-- The next time around, the loop writes the register that the last closure still shares. -/
theorem shared_closed_iff_unwritten_loop :
    ∃ main map, freshEachTime.build {} none = .ok (main, map) ∧
      main.code.mapM Instruction.decode = .ok loopCode ∧ main.SharesAt loopCode 5 1 ∧
      [5, 6, 1].IsChain (Successor loopCode) ∧ ¬ ClosedInTime loopCode 1 [6, 1] := by
  have hcompiles : freshEachTime.compilesTo loopCode [⟨"x", true, 1⟩]
    [⟨"f", 1, 8⟩, ⟨"x", 5, 6⟩] = true := by decide +kernel
  obtain ⟨main, map, child, hbuild, hcode, hchild, hcaptured, -⟩ := exists_of_compilesTo hcompiles
  have hshares : main.SharesAt loopCode 5 1 :=
    ⟨{ op := .closure }, child, ⟨"x", true, 1⟩, rfl, rfl, by simp [hchild], by simp [hcaptured],
      rfl, rfl⟩
  have hpath : [5, 6, 1].IsChain (Successor loopCode) :=
    .cons_cons ⟨{ op := .closure }, rfl, rfl⟩
      (.cons_cons ⟨{ op := .jmp, b := -6 }, rfl, rfl⟩ (.singleton 1))
  obtain ⟨code, hcode', hall⟩ :=
    shared_closed_iff_unwritten freshEachTime {} none (by decide) hbuild (.self main)
  rw [hcode] at hcode'
  injection hcode' with hsame
  subst hsame
  refine ⟨main, map, hbuild, hcode, hshares, hpath, ?_⟩
  intro hclosed
  have hunwritten := ((hall 5 1 hshares).2 [6, 1] hpath).mp hclosed
  exact hunwritten 1 (by simp) ⟨{ op := .loadBool, a := 1, b := 1 }, rfl, rfl⟩

/-- A variable of a block that a closure captures, and another one that gets its register
when the block has ended. -/
def reusedRegister : Program :=
  .of [.of (.declare "f" none), .of (.block
    [.of (.declare "x" (some (.of (.boolean true)))), .of (.expr (.of (.assign "f" (.of (.function
      ⟨[], [.of (.ret (some (.of (.name "x"))))], 0⟩)))))]),
    .of (.declare "y" (some (.of (.boolean false)))),
    .of (.ret (some (.of (.call (.of (.name "f")) []))))]

def reusedCode : List Instruction :=
  [{ op := .loadNil }, { op := .loadBool, a := 1, b := 1 }, { op := .closure },
    { op := .loadBool, a := 1 }, { op := .move, a := 2 }, { op := .call, a := 2, b := 1, c := 2 },
    { op := .ret, a := 2, b := 2 }, { op := .ret, b := 1 }]

/-- The closure that was made in the block sees what is written later for the other variable. -/
theorem not_closedInTime_reusedRegister :
    ∃ main map, reusedRegister.build {} none = .ok (main, map) ∧
      main.code.mapM Instruction.decode = .ok reusedCode ∧
      main.locals = [⟨"f", 1, 8⟩, ⟨"y", 4, 8⟩, ⟨"x", 2, 3⟩] ∧ main.SharesAt reusedCode 2 1 ∧
      [2, 3].IsChain (Successor reusedCode) ∧ ¬ ClosedInTime reusedCode 1 [3] := by
  have hcompiles : reusedRegister.compilesTo reusedCode [⟨"x", true, 1⟩]
    [⟨"f", 1, 8⟩, ⟨"y", 4, 8⟩, ⟨"x", 2, 3⟩] = true := by decide +kernel
  obtain ⟨main, map, child, hbuild, hcode, hchild, hcaptured, hlocals⟩ :=
    exists_of_compilesTo hcompiles
  refine ⟨main, map, hbuild, hcode, hlocals, ?_, ?_, ?_⟩
  · exact ⟨{ op := .closure }, child, ⟨"x", true, 1⟩, rfl, rfl, by simp [hchild],
      by simp [hcaptured], rfl, rfl⟩
  · exact .cons_cons ⟨{ op := .closure }, rfl, rfl⟩ (.singleton 3)
  · intro hclosed
    have hwrites : WritesAt reusedCode 1 3 := ⟨{ op := .loadBool, a := 1 }, rfl, rfl⟩
    obtain ⟨j, hj, -⟩ := hclosed [] 3 [] rfl hwrites
    simp at hj

end Program

end RegisterCode
