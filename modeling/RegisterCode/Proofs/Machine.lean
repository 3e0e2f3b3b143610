import Mathlib.Logic.Relation
import RegisterCode.Prototype
import RegisterCode.Proofs.SourceMeaning
import RegisterCode.Proofs.WordFormat

/-! The machine that runs the code of one function. An instruction without a meaning
here, and one that names a constant which does not exist, stops the machine for good. -/
namespace RegisterCode

structure Machine (Value Fault : Type) where
  meaning : Interpretation Value Fault
  code : List Instruction
  constants : List Constant

namespace Machine

structure State (Value : Type) where
  pc : Nat
  registers : Nat → Value

inductive Step (Value Fault : Type)
  | next (state : State Value)
  | stop (ending : Ending Value Fault)

variable {Value Fault : Type}

namespace State

def get (s : State Value) (x : Int) : Value :=
  s.registers x.toNat

def set (s : State Value) (x : Int) (v : Value) : State Value :=
  { s with registers := Function.update s.registers x.toNat v }

def advance (s : State Value) (n : Nat) : State Value :=
  { s with pc := s.pc + n }

def row (s : State Value) (first count : Int) : List Value :=
  (List.range count.toNat).map fun k => s.registers (first.toNat + k)

def deliver (s : State Value) (target : Int) : Except Fault Value → Step Value Fault
  | .ok v => .next ((s.set target v).advance 1)
  | .error fault => .stop (.raised fault)

/-- Skip the next instruction unless the result is the expected one. -/
def test (s : State Value) (expected : Int) : Except Fault Bool → Step Value Fault
  | .ok truth => .next (s.advance (if (truth.toNat : Int) = expected then 1 else 2))
  | .error fault => .stop (.raised fault)

end State

variable (M : Machine Value Fault)

def constant? (slot : Int) : Option Value :=
  M.constants[slot.toNat]?.map M.meaning.literal

def operand? (s : State Value) (x : Int) : Option Value :=
  if x < 0 then M.constant? (Instruction.constantSlot x) else some (s.get x)

def compute (s : State Value) (i : Instruction) (op : BinaryOp) : Option (Step Value Fault) := do
  let x ← M.operand? s i.b
  let y ← M.operand? s i.c
  return s.deliver i.a (M.meaning.compute op x y)

def compare (s : State Value) (i : Instruction)
    (relation : Value → Value → Except Fault Bool) : Option (Step Value Fault) := do
  let x ← M.operand? s i.b
  let y ← M.operand? s i.c
  return s.test i.a (relation x y)

def concat : Value → List Value → Except Fault Value
  | first, [] => .ok first
  | first, second :: rest => do M.meaning.compute .concat first (← concat second rest)

def perform (i : Instruction) (s : State Value) : Option (Step Value Fault) := do
  match i.op with
  | .move => return .next ((s.set i.a (s.get i.b)).advance 1)
  | .loadK => return .next ((s.set i.a (← M.constant? i.b)).advance 1)
  | .loadKX =>
    let extra ← M.code[s.pc + 1]?
    if extra.op = .extraArg then return .next ((s.set i.a (← M.constant? extra.a)).advance 2)
    else none
  | .loadBool =>
    let value := M.meaning.literal (.boolean (i.b ≠ 0))
    return .next ((s.set i.a value).advance (if i.c ≠ 0 then 2 else 1))
  | .loadNil =>
    let cleared := (List.range (i.b.toNat + 1)).foldl
      (fun s k => s.set (i.a + k) (M.meaning.literal .nil)) s
    return .next (cleared.advance 1)
  | .add => M.compute s i .add
  | .sub => M.compute s i .sub
  | .mul => M.compute s i .mul
  | .div => M.compute s i .div
  | .idiv => M.compute s i .idiv
  | .mod => M.compute s i .mod
  | .pow => M.compute s i .pow
  | .band => M.compute s i .band
  | .bor => M.compute s i .bor
  | .bxor => M.compute s i .bxor
  | .shl => M.compute s i .shl
  | .shr => M.compute s i .shr
  | .unm => return s.deliver i.a (M.meaning.unary .negate (s.get i.b))
  | .not => return s.deliver i.a (M.meaning.unary .not (s.get i.b))
  | .len => return s.deliver i.a (M.meaning.unary .length (s.get i.b))
  | .concat =>
    return s.deliver i.a (M.concat (s.get i.b) (s.row (i.b + 1) (i.c - i.b)))
  | .jmp =>
    let target := s.pc + 1 + i.b
    if 0 ≤ target then return .next { s with pc := target.toNat } else none
  | .eq => M.compare s i M.meaning.eq
  | .lt => M.compare s i M.meaning.lt
  | .le => M.compare s i M.meaning.le
  | .test => return s.test i.c (.ok (M.meaning.truthy (s.get i.a)))
  | .ret =>
    if 0 < i.b then return .stop (.returned (s.row i.a (i.b - 1))) else none
  | _ => none

def step (s : State Value) : Option (Step Value Fault) := do
  M.perform (← M.code[s.pc]?) s

inductive Ends : State Value → Ending Value Fault → Prop
  | stop : M.step s = some (.stop ending) → Ends s ending
  | next : M.step s = some (.next s') → Ends s' ending → Ends s ending

def Reaches : State Value → State Value → Prop :=
  Relation.ReflTransGen fun s s' => M.step s = some (.next s')

variable {M} {s s' : State Value} {ending ending' : Ending Value Fault}

theorem Ends.unique (h : M.Ends s ending) (h' : M.Ends s ending') : ending = ending' := by
  induction h with
  | stop hstep =>
    cases h' with
    | stop hstep' => simpa [hstep] using hstep'
    | next hstep' _ => simp [hstep] at hstep'
  | next hstep _ ih =>
    cases h' with
    | stop hstep' => simp [hstep] at hstep'
    | next hstep' hrest =>
      have hsame := hstep.symm.trans hstep'
      injection hsame with hsame
      injection hsame with hsame
      exact ih (hsame ▸ hrest)

theorem Reaches.ends (h : M.Reaches s s') (hends : M.Ends s' ending) : M.Ends s ending := by
  induction h using Relation.ReflTransGen.head_induction_on with
  | refl => exact hends
  | head hstep _ ih => exact .next hstep ih

/-- A value is computed and the machine is in a state for it, or it raises. -/
def Gives (M : Machine Value Fault) (s : State Value) (result : Except Fault Value)
    (post : Value → State Value → Prop) : Prop :=
  match result with
  | .ok v => ∃ s', M.Reaches s s' ∧ post v s'
  | .error fault => M.Ends s (.raised fault)

theorem Reaches.gives {result : Except Fault Value} {post : Value → State Value → Prop}
    (h : M.Reaches s s') (hgives : M.Gives s' result post) : M.Gives s result post := by
  cases result with
  | ok v =>
    obtain ⟨s'', hreaches, hpost⟩ := hgives
    exact ⟨s'', h.trans hreaches, hpost⟩
  | error fault => exact h.ends hgives

theorem Gives.bind {result : Except Fault Value} {next : Value → Except Fault Value}
    {middle post : Value → State Value → Prop} (h : M.Gives s result middle)
    (hnext : ∀ v s', result = .ok v → middle v s' → M.Gives s' (next v) post) :
    M.Gives s (result >>= next) post := by
  cases result with
  | ok v =>
    obtain ⟨s', hreaches, hmiddle⟩ := h
    exact hreaches.gives (hnext v s' rfl hmiddle)
  | error fault => exact h

theorem Gives.onward {result : Except Fault Value} {middle post : Value → State Value → Prop}
    (h : M.Gives s result middle)
    (hnext : ∀ v s', middle v s' → ∃ s'', M.Reaches s' s'' ∧ post v s'') :
    M.Gives s result post := by
  cases result with
  | ok v =>
    obtain ⟨s', hreaches, hmiddle⟩ := h
    obtain ⟨s'', hreaches', hpost⟩ := hnext v s' hmiddle
    exact ⟨s'', hreaches.trans hreaches', hpost⟩
  | error fault => exact h

theorem Gives.mono {result : Except Fault Value} {post weaker : Value → State Value → Prop}
    (h : M.Gives s result post) (himp : ∀ v s', post v s' → weaker v s') :
    M.Gives s result weaker :=
  h.onward fun v s' hpost => ⟨s', .refl, himp v s' hpost⟩

variable {i : Instruction} {result : Except Fault Value}

theorem step_of_perform {after : Step Value Fault} (hat : M.code[s.pc]? = some i)
    (h : M.perform i s = some after) : M.step s = some after := by
  simp only [step, hat, Option.bind_eq_bind, Option.bind_some, h]

theorem reaches_of_perform (hat : M.code[s.pc]? = some i) (h : M.perform i s = some (.next s')) :
    M.Reaches s s' :=
  .single (step_of_perform hat h)

theorem ends_of_perform (hat : M.code[s.pc]? = some i)
    (h : M.perform i s = some (.stop ending)) : M.Ends s ending :=
  .stop (step_of_perform hat h)

theorem gives_of_deliver {target : Int} (hat : M.code[s.pc]? = some i)
    (h : M.perform i s = some (s.deliver target result)) :
    M.Gives s result fun v s' => s' = (s.set target v).advance 1 := by
  cases result with
  | ok v => exact ⟨_, reaches_of_perform hat h, rfl⟩
  | error fault => exact ends_of_perform hat h

def JumpsTo (M : Machine Value Fault) (p target : Nat) : Prop :=
  ∃ i, M.code[p]? = some i ∧ i.op = .jmp ∧ (target : Int) = p + 1 + i.b

theorem JumpsTo.reaches {target : Nat} (h : M.JumpsTo s.pc target) :
    M.Reaches s { s with pc := target } := by
  obtain ⟨i, hat, hop, htarget⟩ := h
  have hperform : M.perform i s = some (.next { s with pc := target }) := by
    simp only [perform, hop, ← htarget]
    simp
  exact reaches_of_perform hat hperform

end Machine

def Prototype.Ends {Value Fault : Type} (I : Interpretation Value Fault) (p : Prototype)
    (registers : Nat → Value) (ending : Ending Value Fault) : Prop :=
  ∃ code, p.code.mapM Instruction.decode = .ok code ∧
    Machine.Ends ⟨I, code, p.constants⟩ ⟨0, registers⟩ ending

end RegisterCode
