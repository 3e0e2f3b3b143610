import RegisterCode.Proofs.ExpressionFrame

/-! Where operands are. An expression that is lowered to an operand leaves its value in the
register of a local only if it is the name of that local; every other value that is in a
register is in one that was free before. -/
namespace RegisterCode

open Action

/-- The register of a local, which is the value's own, or else the next one that is free. -/
def Expr.LiesIn (e : Expr) (f : FunctionBuilder) (q : UInt8) : Prop :=
  (∃ name, e.form = .name name ∧ f.scopes.register? name = some q) ∨ q.toNat = f.nextFree

namespace FunctionBuilder

variable {f : FunctionBuilder}

theorem Tidy.register?_inj (h : f.Tidy) {name other : String} {q : UInt8}
    (hname : f.scopes.register? name = some q) (hother : f.scopes.register? other = some q) :
    name = other := by
  have hfound : ∀ {name : String} {l : Local}, f.scopes.find? name = some l →
      l ∈ f.scopes.stack.reverse.flatMap Scope.locals ∧ l.name = name := by
    intro name l hl
    obtain ⟨scope, hscope, hfind⟩ := List.exists_of_findSome?_eq_some hl
    obtain ⟨hmem, hname⟩ := Scope.mem_of_find? hfind
    exact ⟨List.mem_flatMap.mpr ⟨scope, List.mem_reverse.mpr hscope, hmem⟩, hname⟩
  have howned : f.scopes.owned =
      (f.scopes.stack.reverse.flatMap Scope.locals).map fun l => l.register.toNat := by
    rw [Scopes.owned, List.map_flatMap]
    refine List.flatMap_congr fun scope hscope => ?_
    rw [Scope.owned, List.filter_eq_self.mpr]
    intro l hl
    simp [h.plain.2 scope (List.mem_reverse.mp hscope) l hl]
  have hnodup := h.disciplined.ascending.imp Nat.ne_of_lt
  rw [howned] at hnodup
  obtain ⟨l, hl, rfl⟩ := Option.map_eq_some_iff.mp hname
  obtain ⟨l', hl', hsame⟩ := Option.map_eq_some_iff.mp hother
  obtain ⟨hmem, rfl⟩ := hfound hl
  obtain ⟨hmem', rfl⟩ := hfound hl'
  rw [List.inj_on_of_nodup_map hnodup hmem hmem' (by rw [hsame])]

theorem Tidy.register?_lt (h : f.Tidy) {name : String} {q : UInt8}
    (hname : f.scopes.register? name = some q) : q.toNat < f.nextFree :=
  h.disciplined.below _ (Scopes.isOwned_iff_mem.mp (h.plain.isOwned hname))

end FunctionBuilder

theorem Expr.LiesIn.ne {e : Expr} {f : FunctionBuilder} {name : String} {stored q : UInt8}
    (h : e.LiesIn f stored) (htidy : f.Tidy) (hname : f.scopes.register? name = some q)
    (hform : e.form ≠ .name name) : stored ≠ q := by
  rintro rfl
  rcases h with ⟨other, hother, hfound⟩ | hfree
  · rw [htidy.register?_inj hfound hname] at hother
    exact hform hother
  · have hlt := htidy.register?_lt hname
    omega

namespace ChunkBuilder
open FunctionBuilder

variable {b : ChunkBuilder}

theorem Reached.current_tidy (h : b.Reached) : b.current.Tidy :=
  h.tidy b.current List.mem_cons_self

theorem Reached.permits (h : b.Reached) (names : List String) :
    b.current.Permits (fun _ => True) names where
  free _ _ := trivial
  owned _ howned := h.current_tidy.disciplined.below _ (Scopes.isOwned_iff_mem.mp howned)
  known _ _ hfound := h.current_tidy.plain.isOwned hfound
  named _ _ _ _ := trivial

end ChunkBuilder

namespace Lower
open ChunkBuilder FunctionBuilder

variable {e : Expr} {b : ChunkBuilder}

def copied (value : Option UInt8 → Lower Operand) : Lower UInt8 := do
  let register ← allocate
  let _ ← value (some register)
  return register

/-- One operand of an operator. Only a concatenation has a copy of it in any case. -/
def operandFor (op : BinaryOp) (value : Option UInt8 → Lower Operand) : Lower Short :=
  match op.shape with
  | .concatenation => do
    return .register (← copied value)
  | _ => do toShort (← value none)

def operate (op : BinaryOp) (x y : Int) (target : UInt8) : Lower Unit :=
  match op.shape with
  | .concatenation => emit .concat target.toNat x y
  | .arithmetic opcode => emit opcode target.toNat x y
  | .comparison opcode expected swapped =>
    if swapped then compare opcode expected y x target else compare opcode expected x y target

theorem binaryInto_eq (op : BinaryOp) (left right : Option UInt8 → Lower Operand)
    (target : UInt8) :
    binaryInto op left right target = (do
      let first ← operandFor op left
      let second ← operandFor op right
      free second.holder
      free first.holder
      operate op first.field second.field target) := by
  unfold binaryInto operandFor operate
  cases op.shape <;> simp [shortPair_eq, copied, Short.register]

theorem arguments_cons (arg : Expr) (rest : List Expr) :
    arguments (arg :: rest) = do
      let register ← copied (expr arg)
      let registers ← arguments rest
      return register :: registers := by
  simp [arguments, copied]

theorem copied_takes {touched : Nat → Prop} (h : b.current.Permits touched e.assigned) :
    (copied (expr e)).Promises b fun register b' =>
      b.current.Takes touched register b'.current := by
  apply (allocate_takes touched b).bind
  intro register b₁ htaken
  apply ((framed_expr e (List.Subset.refl _) (some register)).restores (htaken.permits h)
    (htaken.permitted h)).bind
  intro _ b₂ hlowered
  exact promises_pure (htaken.restores hlowered)

theorem inPlace_liesIn (compute : UInt8 → Lower Unit) :
    (inPlace compute none).Promises b fun operand _ =>
      ∀ q, operand = .register q → e.LiesIn b.current q := by
  apply (allocate_takes (fun _ => True) b).bind
  intro target b₁ htaken
  refine ⟨fun hrun => ?_⟩
  obtain ⟨_, b₂, -, hreturn⟩ := bind_eq_ok.mp hrun
  cases hreturn
  rintro _ ⟨⟩
  exact .inr htaken.register

theorem expr_liesIn (b : ChunkBuilder) (e : Expr) :
    (expr e none).Promises b fun operand _ =>
      ∀ q, operand = .register q → e.LiesIn b.current q := by
  have hliteral : ∀ c : Constant, Promises (do settle (← constant c) none) b fun operand _ =>
      ∀ q, operand = .register q → e.LiesIn b.current q := by
    refine fun c => ⟨fun hrun => ?_⟩
    obtain ⟨_, _, hconstant, hsettle⟩ := bind_eq_ok.mp hrun
    cases hsettle
    obtain ⟨_, _, -, hreturn⟩ := bind_eq_ok.mp hconstant
    cases hreturn
    simp
  obtain ⟨form, span, type, symbol⟩ := e
  cases form with
  | nil | boolean value =>
    rw [expr]
    exact promises_pure (by simp)
  | integer value | number value | string value =>
    rw [expr]
    exact hliteral _
  | name name =>
    rw [expr]
    refine ⟨fun hrun => ?_⟩
    obtain ⟨found, b₁, hresolve, hsettle⟩ := bind_eq_ok.mp hrun
    cases hsettle
    obtain ⟨hfound, -⟩ := (resolve_ensures name b).of_ok hresolve
    intro q hq
    cases found with
    | register register =>
      cases hq
      exact .inl ⟨name, rfl, hfound⟩
    | _ => cases hq
  | unary op operand | binary op left right | logical op left right | assign name value
  | call callee args | function function =>
    rw [expr]
    exact inPlace_liesIn _
  | tuple items | object fields =>
    rw [expr]
    exact promises_throw

theorem toRegister_liesIn (hb : b.Reached) (e : Expr) :
    Promises (do toRegister (← expr e none)) b fun q _ => e.LiesIn b.current q := by
  refine ⟨fun hrun => ?_⟩
  obtain ⟨operand, b₁, hlower, hregister⟩ := bind_eq_ok.mp hrun
  have hlies := (expr_liesIn b e).of_ok hlower
  have hrests := (((framed_expr e (List.Subset.refl _) none).obtains
    (hb.permits _)).of_ok hlower).rests
  cases operand with
  | register register =>
    cases hregister
    exact hlies _ rfl
  | _ =>
    -- nothing is held yet, so the next free register is still the one from before
    rw [toRegister_of_ne (by simp)] at hregister
    obtain ⟨target, b₂, hallocate, hregister⟩ := bind_eq_ok.mp hregister
    obtain ⟨_, b₃, -, hreturn⟩ := bind_eq_ok.mp hregister
    cases hreturn
    rw [Expr.LiesIn, ← hrests]
    exact .inr ((allocate_takes (fun _ => True) b₁).of_ok hallocate).register

theorem toShort_liesIn (hb : b.Reached) (e : Expr) :
    Promises (do toShort (← expr e none)) b fun short _ =>
      ∀ q, short.holder = .register q → short.field = q.toNat ∧ e.LiesIn b.current q := by
  refine ⟨fun {short b'} hrun => ?_⟩
  obtain ⟨operand, b₁, hlower, hshort⟩ := bind_eq_ok.mp hrun
  intro q hq
  have hfield := short.isShort
  rw [hq] at hfield
  refine ⟨(Option.some.inj hfield).symm, ?_⟩
  rcases toShort_cases operand with ⟨same, rfl, hsame⟩ | hheld
  · rw [hsame] at hshort
    cases hshort
    exact (expr_liesIn b e).of_ok hlower q hq
  · rw [hheld] at hshort
    obtain ⟨register, b₂, hregister, hreturn⟩ := bind_eq_ok.mp hshort
    cases hreturn
    cases hq
    exact (toRegister_liesIn hb e).of_ok (bind_eq_ok.mpr ⟨operand, b₁, hlower, hregister⟩)

end Lower

end RegisterCode
