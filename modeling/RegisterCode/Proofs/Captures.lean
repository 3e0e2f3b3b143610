import RegisterCode.Proofs.BuilderSteps

/-! Finding a name through the functions around the current one. Whatever comes of it,
the functions are only made to capture more. -/
namespace RegisterCode

open Action

namespace FunctionBuilder

theorem appendUpvalue_ensures (up : Capture) (f : FunctionBuilder) :
    (appendUpvalue up).Ensures f fun index f' =>
      f.upvalues.length < maxUpvalues ∧ index.toNat = f.upvalues.length ∧
        f' = { f with upvalues := f.upvalues ++ [up] } := by
  rw [ensures_iff]
  unfold appendUpvalue
  dsimp only
  split
  · next index after hrun =>
    split at hrun
    · next hlt =>
      injection hrun with hindex hafter
      subst hindex hafter
      refine ⟨hlt, ?_, rfl⟩
      unfold maxUpvalues at hlt
      rw [UInt8.toNat_ofNat']
      omega
    · simp at hrun
  · next error after hrun =>
    split at hrun
    · simp at hrun
    · injection hrun with herror hafter
      subst herror
      trivial

theorem appendUpvalue_error {up : Capture} {f f' : FunctionBuilder} {error : Error}
    (h : appendUpvalue up f = .error error f') : f' = f := by
  unfold appendUpvalue at h
  dsimp only at h
  split at h
  · simp at h
  · injection h with _ hsame
    exact hsame.symm

end FunctionBuilder

namespace ChunkBuilder
open FunctionBuilder

def Searched (f : FunctionBuilder) (enclosing : List FunctionBuilder)
    (after : FunctionBuilder × List FunctionBuilder) : Prop :=
  f.Captures after.1 ∧ List.Forall₂ Captures enclosing after.2

theorem Searched.refl (f : FunctionBuilder) (enclosing : List FunctionBuilder) :
    Searched f enclosing (f, enclosing) :=
  ⟨.refl f, List.forall₂_same.mpr fun g _ => .refl g⟩

theorem Searched.outer {f outer : FunctionBuilder} {rest : List FunctionBuilder}
    {after : FunctionBuilder × List FunctionBuilder} (h : Searched outer rest after) :
    Searched f (outer :: rest) (f, after.1 :: after.2) :=
  ⟨.refl f, .cons h.1 h.2⟩

theorem addCapture_searched {up : Capture} {f : FunctionBuilder}
    {enclosing enclosing' : List FunctionBuilder}
    (h : List.Forall₂ Captures enclosing enclosing') :
    match captureFrom.addCapture up f enclosing' with
    | .ok _ after => Searched f enclosing after
    | .error error after => error.IsProgramFault ∧ Searched f enclosing after := by
  unfold captureFrom.addCapture
  have happend := appendUpvalue_ensures up f
  cases hrun : appendUpvalue up f with
  | ok index f' =>
    obtain ⟨-, -, rfl⟩ := happend.of_ok hrun
    exact ⟨⟨[up], rfl⟩, h⟩
  | error error f' =>
    exact ⟨happend.of_error hrun, appendUpvalue_error hrun ▸ .refl f, h⟩

theorem captureFrom_searched (name : String) (f : FunctionBuilder)
    (enclosing : List FunctionBuilder) :
    match captureFrom name f enclosing with
    | .ok _ after => Searched f enclosing after
    | .error error after => error.IsProgramFault ∧ Searched f enclosing after := by
  induction f, enclosing using captureFrom.induct name with
  | case1 f => exact .refl f []
  | case2 f outer rest index hindex =>
    simp only [captureFrom, hindex]
    exact .refl f (outer :: rest)
  | case3 f outer rest hnone register hregister =>
    simp only [captureFrom, hnone, hregister]
    exact addCapture_searched (Searched.refl f (outer :: rest)).2
  | case4 f outer rest hnone hlocal error outer' rest' hrun ih =>
    simp only [captureFrom, hnone, hlocal, hrun] at ih ⊢
    exact ⟨ih.1, ih.2.outer⟩
  | case5 f outer rest hnone hlocal outer' rest' hrun ih =>
    simp only [captureFrom, hnone, hlocal, hrun] at ih ⊢
    exact ih.outer
  | case6 f outer rest hnone hlocal index outer' rest' hrun ih =>
    simp only [captureFrom, hnone, hlocal, hrun] at ih ⊢
    exact addCapture_searched (.cons ih.1 ih.2)

theorem upvalue?_eq_none {f : FunctionBuilder} {name : String} :
    f.upvalue? name = none ↔ ∀ up ∈ f.upvalues, up.name ≠ name := by
  simp [upvalue?, List.findIdx?_eq_none_iff]

theorem captureFrom_environment {f : FunctionBuilder} {enclosing : List FunctionBuilder}
    (h : KnowsEnvironment f enclosing) (after : FunctionBuilder × List FunctionBuilder) :
    captureFrom environmentName f enclosing ≠ .ok none after := by
  induction f, enclosing using captureFrom.induct environmentName generalizing after with
  | case1 f =>
    obtain ⟨up, hup, hname⟩ := h
    intro hrun
    injection hrun with hnone
    exact upvalue?_eq_none.mp hnone up hup hname
  | case2 f outer rest index hindex => simp [captureFrom, hindex]
  | case3 f outer rest hnone register hregister =>
    simp only [captureFrom, hnone, hregister, captureFrom.addCapture]
    split <;> simp
  | case4 f outer rest hnone hlocal error outer' rest' hrun ih =>
    simp [captureFrom, hnone, hlocal, hrun]
  | case5 f outer rest hnone hlocal outer' rest' hrun ih =>
    exact absurd hrun (ih h _)
  | case6 f outer rest hnone hlocal index outer' rest' hrun ih =>
    simp only [captureFrom, hnone, hlocal, hrun, captureFrom.addCapture]
    split <;> simp

theorem resolve_ensures (name : String) (b : ChunkBuilder) :
    (resolve name).Ensures b fun found b' =>
      (match found with
        | .register register => b.current.scopes.register? name = some register
        | .upvalue _ => True
        | .global global => global = name ∧
          ∃ after, captureFrom name b.current b.enclosing = .ok none after) ∧
      ∃ current enclosing, Searched b.current b.enclosing (current, enclosing) ∧
        b' = { b with current, enclosing } := by
  have hsearch := captureFrom_searched name b.current b.enclosing
  rw [ensures_iff]
  unfold resolve
  cases hlocal : b.current.scopes.register? name with
  | some register => exact ⟨rfl, b.current, b.enclosing, .refl _ _, rfl⟩
  | none =>
    dsimp only
    cases hrun : captureFrom name b.current b.enclosing with
    | ok found after =>
      rw [hrun] at hsearch
      obtain ⟨current, enclosing⟩ := after
      cases found with
      | some index => exact ⟨trivial, current, enclosing, hsearch, rfl⟩
      | none => exact ⟨⟨rfl, _, rfl⟩, current, enclosing, hsearch, rfl⟩
    | error error after =>
      rw [hrun] at hsearch
      exact hsearch.1

end ChunkBuilder

end RegisterCode
