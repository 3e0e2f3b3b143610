import RegisterCode.Proofs.BuilderChanges

/-! Registers in every state of a function. Locals own ascending registers below the
next free one, whatever was taken, given back, refused or left unfinished before. -/
namespace RegisterCode

open Action Relation

def Scope.owned (scope : Scope) : List Nat :=
  (scope.locals.filter (!·.isAlias)).map fun l => l.register.toNat

namespace Scopes

def owned (scopes : Scopes) : List Nat :=
  scopes.stack.reverse.flatMap Scope.owned

variable {scopes : Scopes}

theorem owned_cons (scope : Scope) (outer : List Scope) (log log' : List LocalRange) :
    owned ⟨scope :: outer, log⟩ = owned ⟨outer, log'⟩ ++ scope.owned := by
  simp [owned]

theorem owned_openScope (name : String) (scopes : Scopes) :
    (scopes.openScope name).owned = scopes.owned := by
  simp [owned, openScope, Scope.owned]

theorem owned_add (hstack : scopes.stack ≠ []) (l : Local) :
    (scopes.add l).owned = scopes.owned ++ if l.isAlias then [] else [l.register.toNat] := by
  obtain ⟨_ | ⟨scope, outer⟩, log⟩ := scopes
  · exact absurd rfl hstack
  · rw [add, owned_cons _ _ _ log, owned_cons _ _ _ log, List.append_assoc]
    cases halias : l.isAlias <;> simp [Scope.owned, halias]

theorem owned_clamp (limit : UInt32) (scopes : Scopes) :
    (scopes.clamp limit).owned = scopes.owned := by
  have hscope : ∀ scope : Scope,
      Scope.owned { scope with locals := scope.locals.map (Local.clamp limit) } = scope.owned := by
    intro scope
    simp only [Scope.owned, List.filter_map, List.map_map]
    rfl
  simp only [owned, clamp, ← List.map_reverse, List.flatMap_map, hscope]

theorem isOwned_iff_mem {register : UInt8} :
    scopes.isOwned register = true ↔ register.toNat ∈ scopes.owned := by
  simp only [isOwned, locals, owned, Scope.owned, List.any_eq_true, List.mem_flatMap,
    List.mem_reverse, List.mem_map, List.mem_filter, Bool.and_eq_true, beq_iff_eq]
  constructor
  · rintro ⟨l, ⟨scope, hscope, hl⟩, rfl, hown⟩
    exact ⟨scope, hscope, l, ⟨hl, hown⟩, rfl⟩
  · rintro ⟨scope, hscope, l, ⟨hl, hown⟩, hregister⟩
    exact ⟨l, ⟨scope, hscope, hl⟩, UInt8.toNat_inj.mp hregister, hown⟩

theorem stack_ne_nil_of_checkFresh {name : String} {line : UInt32}
    (h : scopes.checkFresh name line = .ok ()) : scopes.stack ≠ [] := by
  intro hstack
  simp [checkFresh, hstack] at h

theorem lowest_mem_owned {scope : Scope} {lowest : UInt8}
    (h : ((scope.locals.filter (!·.isAlias)).map Local.register).min? = some lowest) :
    lowest.toNat ∈ scope.owned := by
  obtain ⟨l, hl, rfl⟩ := List.mem_map.mp (List.min?_eq_some_iff.mp h).1
  exact List.mem_map.mpr ⟨l, hl, rfl⟩

end Scopes

namespace FunctionBuilder

variable {usage : Usage} {f f' : FunctionBuilder}

structure Disciplined (f : FunctionBuilder) : Prop where
  ascending : f.scopes.owned.Pairwise (· < ·)
  below : ∀ n ∈ f.scopes.owned, n < f.nextFree
  nextFree_le : f.nextFree ≤ f.highWater
  highWater_le : f.highWater ≤ maxRegisters

theorem Change.highWater_le (h : Change usage f f') : f.highWater ≤ f'.highWater := by
  cases h with
  | take => exact Nat.le_max_left _ _
  | bind => exact Nat.le_max_left _ _
  | _ => exact Nat.le_refl _

theorem Disciplined.closeScope {scope : Scope} {outer : List Scope} (h : f.Disciplined)
    (hstack : f.scopes.stack = scope :: outer) (log : List LocalRange) :
    Scopes.owned ⟨outer, log⟩ <+: f.scopes.owned ∧
      ∀ lowest, ((scope.locals.filter (!·.isAlias)).map Local.register).min? = some lowest →
        lowest.toNat < f.nextFree ∧ ∀ n ∈ Scopes.owned ⟨outer, log⟩, n < lowest.toNat := by
  have hall : f.scopes.owned = Scopes.owned ⟨outer, log⟩ ++ scope.owned := by
    rw [← Scopes.owned_cons scope outer f.scopes.log log, ← hstack]
  refine ⟨hall ▸ List.prefix_append _ _, ?_⟩
  intro lowest hlowest
  have hmem := Scopes.lowest_mem_owned hlowest
  have hascending := h.ascending
  rw [hall, List.pairwise_append] at hascending
  refine ⟨h.below _ (hall ▸ List.mem_append_right _ hmem), ?_⟩
  intro n hn
  exact hascending.2.2 n hn _ hmem

theorem Disciplined.change (h : f.Disciplined) (hchange : Change usage f f') :
    f'.Disciplined := by
  have hnext := h.nextFree_le
  have hhigh := h.highWater_le
  cases hchange with
  | take hlt =>
    exact ⟨h.ascending, fun n hn => Nat.lt_succ_of_lt (h.below n hn), Nat.le_max_right _ _,
      Nat.max_le.mpr ⟨hhigh, hlt⟩⟩
  | give register howned hle hge =>
    refine ⟨h.ascending, ?_, by dsimp only; omega, hhigh⟩
    intro n hn
    have hbelow := h.below n hn
    -- the register given back is nobody's, so what lies below the mark lies below it
    have hother : n ≠ register.toNat := by
      rintro rfl
      simp [Scopes.isOwned_iff_mem.mpr hn] at howned
    dsimp only
    omega
  | openScope name =>
    have hsame := Scopes.owned_openScope name f.scopes
    exact ⟨hsame ▸ h.ascending, hsame ▸ h.below, hnext, hhigh⟩
  | closeScope _ hstack =>
    obtain ⟨hkept, hlowest⟩ := h.closeScope hstack _
    refine ⟨h.ascending.sublist hkept.sublist, ?_, ?_, hhigh⟩
    · intro n hn
      dsimp only
      split
      · next lowest hmin => exact (hlowest lowest hmin).2 n hn
      · exact h.below n (hkept.subset hn)
    · dsimp only
      split
      · next lowest hmin => exact Nat.le_trans (Nat.le_of_lt (hlowest lowest hmin).1) hnext
      · exact hnext
  | bind name register startPc hfresh hlt hregister =>
    have howned : (f.withLocal { name, register, startPc }).scopes.owned =
        f.scopes.owned ++ [f.nextFree] := by
      rw [withLocal, Scopes.owned_add (Scopes.stack_ne_nil_of_checkFresh hfresh), ← hregister]
      rfl
    refine ⟨?_, ?_, Nat.le_max_right _ _, Nat.max_le.mpr ⟨hhigh, hlt⟩⟩
    · rw [howned, List.pairwise_append]
      refine ⟨h.ascending, List.pairwise_singleton _ _, ?_⟩
      intro n hn m hm
      rw [List.mem_singleton.mp hm]
      exact h.below n hn
    · rw [howned]
      intro n hn
      rcases List.mem_append.mp hn with hn | hn
      · exact Nat.lt_succ_of_lt (h.below n hn)
      · rw [List.mem_singleton.mp hn]
        exact Nat.lt_succ_self _
  | label name register _ hfresh =>
    have hsame := Scopes.owned_add (Scopes.stack_ne_nil_of_checkFresh hfresh)
      { name, register, startPc := .ofNat f.pc, isAlias := true }
    rw [if_pos rfl, List.append_nil] at hsame
    exact ⟨hsame ▸ h.ascending, hsame ▸ h.below, hnext, hhigh⟩
  | cut size =>
    have hsame := Scopes.owned_clamp (.ofNat (min size f.pc)) f.scopes
    exact ⟨hsame ▸ h.ascending, hsame ▸ h.below, hnext, hhigh⟩
  | _ => exact ⟨h.ascending, h.below, hnext, hhigh⟩

theorem IsInitial.disciplined (h : f.IsInitial) : f.Disciplined := by
  cases h with
  | start name outerLevel firstLine =>
    constructor <;> simp [FunctionBuilder.start, Scopes.owned, Scopes.openScope, Scope.owned]
  | root name =>
    constructor <;>
      simp [FunctionBuilder.root, FunctionBuilder.start, Scopes.owned, Scopes.openScope,
        Scope.owned]

/-- A register that is handed out is the next free one and counts from then on. -/
def Hands (action : Build UInt8) (f : FunctionBuilder) : Prop :=
  ∀ register f', action f = .ok register f' →
    register.toNat = f.nextFree ∧ f.nextFree < f'.highWater

theorem allocate_hands (f : FunctionBuilder) : Hands allocate f := by
  intro register f' hrun
  obtain ⟨-, hregister, rfl⟩ := (allocate_ensures f).of_ok hrun
  exact ⟨hregister, Nat.le_max_right _ _⟩

theorem pushTemporary_hands (f : FunctionBuilder) : Hands pushTemporary f := by
  intro register f' hrun
  obtain ⟨register', middle, hallocate, hrest⟩ := bind_eq_ok.mp hrun
  cases hrest
  exact allocate_hands f _ middle hallocate

theorem bindName_hands (name : String) (startPc : UInt32) (f : FunctionBuilder) :
    Hands (bindName name startPc) f := by
  intro register f' hrun
  rw [bindName_apply] at hrun
  split at hrun
  · simp at hrun
  · split at hrun
    · simp at hrun
    · next register' middle hallocate =>
      cases hrun
      exact allocate_hands f _ middle hallocate

theorem bindParameter_hands (name : String) (f : FunctionBuilder) :
    Hands (bindParameter name) f := by
  intro register f' hrun
  obtain ⟨_, _, ⟨⟩, hrun⟩ := bind_eq_ok.mp hrun
  obtain ⟨register', middle, hbind, hrest⟩ := bind_eq_ok.mp hrun
  cases hrest
  exact bindName_hands name _ f _ middle hbind

namespace Operation

theorem register?_plainly {α : Type} (action : Build α) (f : FunctionBuilder) :
    ((plainly action).value? f).join = none := by
  rw [plainly, value?_map]
  cases action.value? f <;> rfl

theorem register?_handing {action : Build UInt8} {register : UInt8} (haction : Hands action f)
    (h : ((some <$> action).value? f).join = some register) :
    register.toNat = f.nextFree ∧ f.nextFree < ((some <$> action).after f).highWater := by
  have hvalue : action.value? f = some register := by
    rw [value?_map] at h
    cases hvalue : action.value? f <;> simp_all
  rw [after_map]
  exact haction register _ (value?_eq_some hvalue)

theorem register_eq_nextFree {operation : Operation} {register : UInt8}
    (h : operation.register? f = some register) :
    register.toNat = f.nextFree ∧ f.nextFree < (operation.after f).highWater := by
  cases operation with
  | allocate => exact register?_handing (allocate_hands f) h
  | pushTemporary => exact register?_handing (pushTemporary_hands f) h
  | bindParameter name => exact register?_handing (bindParameter_hands name f) h
  | bindLocal name => exact register?_handing (bindName_hands name (.ofNat f.pc) f) h
  | _ =>
    have hnone : _ = some register := h
    simp only [register?, run, register?_plainly] at hnone
    simp at hnone

end Operation

variable {permits : FunctionBuilder → Operation → Prop}

theorem Runs.highWater_le (h : Runs permits f f') : f.highWater ≤ f'.highWater :=
  h.induction (fun g operation _ => operation.respects_anything g)
    (fun _ _ hchange hle => Nat.le_trans hle hchange.highWater_le) (Nat.le_refl _)

theorem Reachable.disciplined (h : f.Reachable permits) : f.Disciplined := by
  obtain ⟨initial, hinitial, hrun⟩ := h
  exact hrun.induction (fun g operation _ => operation.respects_anything g)
    (fun _ _ hchange hdisciplined => hdisciplined.change hchange) hinitial.disciplined

theorem closeScope_nextFree_le (h : f.Disciplined) :
    (Operation.closeScope.after f).nextFree ≤ f.nextFree := by
  rw [Operation.after, Operation.run, Operation.plainly, after_map]
  cases hstack : f.scopes.stack with
  | nil => simp [after, closeScope_eq_error hstack]
  | cons scope outer =>
    rw [after_of_ok (closeScope_apply hstack)]
    have hlowest := (h.closeScope hstack []).2
    dsimp only
    split
    · next lowest hmin => exact Nat.le_of_lt (hlowest lowest hmin).1
    · exact Nat.le_refl _

/-- Whatever was done to a function before, its locals own ascending registers below the
next free one; no register that is handed out is a local's, all of them stay below the
high-water mark for good, and closing a scope takes no register. -/
theorem Reachable.registers_in_order (h : f.Reachable permits) :
    f.scopes.owned.Pairwise (· < ·) ∧ (∀ n ∈ f.scopes.owned, n < f.nextFree) ∧
      f.nextFree ≤ f.highWater ∧ f.highWater ≤ 255 ∧
      (∀ f', Runs permits f f' → f.highWater ≤ f'.highWater) ∧
      (∀ (operation : Operation) register, operation.register? f = some register →
        f.scopes.isOwned register = false ∧
          ∀ f', Runs permits (operation.after f) f' → register.toNat < f'.highWater) ∧
      (Operation.closeScope.after f).nextFree ≤ f.nextFree ∧ f.scopes.owned.Nodup := by
  have hdisciplined := h.disciplined
  refine ⟨hdisciplined.ascending, hdisciplined.below, hdisciplined.nextFree_le,
    hdisciplined.highWater_le, fun f' hrun => hrun.highWater_le, ?_,
    closeScope_nextFree_le hdisciplined, hdisciplined.ascending.imp Nat.ne_of_lt⟩
  intro operation register hregister
  obtain ⟨hnext, hlt⟩ := Operation.register_eq_nextFree hregister
  constructor
  · rw [← Bool.not_eq_true, Scopes.isOwned_iff_mem]
    intro hmem
    exact Nat.lt_irrefl _ (hnext ▸ hdisciplined.below _ hmem)
  · intro f' hrun
    have hgrown := hrun.highWater_le
    omega

/-- A local inside a scope, a name for a register far above, a temporary, and registers that
are given back out of order or never were taken. -/
def contested : FunctionBuilder :=
  [Operation.bindLocal "x", .openScope "block", .allocate, .nameRegister "y" 200,
    .bindLocal "z", .pushTemporary, .free 1, .free 200, .free 2, .bindLocal "z"].foldl
    (fun f operation => operation.after f) (start "f" none 1)

theorem Reachable.registers_in_order_contested :
    contested.Reachable (fun _ _ => True) ∧ contested.scopes.owned = [0, 2] ∧
      contested.nextFree = 4 ∧ Operation.allocate.register? contested = some 4 ∧
      contested.scopes.owned.Pairwise (· < ·) ∧ contested.scopes.isOwned 4 = false ∧
      (Operation.closeScope.after contested).nextFree ≤ 4 := by
  have hreachable : contested.Reachable (fun _ _ => True) :=
    ⟨_, .start "f" none 1, runs_foldl _ (fun _ _ _ => trivial) _⟩
  have hregister : Operation.allocate.register? contested = some 4 := rfl
  have hregisters := hreachable.registers_in_order
  exact ⟨hreachable, rfl, rfl, hregister, hregisters.1,
    (hregisters.2.2.2.2.2.1 .allocate 4 hregister).1, hregisters.2.2.2.2.2.2.1⟩

end FunctionBuilder

end RegisterCode
