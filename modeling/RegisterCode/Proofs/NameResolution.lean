import Mathlib.Data.List.Nodup
import RegisterCode.Proofs.Captures

/-! Names are found where the nesting of functions and scopes puts them. A function
remembers by name alone what it captured; that is right in every state that the
builder can get into, because the functions around it keep their scopes meanwhile. -/
namespace RegisterCode

open Action

namespace Scopes

def Declares (scopes : Scopes) (name : String) : Prop :=
  ∃ l ∈ scopes.locals, l.name = name

def IsInnermost (scopes : Scopes) (name : String) (l : Local) : Prop :=
  l.name = name ∧ ∃ inner scope outer, scopes.stack = inner ++ scope :: outer ∧
    l ∈ scope.locals ∧ ∀ nearer ∈ inner, ∀ other ∈ nearer.locals, other.name ≠ name

def Distinct (scopes : Scopes) : Prop :=
  ∀ scope ∈ scopes.stack, (scope.locals.map Local.name).Nodup

variable {scopes : Scopes} {name : String}

/-- The names of a scope are distinct, so from which end it is searched makes no difference. -/
theorem find?_scope_eq_some_iff {scope : Scope} (h : (scope.locals.map Local.name).Nodup)
    {l : Local} : scope.find? name = some l ↔ l ∈ scope.locals ∧ l.name = name := by
  refine ⟨Scope.mem_of_find?, fun ⟨hl, hname⟩ => ?_⟩
  cases hfound : scope.find? name with
  | none => exact absurd hname (Scope.find?_eq_none_iff.mp hfound l hl)
  | some other =>
    obtain ⟨hother, hsame⟩ := Scope.mem_of_find? hfound
    rw [List.inj_on_of_nodup_map h hother hl (hsame.trans hname.symm)]

theorem find?_eq_some_iff (h : scopes.Distinct) {l : Local} :
    scopes.find? name = some l ↔ scopes.IsInnermost name l := by
  rw [find?, List.findSome?_eq_some_iff]
  constructor
  · rintro ⟨inner, scope, outer, hstack, hfound, hnone⟩
    obtain ⟨hl, hname⟩ := Scope.mem_of_find? hfound
    exact ⟨hname, inner, scope, outer, hstack, hl, fun nearer hnearer =>
      Scope.find?_eq_none_iff.mp (hnone nearer hnearer)⟩
  · rintro ⟨hname, inner, scope, outer, hstack, hl, hhidden⟩
    have hdistinct := h scope (by simp [hstack])
    exact ⟨inner, scope, outer, hstack, (find?_scope_eq_some_iff hdistinct).mpr ⟨hl, hname⟩,
      fun nearer hnearer => Scope.find?_eq_none_iff.mpr (hhidden nearer hnearer)⟩

theorem register?_eq_some_iff (h : scopes.Distinct) {register : UInt8} :
    scopes.register? name = some register ↔
      ∃ l, scopes.IsInnermost name l ∧ l.register = register := by
  simp only [register?, Option.map_eq_some_iff, find?_eq_some_iff h]

theorem register?_eq_none_iff : scopes.register? name = none ↔ ¬ scopes.Declares name := by
  simp only [register?, Option.map_eq_none_iff, find?, List.findSome?_eq_none_iff,
    Scope.find?_eq_none_iff, Declares, locals, List.mem_flatMap]
  constructor
  · rintro hnone ⟨l, ⟨scope, hscope, hl⟩, hname⟩
    exact hnone scope hscope l hl hname
  · intro hnone scope hscope l hl hname
    exact hnone ⟨l, ⟨scope, hscope, hl⟩, hname⟩

theorem IsInnermost.unique (h : scopes.Distinct) {l l' : Local} (hl : scopes.IsInnermost name l)
    (hl' : scopes.IsInnermost name l') : l = l' := by
  rw [← find?_eq_some_iff h] at hl hl'
  rw [hl] at hl'
  exact Option.some.inj hl'

theorem IsInnermost.declares {l : Local} (h : scopes.IsInnermost name l) :
    scopes.Declares name := by
  obtain ⟨hname, inner, scope, outer, hstack, hl, -⟩ := h
  exact ⟨l, List.mem_flatMap.mpr ⟨scope, by simp [hstack], hl⟩, hname⟩

end Scopes

inductive Place
  /-- A register of the function at a level. -/
  | register (level : Nat) (index : UInt8)
  /-- An upvalue of the outermost function. -/
  | slot (index : UInt8)
  | global (name : String)
deriving DecidableEq

/-- The register of the innermost local of a name in the nearest function that has one;
without any, the first upvalue of the outermost function. -/
def IsNearest (name : String) : List Scopes → Place → Prop
  | [], place => place = .slot 0
  | scopes :: around, place =>
    (∃ l, scopes.IsInnermost name l ∧ place = .register around.length l.register) ∨
      (¬ scopes.Declares name ∧ IsNearest name around place)

theorem IsNearest.unique {name : String} {around : List Scopes} {place place' : Place}
    (hdistinct : ∀ scopes ∈ around, scopes.Distinct) (h : IsNearest name around place)
    (h' : IsNearest name around place') : place = place' := by
  induction around with
  | nil => exact Eq.trans h (Eq.symm h')
  | cons scopes around ih =>
    rcases h with ⟨l, hl, hplace⟩ | ⟨hnone, hrest⟩ <;>
      rcases h' with ⟨l', hl', hplace'⟩ | ⟨hnone', hrest'⟩
    · rw [hplace, hplace', hl.unique (hdistinct scopes (by simp)) hl']
    · exact absurd hl.declares hnone'
    · exact absurd hl'.declares hnone
    · exact ih (fun other hother => hdistinct other (by simp [hother])) hrest hrest'

namespace FunctionBuilder

/-- Follow an upvalue outward, from each function to the one around it. -/
def follow : FunctionBuilder → List FunctionBuilder → UInt8 → Option Place
  | f, [], slot => f.upvalues[slot.toNat]?.map fun _ => .slot slot
  | f, outer :: rest, slot =>
    match f.upvalues[slot.toNat]? with
    | none => none
    | some up =>
      if up.inStack then some (.register rest.length up.index) else follow outer rest up.index

structure CapturesFrom (f outer : FunctionBuilder) : Prop where
  names : (f.upvalues.map Capture.name).Nodup
  count : f.upvalues.length ≤ maxUpvalues
  right : ∀ up ∈ f.upvalues, if up.inStack then outer.scopes.register? up.name = some up.index
    else outer.scopes.register? up.name = none ∧
      ∃ next, outer.upvalues[up.index.toNat]? = some next ∧ next.name = up.name

/-- All open functions capture rightly, and the outermost its environment alone. -/
def Linked : FunctionBuilder → List FunctionBuilder → Prop
  | f, [] => f.scopes.Distinct ∧ f.upvalues = [⟨environmentName, true, 0⟩]
  | f, outer :: rest => f.scopes.Distinct ∧ f.CapturesFrom outer ∧ Linked outer rest

variable {f f' outer outer' : FunctionBuilder} {enclosing enclosing' : List FunctionBuilder}
  {name : String}

theorem Linked.distinct (h : Linked f enclosing) :
    ∀ g ∈ f :: enclosing, g.scopes.Distinct := by
  induction enclosing generalizing f with
  | nil =>
    intro g hg
    rw [List.mem_singleton.mp hg]
    exact h.1
  | cons outer rest ih =>
    intro g hg
    rcases List.mem_cons.mp hg with rfl | hg
    · exact h.1
    · exact ih h.2.2 g hg

theorem follow_nearest (h : Linked f enclosing) {slot : UInt8} {up : Capture}
    (hup : f.upvalues[slot.toNat]? = some up) :
    ∃ place, f.follow enclosing slot = some place ∧
      IsNearest up.name (enclosing.map FunctionBuilder.scopes) place := by
  induction enclosing generalizing f slot up with
  | nil =>
    have hzero : slot = 0 := by
      have hlt := (List.getElem?_eq_some_iff.mp hup).1
      rw [h.2] at hlt
      exact UInt8.toNat_inj.mp (Nat.lt_one_iff.mp hlt)
    refine ⟨.slot slot, ?_, by rw [hzero]; rfl⟩
    rw [follow, hup]
    rfl
  | cons outer rest ih =>
    have hright := h.2.1.right up (List.mem_of_getElem? hup)
    cases hstack : up.inStack with
    | true =>
      rw [hstack] at hright
      have hdistinct := h.2.2.distinct outer (by simp)
      obtain ⟨l, hl, hregister⟩ := (Scopes.register?_eq_some_iff hdistinct).mp hright
      refine ⟨.register rest.length up.index, ?_, .inl ⟨l, hl, ?_⟩⟩
      · simp only [follow, hup, hstack, ↓reduceIte]
      · rw [List.length_map, hregister]
    | false =>
      rw [hstack] at hright
      obtain ⟨hlocal, next, hnext, hname⟩ := hright
      obtain ⟨place, hfollow, hnearest⟩ := ih h.2.2 hnext
      refine ⟨place, ?_, .inr ⟨Scopes.register?_eq_none_iff.mp hlocal, ?_⟩⟩
      · simp only [follow, hup, hstack, Bool.false_eq_true, ↓reduceIte, hfollow]
      · rw [← hname]
        exact hnearest

theorem Linked.declared (h : Linked f enclosing) {up : Capture} (hup : up ∈ f.upvalues) :
    up.name = environmentName ∨
      ∃ scopes ∈ enclosing.map FunctionBuilder.scopes, scopes.Declares up.name := by
  induction enclosing generalizing f up with
  | nil =>
    rw [h.2, List.mem_singleton] at hup
    exact .inl (by rw [hup])
  | cons outer rest ih =>
    have hright := h.2.1.right up hup
    split at hright
    · refine .inr ⟨outer.scopes, by simp, ?_⟩
      by_contra hnone
      rw [Scopes.register?_eq_none_iff.mpr hnone] at hright
      simp at hright
    · obtain ⟨-, next, hnext, hname⟩ := hright
      rw [← hname]
      rcases ih h.2.2 (List.mem_of_getElem? hnext) with henvironment | ⟨scopes, hscopes, hdeclares⟩
      · exact .inl henvironment
      · exact .inr ⟨scopes, List.mem_cons_of_mem _ hscopes, hdeclares⟩

theorem follow_mono (hf : f.Captures f') (henclosing : List.Forall₂ Captures enclosing enclosing')
    {slot : UInt8} {place : Place} (h : f.follow enclosing slot = some place) :
    f'.follow enclosing' slot = some place := by
  have hmore : ∀ {g g' : FunctionBuilder} {up : Capture} {slot : UInt8}, g.Captures g' →
      g.upvalues[slot.toNat]? = some up → g'.upvalues[slot.toNat]? = some up := by
    rintro g _ up slot ⟨captured, rfl⟩ hup
    rw [List.getElem?_append_left (List.getElem?_eq_some_iff.mp hup).1, hup]
  induction henclosing generalizing f f' slot with
  | nil =>
    obtain ⟨up, hup, hplace⟩ := Option.map_eq_some_iff.mp h
    rw [follow, hmore hf hup]
    exact congrArg some hplace
  | cons houter hrest ih =>
    rw [follow] at h ⊢
    split at h
    · simp at h
    · next up hup =>
      rw [hmore hf hup]
      rw [hrest.length_eq] at h
      dsimp only
      split at h
      · next hstack => rw [if_pos hstack, h]
      · next hstack =>
        rw [if_neg hstack]
        exact ih houter h

theorem CapturesFrom.mono (h : f.CapturesFrom outer) (houter : outer.Captures outer') :
    f.CapturesFrom outer' := by
  obtain ⟨captured, rfl⟩ := houter
  refine ⟨h.names, h.count, ?_⟩
  intro up hup
  have hright := h.right up hup
  split at hright
  · next hstack =>
    rw [if_pos hstack]
    exact hright
  · next hstack =>
    obtain ⟨hlocal, next, hnext, hname⟩ := hright
    rw [if_neg hstack]
    refine ⟨hlocal, next, ?_, hname⟩
    rw [List.getElem?_append_left (List.getElem?_eq_some_iff.mp hnext).1, hnext]

theorem Linked.names (h : Linked f enclosing) :
    (f.upvalues.map Capture.name).Nodup ∧ f.upvalues.length ≤ maxUpvalues := by
  cases enclosing with
  | nil =>
    rw [h.2]
    decide
  | cons outer rest => exact ⟨h.2.1.names, h.2.1.count⟩

theorem upvalue?_eq_some_iff (h : Linked f enclosing) {slot : UInt8} :
    f.upvalue? name = some slot ↔ ∃ up, f.upvalues[slot.toNat]? = some up ∧ up.name = name := by
  obtain ⟨hnames, hcount⟩ := h.names
  unfold maxUpvalues at hcount
  rw [upvalue?, Option.map_eq_some_iff]
  constructor
  · rintro ⟨index, hindex, rfl⟩
    obtain ⟨hlt, hname, -⟩ := List.findIdx?_eq_some_iff_getElem.mp hindex
    have hslot : (UInt8.ofNat index).toNat = index := by
      rw [UInt8.toNat_ofNat']
      omega
    rw [hslot]
    exact ⟨_, List.getElem?_eq_getElem hlt, by simpa using hname⟩
  · rintro ⟨up, hup, hname⟩
    obtain ⟨hlt, hat⟩ := List.getElem?_eq_some_iff.mp hup
    refine ⟨slot.toNat, List.findIdx?_eq_some_iff_getElem.mpr ⟨hlt, ?_, ?_⟩, UInt8.ofNat_toNat⟩
    · simp [hat, hname]
    · intro j hj hsame
      have hdifferent := List.pairwise_iff_getElem.mp hnames j slot.toNat
        (by rw [List.length_map]; omega) (by rw [List.length_map]; exact hlt) hj
      rw [List.getElem_map, List.getElem_map, hat, hname] at hdifferent
      exact hdifferent (by simpa using hsame)

/-- What a search can come to: an upvalue of the name, or that nobody knows it. However
it ends, all captures are right. -/
def Searches (name : String) (f : FunctionBuilder) (enclosing : List FunctionBuilder) :
    EStateM.Result Error (FunctionBuilder × List FunctionBuilder) (Option UInt8) → Prop
  | .ok (some slot) (f', around) => Linked f' around ∧
    ∃ up, f'.upvalues[slot.toNat]? = some up ∧ up.name = name
  | .ok none after => after = (f, enclosing) ∧ name ≠ environmentName ∧
    ∀ g ∈ enclosing, ¬ g.scopes.Declares name
  | .error _ (f', around) => Linked f' around

theorem addCapture_searches {rest rest' : List FunctionBuilder} (h : Linked f (outer :: rest))
    {up : Capture} (hnew : f.upvalue? up.name = none) (houter : outer.Captures outer')
    (hlinked : Linked outer' rest')
    (hright : if up.inStack then outer'.scopes.register? up.name = some up.index
      else outer'.scopes.register? up.name = none ∧
        ∃ next, outer'.upvalues[up.index.toNat]? = some next ∧ next.name = up.name) :
    Searches up.name f (outer :: rest)
      (ChunkBuilder.captureFrom.addCapture up f (outer' :: rest')) := by
  have hcaptures := h.2.1.mono houter
  unfold ChunkBuilder.captureFrom.addCapture
  cases hrun : appendUpvalue up f with
  | ok slot f' =>
    obtain ⟨hlt, hslot, rfl⟩ := (appendUpvalue_ensures up f).of_ok hrun
    refine ⟨⟨h.1, ⟨?_, ?_, ?_⟩, hlinked⟩, up, ?_, rfl⟩
    · have hfresh := ChunkBuilder.upvalue?_eq_none.mp hnew
      rw [List.map_append, List.map_singleton, List.nodup_append]
      refine ⟨hcaptures.names, by simp, ?_⟩
      intro first hfirst second hsecond hsame
      obtain ⟨old, hold, rfl⟩ := List.mem_map.mp hfirst
      rw [List.mem_singleton.mp hsecond] at hsame
      exact hfresh old hold hsame
    · rw [List.length_append, List.length_singleton]
      omega
    · intro old hold
      rcases List.mem_append.mp hold with hold | hold
      · exact hcaptures.right old hold
      · rw [List.mem_singleton.mp hold]
        exact hright
    · rw [hslot, List.getElem?_append_right (Nat.le_refl _), Nat.sub_self]
      rfl
  | error error f' =>
    rw [appendUpvalue_error hrun]
    exact ⟨h.1, hcaptures, hlinked⟩

end FunctionBuilder

namespace ChunkBuilder
open FunctionBuilder

variable {name : String}

theorem captureFrom_searches {f : FunctionBuilder} {enclosing : List FunctionBuilder}
    (h : Linked f enclosing) : Searches name f enclosing (captureFrom name f enclosing) := by
  induction f, enclosing using captureFrom.induct name with
  | case1 f =>
    rw [captureFrom]
    cases hfound : f.upvalue? name with
    | some slot => exact ⟨h, (upvalue?_eq_some_iff h).mp hfound⟩
    | none =>
      refine ⟨rfl, ?_, by simp⟩
      rintro rfl
      exact upvalue?_eq_none.mp hfound ⟨environmentName, true, 0⟩ (by simp [h.2]) rfl
  | case2 f outer rest index hindex =>
    simp only [captureFrom, hindex]
    exact ⟨h, (upvalue?_eq_some_iff h).mp hindex⟩
  | case3 f outer rest hnone register hregister =>
    simp only [captureFrom, hnone, hregister]
    exact addCapture_searches h hnone (.refl outer) h.2.2 hregister
  | case4 f outer rest hnone hlocal error outer' rest' hrun ih =>
    have hsearched := captureFrom_searched name outer rest
    have hlinked := ih h.2.2
    rw [hrun] at hsearched hlinked
    simp only [captureFrom, hnone, hlocal, hrun]
    exact ⟨h.1, h.2.1.mono hsearched.2.1, hlinked⟩
  | case5 f outer rest hnone hlocal outer' rest' hrun ih =>
    have hlinked := ih h.2.2
    rw [hrun] at hlinked
    obtain ⟨hsame, hname, hnobody⟩ := hlinked
    simp only [captureFrom, hnone, hlocal, hrun]
    injection hsame with houter hrest
    refine ⟨by rw [houter, hrest], hname, ?_⟩
    intro g hg
    rcases List.mem_cons.mp hg with rfl | hg
    · exact Scopes.register?_eq_none_iff.mp hlocal
    · exact hnobody g hg
  | case6 f outer rest hnone hlocal index outer' rest' hrun ih =>
    have hsearched := captureFrom_searched name outer rest
    have hlinked := ih h.2.2
    rw [hrun] at hsearched hlinked
    simp only [captureFrom, hnone, hlocal, hrun]
    have hlocal' : outer'.scopes.register? name = none := by
      rw [hsearched.1.scopes]
      exact hlocal
    exact addCapture_searches h hnone hsearched.1 hlinked.1 ⟨hlocal', hlinked.2⟩

inductive Operation
  | openFunction (name : String) (firstLine : UInt32)
  | closeFunction (lastLine : UInt32)
  | resolve (name : String)
  | openScope (name : String)
  | closeScope
  | bindParameter (name : String)
  | bindLocal (name : String)
  | nameRegister (name : String) (register : UInt8)

def stateAfter {α : Type} (action : Action ChunkBuilder α) (b : ChunkBuilder) : ChunkBuilder :=
  match action b with
  | .ok _ b' => b'
  | .error _ b' => b'

def Operation.run : Operation → ChunkBuilder → ChunkBuilder
  | .openFunction name firstLine => ChunkBuilder.openFunction name firstLine
  | .closeFunction lastLine => stateAfter (ChunkBuilder.closeFunction lastLine)
  | .resolve name => stateAfter (ChunkBuilder.resolve name)
  | .openScope name => stateAfter (onCurrent (modify (FunctionBuilder.openScope name)))
  | .closeScope => stateAfter (onCurrent FunctionBuilder.closeScope)
  | .bindParameter name => stateAfter (onCurrent (FunctionBuilder.bindParameter name))
  | .bindLocal name => stateAfter (onCurrent (FunctionBuilder.bindLocal name))
  | .nameRegister name register =>
    stateAfter (onCurrent (FunctionBuilder.nameRegister name register))

inductive Reachable : ChunkBuilder → Prop
  | start (options : Options) (map : Option SourceMap) : Reachable (.start options map)
  | step {b : ChunkBuilder} (operation : Operation) : Reachable b → Reachable (operation.run b)

end ChunkBuilder

namespace Scopes

variable {scopes : Scopes}

theorem Distinct.openScope (h : scopes.Distinct) (name : String) :
    (scopes.openScope name).Distinct := by
  intro scope hscope
  rcases List.mem_cons.mp hscope with rfl | hscope
  · exact List.nodup_nil
  · exact h scope hscope

theorem Distinct.add (h : scopes.Distinct) {l : Local} {line : UInt32}
    (hfresh : scopes.checkFresh l.name line = .ok ()) : (scopes.add l).Distinct := by
  cases hstack : scopes.stack with
  | nil => simp [Distinct, Scopes.add, hstack]
  | cons innermost outer =>
    have hnew : ∀ other ∈ innermost.locals, other.name ≠ l.name := by
      simp only [checkFresh, hstack] at hfresh
      split at hfresh
      · simp at hfresh
      · next hany => simpa using hany
    simp only [Distinct, Scopes.add, hstack, List.forall_mem_cons]
    constructor
    · rw [List.map_append, List.map_singleton, List.nodup_append]
      refine ⟨h innermost (by simp [hstack]), by simp, ?_⟩
      intro first hfirst second hsecond hsame
      obtain ⟨other, hother, rfl⟩ := List.mem_map.mp hfirst
      exact hnew other hother (hsame.trans (List.mem_singleton.mp hsecond))
    · intro scope hscope
      exact h scope (by simp [hstack, hscope])

end Scopes

namespace FunctionBuilder

variable {f : FunctionBuilder}

def KeepsNames {α : Type} (f : FunctionBuilder) : EStateM.Result Error FunctionBuilder α → Prop
  | .ok _ f' | .error _ f' => f'.scopes.Distinct ∧ f'.upvalues = f.upvalues

theorem bindName_keepsNames (h : f.scopes.Distinct) (name : String) (startPc : UInt32) :
    f.KeepsNames (bindName name startPc f) := by
  rw [bindName_apply]
  cases hfresh : f.scopes.checkFresh name f.line with
  | error error => exact ⟨h, rfl⟩
  | ok _ =>
    dsimp only
    unfold allocate
    by_cases hlt : f.nextFree < maxRegisters
    · rw [if_pos hlt]
      exact ⟨h.add hfresh, rfl⟩
    · rw [if_neg hlt]
      exact ⟨h, rfl⟩

theorem bindParameter_keepsNames (h : f.scopes.Distinct) (name : String) :
    f.KeepsNames (bindParameter name f) := by
  have hbound := bindName_keepsNames h name f.parameterStart
  unfold bindParameter
  rw [bind_apply]
  change f.KeepsNames ((bindName name f.parameterStart >>= _) f)
  rw [bind_apply]
  cases hname : bindName name f.parameterStart f with
  | ok register f' =>
    rw [hname] at hbound
    exact hbound
  | error error f' =>
    rw [hname] at hbound
    exact hbound

theorem nameRegister_keepsNames (h : f.scopes.Distinct) (name : String) (register : UInt8) :
    f.KeepsNames (nameRegister name register f) := by
  rw [nameRegister_apply]
  cases hfresh : f.scopes.checkFresh name f.line with
  | error error => exact ⟨h, rfl⟩
  | ok _ => exact ⟨h.add hfresh, rfl⟩

theorem closeScope_keepsNames (h : f.scopes.Distinct) : f.KeepsNames (closeScope f) := by
  unfold closeScope
  rw [onScopes_apply]
  cases hstack : f.scopes.stack with
  | nil =>
    simp only [Scopes.closeScope, hstack]
    exact ⟨h, rfl⟩
  | cons scope outer =>
    have houter : Scopes.Distinct ⟨outer, scope.locals.map (Local.range (.ofNat f.pc)) ++
        f.scopes.log⟩ := fun other hother => h other (by simp [hstack, hother])
    simp only [Scopes.closeScope, hstack]
    generalize ((scope.locals.filter (!·.isAlias)).map Local.register).min? = lowest
    cases lowest with
    | none => exact ⟨houter, rfl⟩
    | some lowest => exact ⟨houter, rfl⟩

theorem linked_congr {f f' : FunctionBuilder} {enclosing : List FunctionBuilder}
    (h : Linked f enclosing) (hdistinct : f'.scopes.Distinct)
    (hupvalues : f'.upvalues = f.upvalues) : Linked f' enclosing := by
  cases enclosing with
  | nil => exact ⟨hdistinct, hupvalues.trans h.2⟩
  | cons outer rest =>
    refine ⟨hdistinct, ⟨?_, ?_, ?_⟩, h.2.2⟩
    · rw [hupvalues]
      exact h.2.1.names
    · rw [hupvalues]
      exact h.2.1.count
    · rw [hupvalues]
      exact h.2.1.right

end FunctionBuilder

namespace ChunkBuilder
open FunctionBuilder

variable {b b' : ChunkBuilder}

theorem onCurrent_linked {α : Type} {action : Build α} (h : Linked b.current b.enclosing)
    (haction : b.current.KeepsNames (action b.current)) :
    Linked (stateAfter (onCurrent action) b).current
      (stateAfter (onCurrent action) b).enclosing := by
  rw [stateAfter, onCurrent_apply]
  cases hrun : action b.current with
  | ok value f =>
    rw [hrun] at haction
    exact linked_congr h haction.1 haction.2
  | error error f =>
    rw [hrun] at haction
    exact linked_congr h haction.1 haction.2

theorem resolve_linked (h : Linked b.current b.enclosing) (name : String) :
    Linked (stateAfter (resolve name) b).current (stateAfter (resolve name) b).enclosing := by
  have hsearches : Searches name b.current b.enclosing (captureFrom name b.current b.enclosing) :=
    captureFrom_searches h
  unfold stateAfter resolve
  cases hlocal : b.current.scopes.register? name with
  | some register => exact h
  | none =>
    cases hrun : captureFrom name b.current b.enclosing with
    | ok found after =>
      rw [hrun] at hsearches
      cases found with
      | some slot => exact hsearches.1
      | none =>
        rw [hsearches.1]
        exact h
    | error error after =>
      rw [hrun] at hsearches
      exact hsearches

theorem closeFunction_linked (h : Linked b.current b.enclosing) (lastLine : UInt32) :
    Linked (stateAfter (closeFunction lastLine) b).current
      (stateAfter (closeFunction lastLine) b).enclosing := by
  cases henclosing : b.enclosing with
  | nil =>
    rw [henclosing] at h
    simpa only [stateAfter, closeFunction, henclosing] using h
  | cons outer rest =>
    rw [henclosing] at h
    have houter : ∀ child : Prototype, outer.KeepsNames (addChild child outer) := by
      intro child
      unfold addChild
      dsimp only
      split
      · exact ⟨h.2.2.distinct outer (by simp), rfl⟩
      · exact ⟨h.2.2.distinct outer (by simp), rfl⟩
    simp only [stateAfter, closeFunction, henclosing]
    cases b.current.finish lastLine with
    | error error => exact h.2.2
    | ok child =>
      exact onCurrent_linked (b := { b with current := outer, enclosing := rest }) h.2.2
        (houter child)

theorem Operation.run_linked (h : Linked b.current b.enclosing) (operation : Operation) :
    Linked (operation.run b).current (operation.run b).enclosing := by
  have hdistinct := h.distinct b.current (by simp)
  cases operation with
  | openFunction name firstLine =>
    have hempty : Scopes.Distinct {} := by simp [Scopes.Distinct]
    exact ⟨hempty.openScope name, ⟨List.nodup_nil, Nat.zero_le _, fun _ hup => nomatch hup⟩, h⟩
  | closeFunction lastLine => exact closeFunction_linked h lastLine
  | resolve name => exact resolve_linked h name
  | openScope name => exact onCurrent_linked h ⟨hdistinct.openScope name, rfl⟩
  | closeScope => exact onCurrent_linked h (closeScope_keepsNames hdistinct)
  | bindParameter name => exact onCurrent_linked h (bindParameter_keepsNames hdistinct name)
  | bindLocal name => exact onCurrent_linked h (bindName_keepsNames hdistinct name _)
  | nameRegister name register =>
    exact onCurrent_linked h (nameRegister_keepsNames hdistinct name register)

theorem Reachable.linked (h : b.Reachable) : Linked b.current b.enclosing := by
  induction h with
  | start options map =>
    have hempty : Scopes.Distinct {} := by simp [Scopes.Distinct]
    exact ⟨hempty.openScope options.chunkName, rfl⟩
  | step operation _ ih => exact operation.run_linked ih

end ChunkBuilder

inductive IsLexical (name : String) (current : Scopes) (around : List Scopes) : Place → Prop
  | here {l : Local} : current.IsInnermost name l →
    IsLexical name current around (.register around.length l.register)
  | outside {place : Place} : ¬ current.Declares name →
    (name = FunctionBuilder.environmentName ∨ ∃ scopes ∈ around, scopes.Declares name) →
    IsNearest name around place → IsLexical name current around place
  | unknown : ¬ current.Declares name → name ≠ FunctionBuilder.environmentName →
    (∀ scopes ∈ around, ¬ scopes.Declares name) → IsLexical name current around (.global name)

theorem IsLexical.unique {name : String} {current : Scopes} {around : List Scopes}
    {place place' : Place} (hdistinct : ∀ scopes ∈ current :: around, scopes.Distinct)
    (h : IsLexical name current around place) (h' : IsLexical name current around place') :
    place = place' := by
  cases h with
  | here hl =>
    cases h' with
    | here hl' => rw [hl.unique (hdistinct current (by simp)) hl']
    | outside hnone _ _ => exact absurd hl.declares hnone
    | unknown hnone _ _ => exact absurd hl.declares hnone
  | outside hnone hknown hnearest =>
    cases h' with
    | here hl' => exact absurd hl'.declares hnone
    | outside _ _ hnearest' =>
      exact hnearest.unique (fun scopes hscopes => hdistinct scopes (by simp [hscopes])) hnearest'
    | unknown _ hname hnobody =>
      rcases hknown with hname' | ⟨scopes, hscopes, hdeclares⟩
      · exact absurd hname' hname
      · exact absurd hdeclares (hnobody scopes hscopes)
  | unknown hnone hname hnobody =>
    cases h' with
    | here hl' => exact absurd hl'.declares hnone
    | outside _ hknown _ =>
      rcases hknown with hname' | ⟨scopes, hscopes, hdeclares⟩
      · exact absurd hname' hname
      · exact absurd hdeclares (hnobody scopes hscopes)
    | unknown _ _ _ => rfl

def Variable.place (b : ChunkBuilder) : Variable → Option Place
  | .register index => some (.register b.level index)
  | .upvalue slot => b.current.follow b.enclosing slot
  | .global name => some (.global name)

namespace ChunkBuilder
open FunctionBuilder

variable {b b' : ChunkBuilder} {name : String} {found : Variable}

inductive Resolves (b : ChunkBuilder) (name : String) : Variable → ChunkBuilder → Prop
  | here {register : UInt8} : b.current.scopes.register? name = some register →
    Resolves b name (.register register) b
  | captured {slot : UInt8} {up : Capture} {current : FunctionBuilder}
    {enclosing : List FunctionBuilder} : b.current.scopes.register? name = none →
    Searched b.current b.enclosing (current, enclosing) → Linked current enclosing →
    current.upvalues[slot.toNat]? = some up → up.name = name →
    Resolves b name (.upvalue slot) { b with current, enclosing }
  | unknown : b.current.scopes.register? name = none → name ≠ environmentName →
    (∀ f ∈ b.enclosing, ¬ f.scopes.Declares name) → Resolves b name (.global name) b

theorem resolve_cases (h : Linked b.current b.enclosing) (hrun : resolve name b = .ok found b') :
    Resolves b name found b' := by
  have hsearched := captureFrom_searched name b.current b.enclosing
  have hsearches : Searches name b.current b.enclosing (captureFrom name b.current b.enclosing) :=
    captureFrom_searches h
  unfold resolve at hrun
  split at hrun
  · next register hregister =>
    injection hrun with hfound hstate
    rw [← hfound, ← hstate]
    exact .here hregister
  · next hlocal =>
    split at hrun
    · next slot current enclosing hcapture =>
      rw [hcapture] at hsearched hsearches
      obtain ⟨hlinked, up, hup, hname⟩ := hsearches
      injection hrun with hfound hstate
      rw [← hfound, ← hstate]
      exact .captured hlocal hsearched hlinked hup hname
    · next current enclosing hcapture =>
      rw [hcapture] at hsearches
      obtain ⟨hsame, hname, hnobody⟩ := hsearches
      injection hsame with hcurrent henclosing
      injection hrun with hfound hstate
      rw [← hfound, ← hstate, hcurrent, henclosing]
      exact .unknown hlocal hname hnobody
    · simp at hrun

theorem Resolves.linked (h : Resolves b name found b') (hlinked : Linked b.current b.enclosing) :
    Linked b'.current b'.enclosing := by
  cases h with
  | here _ => exact hlinked
  | captured _ _ hlinked' _ _ => exact hlinked'
  | unknown _ _ _ => exact hlinked

theorem Resolves.searched (h : Resolves b name found b') :
    Searched b.current b.enclosing (b'.current, b'.enclosing) := by
  cases h with
  | here _ => exact .refl _ _
  | captured _ hsearched _ _ _ => exact hsearched
  | unknown _ _ _ => exact .refl _ _

theorem map_scopes_of_captures {enclosing enclosing' : List FunctionBuilder}
    (h : List.Forall₂ Captures enclosing enclosing') :
    enclosing'.map FunctionBuilder.scopes = enclosing.map FunctionBuilder.scopes := by
  induction h with
  | nil => rfl
  | cons hstep _ ih => rw [List.map_cons, List.map_cons, hstep.scopes, ih]

theorem distinct_scopes (h : Linked b.current b.enclosing) :
    ∀ scopes ∈ b.current.scopes :: b.enclosing.map FunctionBuilder.scopes, scopes.Distinct := by
  intro scopes hscopes
  rw [← List.map_cons] at hscopes
  obtain ⟨f, hf, rfl⟩ := List.mem_map.mp hscopes
  exact h.distinct f hf

theorem Resolves.follow {slot : UInt8} (h : Resolves b name (.upvalue slot) b') :
    ∃ place, b'.current.follow b'.enclosing slot = some place ∧
      IsNearest name (b.enclosing.map FunctionBuilder.scopes) place := by
  cases h with
  | captured _ hsearched hlinked' hup hname =>
    rw [← map_scopes_of_captures hsearched.2, ← hname]
    exact follow_nearest hlinked' hup

theorem Resolves.place (h : Resolves b name found b') (hlinked : Linked b.current b.enclosing) :
    ∃ place, found.place b' = some place ∧
      IsLexical name b.current.scopes (b.enclosing.map FunctionBuilder.scopes) place := by
  have hdistinct := hlinked.distinct b.current (by simp)
  cases h with
  | here hregister =>
    obtain ⟨l, hl, rfl⟩ := (Scopes.register?_eq_some_iff hdistinct).mp hregister
    refine ⟨_, rfl, ?_⟩
    rw [level, ← List.length_map FunctionBuilder.scopes]
    exact .here hl
  | captured hlocal hsearched hlinked' hup hname =>
    obtain ⟨place, hfollow, hnearest⟩ :=
      Resolves.follow (.captured hlocal hsearched hlinked' hup hname)
    have hdeclared := hlinked'.declared (List.mem_of_getElem? hup)
    rw [map_scopes_of_captures hsearched.2, hname] at hdeclared
    exact ⟨place, hfollow, .outside (Scopes.register?_eq_none_iff.mp hlocal) hdeclared hnearest⟩
  | unknown hlocal hname hnobody =>
    refine ⟨_, rfl, .unknown (Scopes.register?_eq_none_iff.mp hlocal) hname ?_⟩
    intro scopes hscopes
    obtain ⟨f, hf, rfl⟩ := List.mem_map.mp hscopes
    exact hnobody f hf

theorem Resolves.again (h : Resolves b name found b') (hrun : resolve name b = .ok found b') :
    resolve name b' = .ok found b' := by
  cases h with
  | here _ => exact hrun
  | captured hlocal hsearched hlinked' hup hname =>
    next current enclosing =>
    have hlocal' : current.scopes.register? name = none := by
      rw [hsearched.1.scopes]
      exact hlocal
    have hslot := (upvalue?_eq_some_iff hlinked').mpr ⟨_, hup, hname⟩
    simp only [resolve, hlocal']
    cases enclosing with
    | nil => simp only [captureFrom, hslot]
    | cons outer rest => simp only [captureFrom, hslot]
  | unknown _ _ _ => exact hrun

theorem Resolves.others (h : Resolves b name found b') (hlinked : Linked b.current b.enclosing)
    {other : String} {first second : Variable} {b₁ b₂ : ChunkBuilder}
    (hfirst : resolve other b = .ok first b₁) (hsecond : resolve other b' = .ok second b₂) :
    ∃ place, first.place b₁ = some place ∧ second.place b₂ = some place := by
  have hlinked' := h.linked hlinked
  obtain ⟨place, hplace, hlexical⟩ := (resolve_cases hlinked hfirst).place hlinked
  obtain ⟨place', hplace', hlexical'⟩ := (resolve_cases hlinked' hsecond).place hlinked'
  rw [h.searched.1.scopes, map_scopes_of_captures h.searched.2] at hlexical'
  exact ⟨place, hplace, hlexical.unique (distinct_scopes hlinked) hlexical' ▸ hplace'⟩

theorem Resolves.eq_register_iff (h : Resolves b name found b')
    (hlinked : Linked b.current b.enclosing) (register : UInt8) :
    found = .register register ↔
      ∃ l, b.current.scopes.IsInnermost name l ∧ l.register = register := by
  rw [← Scopes.register?_eq_some_iff (hlinked.distinct b.current (by simp))]
  cases h with
  | here hregister => simp [hregister]
  | captured hlocal _ _ _ _ => simp [hlocal]
  | unknown hlocal _ _ => simp [hlocal]

theorem Resolves.eq_global_iff (h : Resolves b name found b') (global : String) :
    found = .global global ↔ global = name ∧ name ≠ environmentName ∧
      ∀ f ∈ b.current :: b.enclosing, ¬ f.scopes.Declares name := by
  rw [List.forall_mem_cons, ← Scopes.register?_eq_none_iff]
  cases h with
  | here hregister => simp [hregister]
  | captured hlocal hsearched hlinked' hup hname =>
    have hdeclared := hlinked'.declared (List.mem_of_getElem? hup)
    rw [map_scopes_of_captures hsearched.2, hname] at hdeclared
    simp only [reduceCtorEq, false_iff, not_and, not_forall, not_not]
    rintro - hother -
    rcases hdeclared with henvironment | ⟨scopes, hscopes, hdeclares⟩
    · exact absurd henvironment hother
    · obtain ⟨f, hf, rfl⟩ := List.mem_map.mp hscopes
      exact ⟨f, hf, hdeclares⟩
  | unknown hlocal hname hnobody =>
    constructor
    · intro hsame
      injection hsame with hsame
      exact ⟨hsame.symm, hname, hlocal, hnobody⟩
    · rintro ⟨rfl, -⟩
      rfl

/-- Names are found where the nesting puts them, the same again on a second search, and no
search moves another variable. -/
theorem resolve_lexical (hb : b.Reachable) (h : resolve name b = .ok found b') :
    (∀ register, found = .register register ↔
      ∃ l, b.current.scopes.IsInnermost name l ∧ l.register = register) ∧
    (∀ global, found = .global global ↔ global = name ∧ name ≠ environmentName ∧
      ∀ f ∈ b.current :: b.enclosing, ¬ f.scopes.Declares name) ∧
    (∀ slot, found = .upvalue slot → ∃ place, b'.current.follow b'.enclosing slot = some place ∧
      IsNearest name (b.enclosing.map FunctionBuilder.scopes) place) ∧
    resolve name b' = .ok found b' ∧
    (∀ other first b₁ second b₂, resolve other b = .ok first b₁ →
      resolve other b' = .ok second b₂ →
      ∃ place, first.place b₁ = some place ∧ second.place b₂ = some place) ∧
    (∀ slot place, b.current.follow b.enclosing slot = some place →
      b'.current.follow b'.enclosing slot = some place) := by
  have hlinked := hb.linked
  have hcases := resolve_cases hlinked h
  refine ⟨hcases.eq_register_iff hlinked, hcases.eq_global_iff, ?_, hcases.again h, ?_, ?_⟩
  · rintro slot rfl
    exact hcases.follow
  · intro other first b₁ second b₂ hfirst hsecond
    exact hcases.others hlinked hfirst hsecond
  · intro slot place hfollow
    exact follow_mono hcases.searched.1 hcases.searched.2 hfollow

/-- Two functions deep, below a local that hides another of its name. -/
def nested : ChunkBuilder :=
  [Operation.bindLocal "x", .openScope "block", .bindLocal "x", .openFunction "outer" 1,
    .bindLocal "y", .openFunction "inner" 2].foldl (fun b operation => operation.run b)
    (.start {} none)

theorem Reachable.foldl (hb : b.Reachable) (operations : List Operation) :
    (operations.foldl (fun b operation => operation.run b) b).Reachable := by
  induction operations generalizing b with
  | nil => exact hb
  | cons operation _ ih => exact ih (.step operation hb)

theorem resolve_lexical_nested : nested.Reachable ∧
    ∃ b', resolve "x" nested = .ok (.upvalue 0) b' ∧
      b'.current.follow b'.enclosing 0 = some (.register 0 1) ∧
      (∃ place, b'.current.follow b'.enclosing 0 = some place ∧
        IsNearest "x" (nested.enclosing.map FunctionBuilder.scopes) place) ∧
      resolve "x" b' = .ok (.upvalue 0) b' := by
  have hrun : resolve "x" nested = .ok (.upvalue 0) (stateAfter (resolve "x") nested) := rfl
  have hreachable : nested.Reachable := Reachable.foldl (.start {} none) _
  have hresult := resolve_lexical hreachable hrun
  exact ⟨hreachable, _, hrun, rfl, hresult.2.2.1 0 rfl, hresult.2.2.2.1⟩

end ChunkBuilder

end RegisterCode
