import Mathlib.Data.List.Perm.Subperm
import RegisterCode.Proofs.RegisterDiscipline
import RegisterCode.Proofs.RegisterUse
import RegisterCode.Proofs.TableReferences

/-! A function that lowering builds. It is put together from instructions that name only
registers below the high-water mark and entries of the tables, and from finished
functions of the same kind; both stay right while the function grows. -/
namespace RegisterCode

open Action Relation

namespace Prototype

structure CapturesWithin (registers upvalues : Nat) (p : Prototype) : Prop where
  names : (p.upvalues.map Capture.name).Nodup
  bounded : ∀ up ∈ p.upvalues,
    if up.inStack then up.index.toNat < registers else up.index.toNat < upvalues

theorem CapturesWithin.mono {registers registers' upvalues upvalues' : Nat} {p : Prototype}
    (h : p.CapturesWithin registers upvalues) (hregisters : registers ≤ registers')
    (hupvalues : upvalues ≤ upvalues') : p.CapturesWithin registers' upvalues' := by
  refine ⟨h.names, ?_⟩
  intro up hup
  have hbound := h.bounded up hup
  split at hbound
  · next hstack =>
    rw [if_pos hstack]
    omega
  · next hstack =>
    rw [if_neg hstack]
    omega

structure Lowered (p : Prototype) : Prop where
  code : ∃ code, p.code.mapM Instruction.decode = .ok code ∧
    ∀ i ∈ code, i.Fits p.stackSize.toNat ∧ ∀ entry ∈ i.entries, (p.tables true).Has entry
  children : ∀ child ∈ p.children, child.CapturesWithin p.stackSize.toNat p.upvalues.length

end Prototype

namespace Scopes

variable {scopes : Scopes}

/-- Every local has a register of its own, and no scope has two of one name. -/
def Plain (scopes : Scopes) : Prop :=
  scopes.Distinct ∧ ∀ scope ∈ scopes.stack, ∀ l ∈ scope.locals, l.isAlias = false

theorem plain_openScope (h : scopes.Plain) (name : String) : (scopes.openScope name).Plain := by
  refine ⟨h.1.openScope name, ?_⟩
  intro scope hscope l hl
  rcases List.mem_cons.mp hscope with rfl | hscope
  · simp at hl
  · exact h.2 scope hscope l hl

theorem Plain.outer (h : scopes.Plain) {scope : Scope} {outer : List Scope}
    (hstack : scopes.stack = scope :: outer) (log : List LocalRange) : Plain ⟨outer, log⟩ := by
  have hmem : ∀ other ∈ outer, other ∈ scopes.stack := by
    intro other hother
    rw [hstack]
    exact List.mem_cons_of_mem _ hother
  exact ⟨fun other hother => h.1 other (hmem other hother),
    fun other hother => h.2 other (hmem other hother)⟩

theorem Plain.add (h : scopes.Plain) {l : Local} {line : UInt32} (hown : l.isAlias = false)
    (hfresh : scopes.checkFresh l.name line = .ok ()) : (scopes.add l).Plain := by
  refine ⟨h.1.add hfresh, ?_⟩
  unfold Scopes.add
  split
  · exact h.2
  · next innermost outer hstack =>
    intro scope hscope other hother
    rcases List.mem_cons.mp hscope with rfl | hscope
    · rcases List.mem_append.mp hother with hother | hother
      · exact h.2 innermost (by simp [hstack]) other hother
      · rw [List.mem_singleton.mp hother]
        exact hown
    · exact h.2 scope (by simp [hstack, hscope]) other hother

theorem Plain.clamp (h : scopes.Plain) (limit : UInt32) : (scopes.clamp limit).Plain := by
  constructor
  · intro scope hscope
    obtain ⟨old, hold, rfl⟩ := List.mem_map.mp hscope
    rw [List.map_map]
    exact h.1 old hold
  · intro scope hscope l hl
    obtain ⟨old, hold, rfl⟩ := List.mem_map.mp hscope
    obtain ⟨other, hother, rfl⟩ := List.mem_map.mp hl
    exact h.2 old hold other hother

theorem Plain.isOwned (h : scopes.Plain) {name : String} {register : UInt8}
    (hfound : scopes.register? name = some register) : scopes.isOwned register = true := by
  obtain ⟨l, hl, rfl⟩ := Option.map_eq_some_iff.mp hfound
  obtain ⟨scope, hscope, hfind⟩ := List.exists_of_findSome?_eq_some hl
  have hmem := (Scope.mem_of_find? hfind).1
  refine List.any_eq_true.mpr ⟨l, List.mem_flatMap.mpr ⟨scope, hscope, hmem⟩, ?_⟩
  simp [h.2 scope hscope l hmem]

end Scopes

namespace FunctionBuilder

variable {vocabulary : List Constant} {f f' : FunctionBuilder}

structure Admits (f : FunctionBuilder) (i : Instruction) : Prop where
  encodes : ∃ word, i.encode = .ok word
  fits : i.Fits f.highWater
  entries : ∀ entry ∈ i.entries, f.tables.Has entry

theorem Admits.mono {i : Instruction} (h : f.Admits i) (hhigh : f.highWater ≤ f'.highWater)
    (hgrow : f.tables.Grow f'.tables) : f'.Admits i :=
  ⟨h.encodes, h.fits.mono hhigh, fun entry hentry => (h.entries entry hentry).mono hgrow⟩

theorem admits_of_accept {i : Instruction} {previous : Option Instruction} {word : UInt32}
    (hfits : i.Fits f.highWater) (haccept : i.accept f.tables previous = .ok word)
    (hread : i.op = .extraArg → previous.any (·.op == .loadKX) = true) : f.Admits i :=
  ⟨⟨word, Instruction.encode_of_accept haccept⟩, hfits, Instruction.has_of_accept haccept hread⟩

/-- How lowering uses a function: constants come from the program, an extra argument goes
behind a wide load, and captures are left to the search for names. -/
def lowering (vocabulary : List Constant) : Usage := fun f event =>
  match event with
  | .close => True
  | .intern c => c ∈ vocabulary
  | .adopt child => child.CapturesWithin f.highWater f.upvalues.length ∧
    ∀ p : Prototype, p.Within child → p.Lowered
  | .place i => i.Fits f.highWater ∧
    (i.op = .extraArg → f.listing.getLast?.any (·.op == .loadKX) = true)
  | .label .. | .capture _ | .replace .. => False

structure Sized (vocabulary : List Constant) (f : FunctionBuilder) : Prop where
  disciplined : f.Disciplined
  plain : f.scopes.Plain
  code : ∀ i ∈ f.listing, f.Admits i
  constants : f.constants.toList ⊆ vocabulary
  children : ∀ child ∈ f.children.toList, child.CapturesWithin f.highWater f.upvalues.length ∧
    ∀ p : Prototype, p.Within child → p.Lowered

theorem Change.plain {usage : Usage} (hchange : Change usage f f')
    (hlabel : ∀ name register, ¬ usage f (.label name register)) (h : f.scopes.Plain) :
    f'.scopes.Plain := by
  cases hchange with
  | openScope name => exact Scopes.plain_openScope h name
  | closeScope _ hstack => exact h.outer hstack _
  | bind name register startPc hfresh => exact h.add rfl hfresh
  | label name register husage => exact absurd husage (hlabel name register)
  | cut size => exact h.clamp _
  | _ => exact h

theorem Change.upvalues (hchange : Change (lowering vocabulary) f f') :
    f'.upvalues = f.upvalues := by
  cases hchange with
  | capture up husage => exact husage.elim
  | _ => rfl

theorem Sized.admits_change (h : f.Sized vocabulary)
    (hchange : Change (lowering vocabulary) f f') : ∀ i ∈ f'.listing, f'.Admits i := by
  have hkept : ∀ i ∈ f.listing, f'.Admits i :=
    fun i hi => (h.code i hi).mono hchange.highWater_le hchange.tables_grow
  intro i hi
  cases hchange with
  | place new word husage haccept =>
    rw [listing_placed] at hi
    rcases List.mem_append.mp hi with hi | hi
    · exact hkept i hi
    · rw [List.mem_singleton.mp hi]
      exact admits_of_accept husage.1 haccept husage.2
  | aim jump index target word hat hjump haccept =>
    rw [listing_replaced] at hi
    rcases List.mem_or_eq_of_mem_set hi with hi | rfl
    · exact hkept i hi
    · have hold := h.code jump (List.mem_of_getElem? hat)
      refine admits_of_accept (Instruction.fits_aimed hold.fits hjump) haccept ?_
      intro hop
      rw [show jump.op = .extraArg from hop] at hjump
      exact absurd hjump (by decide)
  | replace index new old word husage => exact husage.elim
  | cut size =>
    have hmem : i ∈ f.listing.take size := by simpa [listing] using hi
    exact hkept i (List.mem_of_mem_take hmem)
  | _ => exact hkept i hi

theorem Sized.change (h : f.Sized vocabulary) (hchange : Change (lowering vocabulary) f f') :
    f'.Sized vocabulary where
  disciplined := h.disciplined.change hchange
  plain := hchange.plain (fun _ _ => id) h.plain
  code := h.admits_change hchange
  constants := by
    cases hchange with
    | intern c husage =>
      have hc : c ∈ vocabulary := husage
      dsimp only
      rw [Pool.toList_intern]
      split
      · exact h.constants
      · exact List.append_subset.mpr ⟨h.constants, by simpa using hc⟩
    | _ => exact h.constants
  children := by
    have hupvalues := hchange.upvalues
    have hkept : ∀ child ∈ f.children.toList,
        child.CapturesWithin f'.highWater f'.upvalues.length ∧
          ∀ p : Prototype, p.Within child → p.Lowered := by
      intro child hchild
      obtain ⟨hcaptures, hlowered⟩ := h.children child hchild
      exact ⟨hcaptures.mono hchange.highWater_le (by simp [hupvalues]), hlowered⟩
    cases hchange with
    | adopt child husage =>
      intro other hother
      rw [Array.toList_push] at hother
      rcases List.mem_append.mp hother with hother | hother
      · exact hkept other hother
      · rw [List.mem_singleton.mp hother]
        exact husage
    | _ => exact hkept

theorem Sized.changes (h : f.Sized vocabulary)
    (hrun : ReflTransGen (Change (lowering vocabulary)) f f') :
    f'.Sized vocabulary ∧ f.highWater ≤ f'.highWater ∧ f'.upvalues = f.upvalues := by
  induction hrun with
  | refl => exact ⟨h, Nat.le_refl _, rfl⟩
  | tail _ hchange ih =>
    obtain ⟨hsized, hhigh, hupvalues⟩ := ih
    exact ⟨hsized.change hchange, Nat.le_trans hhigh hchange.highWater_le,
      hchange.upvalues.trans hupvalues⟩

theorem Sized.captures (h : f.Sized vocabulary) (hcaptures : f.Captures f') :
    f'.Sized vocabulary := by
  obtain ⟨captured, rfl⟩ := hcaptures
  have hgrow : f.tables.Grow (tables { f with upvalues := f.upvalues ++ captured }) :=
    { Tables.Grow.refl f.tables with upvalues := by simp [tables] }
  exact {
    disciplined := ⟨h.disciplined.ascending, h.disciplined.below, h.disciplined.nextFree_le,
      h.disciplined.highWater_le⟩
    plain := h.plain
    code := fun i hi => (h.code i hi).mono (Nat.le_refl _) hgrow
    constants := h.constants
    children := fun child hchild =>
      ⟨(h.children child hchild).1.mono (Nat.le_refl _) hgrow.upvalues,
        (h.children child hchild).2⟩ }

theorem IsInitial.plain (h : f.IsInitial) : f.scopes.Plain := by
  have hempty : Scopes.Plain {} := by simp [Scopes.Plain, Scopes.Distinct]
  cases h with
  | start name => exact Scopes.plain_openScope hempty name
  | root name => exact Scopes.plain_openScope hempty name

theorem IsInitial.sized (h : f.IsInitial) : f.Sized vocabulary where
  disciplined := h.disciplined
  plain := h.plain
  code := by simp [h.listing]
  constants := by
    cases h <;> exact List.nil_subset _
  children := by
    intro child hchild
    cases h <;> cases hchild

theorem Sized.size_le (h : f.Sized vocabulary) : f.constants.size ≤ vocabulary.length := by
  rw [Pool.size_eq_length]
  exact (List.subperm_of_subset f.constants.nodup_toList h.constants).length_le

theorem Sized.owned_lt (h : f.Sized vocabulary) {register : UInt8}
    (howned : f.scopes.isOwned register = true) : register.toNat < f.highWater :=
  Nat.lt_of_lt_of_le (h.disciplined.below _ (Scopes.isOwned_iff_mem.mp howned))
    h.disciplined.nextFree_le

theorem Sized.capturesWithin {outer : FunctionBuilder} (h : outer.Sized vocabulary)
    (hcaptures : f.CapturesFrom outer) {lastLine : UInt32} {p : Prototype}
    (hfinish : f.finish lastLine = .ok p) :
    p.CapturesWithin outer.highWater outer.upvalues.length := by
  obtain ⟨words, -, -, rfl⟩ := prototype_of_finish hfinish
  refine ⟨hcaptures.names, ?_⟩
  intro up hup
  have hright := hcaptures.right up hup
  split at hright
  · next hstack =>
    rw [if_pos hstack]
    exact h.owned_lt (h.plain.isOwned hright)
  · next hstack =>
    obtain ⟨-, next, hnext, -⟩ := hright
    rw [if_neg hstack]
    exact (List.getElem?_eq_some_iff.mp hnext).1

theorem Sized.lowered (h : f.Sized vocabulary) {lastLine : UInt32} {main : Prototype}
    (hfinish : f.finish lastLine = .ok main) {p : Prototype} (hwithin : p.Within main) :
    p.Lowered := by
  obtain ⟨words, hwords, hhigh, rfl⟩ := prototype_of_finish hfinish
  have hstack : (f.prototype words lastLine).stackSize.toNat = f.highWater :=
    UInt8.toNat_ofNat_of_lt' hhigh
  cases hwithin with
  | nested hchild hwithin => exact (h.children _ hchild).2 p hwithin
  | self =>
    obtain ⟨words', hwords', hdecode, -⟩ :=
      Instruction.mapM_encode f.listing fun i hi => (h.code i hi).encodes
    rw [hwords] at hwords'
    injection hwords' with hsame
    rw [← hsame] at hdecode
    refine ⟨⟨_, hdecode, ?_⟩, ?_⟩
    · intro i hi
      obtain ⟨old, hold, rfl⟩ := List.mem_map.mp hi
      have hadmits := h.code old hold
      rw [hstack, Instruction.fits_kept, Instruction.entries_kept]
      refine ⟨hadmits.fits, ?_⟩
      intro entry hentry
      have hhas := hadmits.entries entry hentry
      rw [← tables_prototype words lastLine f] at hhas
      cases entry with
      | constant slot => exact hhas
      | upvalue slot => exact ⟨hhas.1, hhas.2.1, nofun⟩
      | child index => exact hhas
    · intro child hchild
      rw [hstack]
      exact (h.children child hchild).1

end FunctionBuilder

end RegisterCode
