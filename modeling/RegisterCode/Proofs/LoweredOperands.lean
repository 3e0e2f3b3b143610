import Mathlib.Algebra.Group.Nat.Defs
import RegisterCode.Proofs.LoweredFunctions
import RegisterCode.Proofs.OperandMeaning

/-! The steps of lowering and the registers they use. Whatever a step takes on its way
counts towards the high-water mark, and an operand that it hands on names something
that exists. Nothing is said here about when a step succeeds. -/
namespace RegisterCode

open Action

namespace Action

variable {σ α β : Type} {state : σ}

/-- If the operation succeeds, it does so with `post`. -/
structure Promises (action : Action σ α) (state : σ) (post : α → σ → Prop) : Prop where
  of_ok {value : α} {after : σ} : action state = .ok value after → post value after

theorem Promises.mono {action : Action σ α} {post weaker : α → σ → Prop}
    (h : action.Promises state post) (himp : ∀ value after, post value after → weaker value after) :
    action.Promises state weaker :=
  ⟨fun hrun => himp _ _ (h.of_ok hrun)⟩

theorem Promises.bind {action : Action σ α} {next : α → Action σ β} {middle : α → σ → Prop}
    {post : β → σ → Prop} (h : action.Promises state middle)
    (hnext : ∀ value after, middle value after → (next value).Promises after post) :
    (action >>= next).Promises state post := by
  constructor
  intro value after hrun
  obtain ⟨first, between, hfirst, hrest⟩ := bind_eq_ok.mp hrun
  exact (hnext first between (h.of_ok hfirst)).of_ok hrest

theorem promises_pure {value : α} {post : α → σ → Prop} (h : post value state) :
    (pure value : Action σ α).Promises state post := by
  constructor
  rintro _ _ ⟨⟩
  exact h

theorem promises_get_bind {next : σ → Action σ α} {post : α → σ → Prop}
    (h : (next state).Promises state post) : (get >>= next).Promises state post :=
  ⟨h.of_ok⟩

theorem promises_modify_bind {change : σ → σ} {next : Unit → Action σ α} {post : α → σ → Prop}
    (h : (next ()).Promises (change state) post) :
    (modify change >>= next).Promises state post :=
  ⟨h.of_ok⟩

theorem promises_throw {error : Error} {post : α → σ → Prop} :
    (throw error : Action σ α).Promises state post :=
  ⟨nofun⟩

end Action

namespace FunctionBuilder

variable {vocabulary : List Constant} {n : Nat} {f f' : FunctionBuilder} {operand : Operand}

def Knows (vocabulary : List Constant) (f : FunctionBuilder) : Operand → Prop
  | .register register => register.toNat < f.highWater
  | .constant slot => slot.toNat < vocabulary.length
  | .global name => .string name ∈ vocabulary
  | .upvalue _ | .boolean _ | .nil => True

/-- The operand is in place, and `n` registers stay taken when it is given back. -/
structure Holding (vocabulary : List Constant) (n : Nat) (f : FunctionBuilder)
    (operand : Operand) : Prop where
  knows : f.Knows vocabulary operand
  taken : n ≤ f.nextFree
  apart : ∀ register, operand = .register register → f.scopes.isOwned register = false →
    n < f.nextFree

theorem Knows.mono (h : f.Knows vocabulary operand) (hhigh : f.highWater ≤ f'.highWater) :
    f'.Knows vocabulary operand := by
  cases operand with
  | register register => exact Nat.lt_of_lt_of_le h hhigh
  | _ => exact h

theorem onCode_quiet {α : Type} {action : Action Code α} {value : α}
    (hrun : onCode action f = .ok value f') :
    f'.scopes = f.scopes ∧ f'.nextFree = f.nextFree := by
  rw [onCode_apply] at hrun
  split at hrun
  · injection hrun with _ hstate
    rw [← hstate]
    exact ⟨rfl, rfl⟩
  · simp at hrun

theorem addChild_quiet {child : Prototype} {index : Nat} (hrun : addChild child f = .ok index f') :
    f'.scopes = f.scopes ∧ f'.nextFree = f.nextFree := by
  unfold addChild at hrun
  dsimp only at hrun
  split at hrun
  · injection hrun with _ hstate
    rw [← hstate]
    exact ⟨rfl, rfl⟩
  · simp at hrun

theorem captures_quiet (h : f.Captures f') :
    f'.highWater = f.highWater ∧ f'.nextFree = f.nextFree := by
  obtain ⟨captured, rfl⟩ := h
  exact ⟨rfl, rfl⟩

theorem jumps_lowering (f : FunctionBuilder) : f.Jumps (lowering vocabulary) := by
  intro displacement
  refine ⟨?_, nofun⟩
  grind [stamped]

theorem free_eq_ok {register : UInt8} (hrun : free register f = .ok () f') :
    f'.scopes = f.scopes ∧ f.nextFree ≤ f'.nextFree + 1 ∧
      (f.scopes.isOwned register = true → f'.nextFree = f.nextFree) := by
  unfold free at hrun
  split at hrun
  · injection hrun with _ hstate
    rw [← hstate]
    exact ⟨rfl, Nat.le_succ _, fun _ => rfl⟩
  · next howned =>
    split at hrun
    · simp at hrun
    split at hrun
    · simp at hrun
    · next hbelow =>
      injection hrun with _ hstate
      rw [← hstate]
      exact ⟨rfl, Nat.not_lt.mp hbelow, fun h => absurd h howned⟩

end FunctionBuilder

namespace ChunkBuilder
open FunctionBuilder

variable {vocabulary : List Constant} {operand : Operand} {b b' b'' : ChunkBuilder}

/-- What holds between the steps of lowering. No slot is taken for a register, since a
program that is small enough has few constants. -/
structure Orderly (vocabulary : List Constant) (b : ChunkBuilder) : Prop where
  sized : b.current.Sized vocabulary
  linked : Linked b.current b.enclosing
  small : vocabulary.length < 2 ^ 24

structure Continues (vocabulary : List Constant) (b b' : ChunkBuilder) : Prop extends
    Orderly vocabulary b' where
  highWater : b.current.highWater ≤ b'.current.highWater
  around : b.Around b'

structure Passes (vocabulary : List Constant) (b b' : ChunkBuilder) : Prop extends
    Continues vocabulary b b' where
  scopes : b'.current.scopes = b.current.scopes

structure Keeps (vocabulary : List Constant) (b b' : ChunkBuilder) : Prop extends
    Passes vocabulary b b' where
  nextFree : b.current.nextFree ≤ b'.current.nextFree

structure Bears (vocabulary : List Constant) (operand : Operand) (b b' : ChunkBuilder) : Prop
    extends Passes vocabulary b b' where
  holding : b'.current.Holding vocabulary b.current.nextFree operand

def Settles (vocabulary : List Constant) (dest : Option UInt8) (operand : Operand)
    (b b' : ChunkBuilder) : Prop :=
  match dest with
  | some target => operand = .register target ∧ b.Keeps vocabulary b'
  | none => b.Bears vocabulary operand b'

theorem Continues.trans (h : b.Continues vocabulary b') (h' : b'.Continues vocabulary b'') :
    b.Continues vocabulary b'' :=
  ⟨h'.toOrderly, Nat.le_trans h.highWater h'.highWater, h.around.trans h'.around⟩

theorem Passes.trans (h : b.Passes vocabulary b') (h' : b'.Passes vocabulary b'') :
    b.Passes vocabulary b'' :=
  ⟨h.toContinues.trans h'.toContinues, h'.scopes.trans h.scopes⟩

theorem Keeps.trans (h : b.Keeps vocabulary b') (h' : b'.Keeps vocabulary b'') :
    b.Keeps vocabulary b'' :=
  ⟨h.toPasses.trans h'.toPasses, Nat.le_trans h.nextFree h'.nextFree⟩

theorem Orderly.keeps (h : b.Orderly vocabulary) : b.Keeps vocabulary b :=
  ⟨⟨⟨h, Nat.le_refl _, .of_eq rfl rfl⟩, rfl⟩, Nat.le_refl _⟩

theorem Keeps.bears (h : b.Keeps vocabulary b') (h' : b'.Bears vocabulary operand b'') :
    b.Bears vocabulary operand b'' where
  toPasses := h.toPasses.trans h'.toPasses
  holding := {
    knows := h'.holding.knows
    taken := Nat.le_trans h.nextFree h'.holding.taken
    apart := fun register hoperand howned =>
      Nat.lt_of_le_of_lt h.nextFree (h'.holding.apart register hoperand howned) }

theorem Bears.keeps (h : b.Bears vocabulary operand b') (h' : b'.Keeps vocabulary b'') :
    b.Bears vocabulary operand b'' where
  toPasses := h.toPasses.trans h'.toPasses
  holding := {
    knows := h.holding.knows.mono h'.highWater
    taken := Nat.le_trans h.holding.taken h'.nextFree
    apart := fun register hoperand howned =>
      Nat.lt_of_lt_of_le (h.holding.apart register hoperand (h'.scopes ▸ howned)) h'.nextFree }

theorem Keeps.bears_of (h : b.Keeps vocabulary b') (hknows : b'.current.Knows vocabulary operand)
    (hregister : ∀ register, operand = .register register →
      b'.current.scopes.isOwned register = true) : b.Bears vocabulary operand b' where
  toPasses := h.toPasses
  holding := {
    knows := hknows
    taken := h.nextFree
    apart := fun register hoperand howned => by simp [hregister register hoperand] at howned }

theorem Settles.keeps {dest : Option UInt8} (h : b.Settles vocabulary dest operand b')
    (h' : b'.Keeps vocabulary b'') : b.Settles vocabulary dest operand b'' := by
  cases dest with
  | some target => exact ⟨h.1, h.2.trans h'⟩
  | none => exact Bears.keeps h h'

theorem Settles.orderly {dest : Option UInt8} (h : b.Settles vocabulary dest operand b') :
    b'.Orderly vocabulary := by
  cases dest with
  | some target => exact h.2.toOrderly
  | none => exact (Bears.toPasses h).toOrderly

theorem Settles.knows {dest : Option UInt8} (h : b.Settles vocabulary dest operand b')
    (hdest : ∀ target ∈ dest, target.toNat < b.current.highWater) :
    b'.current.Knows vocabulary operand := by
  cases dest with
  | some target =>
    rw [h.1]
    exact Nat.lt_of_lt_of_le (hdest target rfl) h.2.highWater
  | none => exact (Bears.holding h).knows

theorem onCurrent_continues (h : b.Orderly vocabulary) {α : Type} {action : Build α}
    (hleads : action.Leads (Change (lowering vocabulary)) b.current) :
    (onCurrent action).Promises b fun value b' =>
      b.Continues vocabulary b' ∧ action b.current = .ok value b'.current := by
  constructor
  intro value b' hrun
  obtain ⟨current, haction, rfl⟩ := Lower.onCurrent_eq_ok.mp hrun
  unfold Leads at hleads
  rw [after_of_ok haction] at hleads
  obtain ⟨hsized, hhigh, hupvalues⟩ := h.sized.changes hleads
  have hlinked := linked_congr h.linked hsized.plain.1 hupvalues
  exact ⟨⟨⟨hsized, hlinked, h.small⟩, hhigh, .of_eq rfl rfl⟩, haction⟩

theorem onCurrent_keeps (h : b.Orderly vocabulary) {α : Type} {action : Build α}
    (hleads : action.Leads (Change (lowering vocabulary)) b.current)
    (hquiet : ∀ value f, action b.current = .ok value f →
      f.scopes = b.current.scopes ∧ f.nextFree = b.current.nextFree) :
    (onCurrent action).Promises b fun _ b' => b.Keeps vocabulary b' := by
  apply (onCurrent_continues h hleads).mono
  rintro value b' ⟨hcontinues, hrun⟩
  obtain ⟨hscopes, hnext⟩ := hquiet value _ hrun
  exact ⟨⟨hcontinues, hscopes⟩, Nat.le_of_eq hnext.symm⟩

end ChunkBuilder

namespace Lower
open ChunkBuilder FunctionBuilder

variable {vocabulary : List Constant} {operand : Operand} {b b' : ChunkBuilder}

theorem allocate_passes (h : b.Orderly vocabulary) :
    allocate.Promises b fun register b' => b.Passes vocabulary b' ∧
      register.toNat = b.current.nextFree ∧ b'.current.nextFree = b.current.nextFree + 1 := by
  apply (onCurrent_continues h (allocate_leads b.current)).mono
  rintro register b' ⟨hcontinues, hrun⟩
  obtain ⟨-, hregister, hstate⟩ := (FunctionBuilder.allocate_ensures b.current).of_ok hrun
  refine ⟨⟨hcontinues, by rw [hstate]⟩, hregister, by rw [hstate]⟩

theorem taken_lt (h : b.Orderly vocabulary) {register : UInt8}
    (htaken : register.toNat < b.current.nextFree) : register.toNat < b.current.highWater :=
  Nat.lt_of_lt_of_le htaken h.sized.disciplined.nextFree_le

theorem bears_taken {register : UInt8} (h : b.Passes vocabulary b')
    (hregister : register.toNat = b.current.nextFree)
    (hnext : b'.current.nextFree = b.current.nextFree + 1) :
    b.Bears vocabulary (.register register) b' := by
  have htaken : b.current.nextFree < b'.current.nextFree := by omega
  exact ⟨h, taken_lt h.toOrderly (by omega), Nat.le_of_lt htaken, fun _ _ _ => htaken⟩

theorem allocate_bears (h : b.Orderly vocabulary) :
    allocate.Promises b fun register b' => b.Bears vocabulary (.register register) b' :=
  (allocate_passes h).mono fun _ _ hpost => bears_taken hpost.1 hpost.2.1 hpost.2.2

theorem place_settles (h : b.Orderly vocabulary) (dest : Option UInt8) :
    (place dest).Promises b fun target b' => b.Settles vocabulary dest (.register target) b' := by
  cases dest with
  | some asked => exact promises_pure ⟨rfl, h.keeps⟩
  | none => exact allocate_bears h

theorem free_passes (h : b.Orderly vocabulary) (register : UInt8) :
    (free (.register register)).Promises b fun _ b' => b.Passes vocabulary b' ∧
      b.current.nextFree ≤ b'.current.nextFree + 1 ∧
      (b.current.scopes.isOwned register = true → b'.current.nextFree = b.current.nextFree) := by
  apply (onCurrent_continues h (free_leads register b.current)).mono
  rintro _ b' ⟨hcontinues, hrun⟩
  obtain ⟨hscopes, hfreed⟩ := free_eq_ok hrun
  exact ⟨⟨hcontinues, hscopes⟩, hfreed⟩

theorem free_keeps (h : b.Bears vocabulary operand b') :
    (free operand).Promises b' fun _ b'' => b.Keeps vocabulary b'' ∧
      b'.current.highWater ≤ b''.current.highWater := by
  cases operand with
  | register register =>
    apply (free_passes h.toOrderly register).mono
    rintro _ b'' ⟨hpasses, hless, howned⟩
    refine ⟨⟨h.toPasses.trans hpasses, ?_⟩, hpasses.highWater⟩
    have htaken := h.holding.taken
    cases hown : b'.current.scopes.isOwned register with
    | true =>
      rw [howned hown]
      exact htaken
    | false =>
      have hapart := h.holding.apart register rfl hown
      omega
  | _ => exact promises_pure ⟨⟨h.toPasses, h.holding.taken⟩, Nat.le_refl _⟩

theorem emit_keeps (h : b.Orderly vocabulary) {op : Opcode} {x y z : Int}
    (hop : op ≠ .extraArg)
    (hfits : Instruction.Fits b.current.highWater { op, a := x, b := y, c := z }) :
    (emit op x y z).Promises b fun _ b' => b.Keeps vocabulary b' := by
  have hleads : (FunctionBuilder.emit { op, a := x, b := y, c := z }).Leads
      (Change (lowering vocabulary)) b.current :=
    emit_leads ⟨hfits, fun hextra => absurd hextra hop⟩
  apply (onCurrent_keeps h hleads fun _ _ hrun => onCode_quiet hrun).bind
  intro _ b' hkeeps
  exact promises_pure hkeeps

theorem jump_keeps (h : b.Orderly vocabulary) :
    jump.Promises b fun _ b' => b.Keeps vocabulary b' :=
  onCurrent_keeps h (jump_leads (jumps_lowering b.current)) fun _ _ hrun => onCode_quiet hrun

theorem aimHere_keeps (h : b.Orderly vocabulary) (index : Nat) :
    (aimHere index).Promises b fun _ b' => b.Keeps vocabulary b' :=
  onCurrent_keeps h (aimHere_leads index b.current) fun _ _ hrun => onCode_quiet hrun

theorem loadConstant_keeps (h : b.Orderly vocabulary) {target : UInt8} (slot : Nat)
    (htarget : target.toNat < b.current.highWater) :
    (loadConstant target slot).Promises b fun _ b' => b.Keeps vocabulary b' := by
  have hloads : b.current.LoadsConstant (lowering vocabulary) target slot := by
    refine ⟨⟨?_, nofun⟩, ⟨?_, nofun⟩, ⟨?_, ?_⟩⟩
    · grind [stamped]
    · grind [stamped]
    · grind [stamped]
    · intro _
      simp [stamped]
  apply (onCurrent_keeps h (loadConstant_leads hloads) ?_).bind
  · intro _ b' hkeeps
    exact promises_pure hkeeps
  · intro _ f hrun
    obtain ⟨-, rfl⟩ := (loadConstant_ensures target slot b.current).of_ok hrun
    exact ⟨rfl, rfl⟩

/-- The pool never outgrows the slots, so a slot keeps its number. -/
theorem intern_keeps (h : b.Orderly vocabulary) {c : Constant} (hc : c ∈ vocabulary) :
    (onCurrent (FunctionBuilder.intern c)).Promises b fun slot b' =>
      b.Keeps vocabulary b' ∧ b'.current.Knows vocabulary (.constant slot) := by
  apply (onCurrent_continues h (intern_leads hc)).mono
  rintro slot b' ⟨hcontinues, hrun⟩
  rw [intern_apply] at hrun
  injection hrun with hslot hstate
  refine ⟨⟨⟨hcontinues, by rw [← hstate]⟩, by simp [← hstate]⟩, ?_⟩
  have hsize := hcontinues.sized.size_le
  have hsmall := h.small
  have hlt : slot.toNat < b'.current.constants.size := by
    rw [← hstate] at hsize ⊢
    rw [← hslot]
    exact Pool.slot_lt_size_intern (Nat.le_trans hsize (by omega))
  exact Nat.lt_of_lt_of_le hlt hsize

theorem constant_bears (h : b.Orderly vocabulary) {c : Constant} (hc : c ∈ vocabulary) :
    (constant c).Promises b fun operand b' => b.Bears vocabulary operand b' := by
  apply (intern_keeps h hc).bind
  rintro slot b' ⟨hkeeps, hknows⟩
  exact promises_pure (hkeeps.bears_of hknows nofun)

theorem resolve_keeps (h : b.Orderly vocabulary) (name : String) :
    (resolve name).Promises b fun found b' => b.Keeps vocabulary b' ∧
      match found with
      | .register register => b'.current.scopes.isOwned register = true
      | .upvalue _ => True
      | .global global => global = name := by
  constructor
  intro found b' hrun
  have hresolves := resolve_cases h.linked hrun
  obtain ⟨hcurrent, henclosing⟩ := hresolves.searched
  have hcaptured := captures_quiet hcurrent
  refine ⟨?_, ?_⟩
  · exact {
      sized := h.sized.captures hcurrent
      linked := hresolves.linked h.linked
      small := h.small
      highWater := Nat.le_of_eq hcaptured.1.symm
      around := ⟨by cases hresolves <;> rfl, henclosing⟩
      scopes := hcurrent.scopes
      nextFree := Nat.le_of_eq hcaptured.2.symm }
  · cases hresolves with
    | here hregister => exact h.sized.plain.isOwned hregister
    | captured => trivial
    | unknown => rfl

theorem resolve_bears (h : b.Orderly vocabulary) {name : String}
    (hname : .string name ∈ vocabulary) :
    (resolve name).Promises b fun found b' => b.Bears vocabulary found.operand b' := by
  apply (resolve_keeps h name).mono
  rintro found b' ⟨hkeeps, hfound⟩
  cases found with
  | register register =>
    refine hkeeps.bears_of (hkeeps.sized.owned_lt hfound : register.toNat < _) ?_
    rintro _ ⟨⟩
    exact hfound
  | upvalue index => exact hkeeps.bears_of trivial nofun
  | global global =>
    refine hkeeps.bears_of ?_ nofun
    rw [show global = name from hfound]
    exact hname

theorem short_lt (h : b.Orderly vocabulary) (hknows : b.current.Knows vocabulary operand)
    {field : Int} (hshort : operand.short? = some field) : field < b.current.highWater := by
  cases operand with
  | register register =>
    injection hshort with hfield
    rw [← hfield]
    exact Int.ofNat_lt.mpr hknows
  | constant slot =>
    have hlt : slot.toNat < vocabulary.length := hknows
    have hsmall : vocabulary.length < capacity := Nat.lt_trans h.small (by decide)
    have hneg := Instruction.constantOperand_neg slot.toNat
    have hfield := Operand.eq_of_short? (Nat.lt_trans hlt hsmall) hshort
    omega
  | _ => cases hshort

theorem field_lt {short : Short} (h : b.Bears vocabulary short.holder b') :
    short.field < b'.current.highWater :=
  short_lt h.toOrderly h.holding.knows short.isShort

theorem toKey_bears (h : b.Orderly vocabulary) {name : String}
    (hname : .string name ∈ vocabulary) :
    (toKey name).Promises b fun short b' => b.Bears vocabulary short.holder b' := by
  rw [toKey_eq]
  apply (intern_keeps h hname).bind
  rintro slot b₁ ⟨hinterned, hknows⟩
  cases hshort : (Operand.constant slot).short? with
  | some field =>
    rw [toShort_of_some hshort]
    exact promises_pure (hinterned.bears_of hknows nofun)
  | none =>
    rw [toShort_constant hshort]
    apply (allocate_bears hinterned.toOrderly).bind
    intro target b₂ htaken
    apply (loadConstant_keeps htaken.toOrderly slot.toNat htaken.holding.knows).bind
    intro _ b₃ hloaded
    exact promises_pure (hinterned.bears (htaken.keeps hloaded))

theorem emit_free_keeps (h : b.Bears vocabulary operand b') {op : Opcode} {x y z : Int}
    (hop : op ≠ .extraArg)
    (hfits : Instruction.Fits b'.current.highWater { op, a := x, b := y, c := z }) :
    Promises (do emit op x y z; free operand) b' fun _ b'' => b.Keeps vocabulary b'' := by
  apply (emit_keeps h.toOrderly hop hfits).bind
  intro _ b'' hemitted
  exact (free_keeps (h.keeps hemitted)).mono fun _ _ hfreed => hfreed.1

theorem releasing_emit_keeps (h : b.Bears vocabulary operand b') {op : Opcode} {x y z : Int}
    (hop : op ≠ .extraArg)
    (hfits : Instruction.Fits b'.current.highWater { op, a := x, b := y, c := z }) :
    (releasing operand (emit op x y z)).Promises b' fun _ b'' => b.Keeps vocabulary b'' :=
  ⟨fun hrun => (emit_free_keeps h hop hfits).of_ok (releasing_eq_ok_iff.mp hrun)⟩

/-- A global is an entry of the environment, which is looked for once its key is at hand. -/
theorem environment_promises (h : b.Orderly vocabulary) {name : String}
    (hname : .string name ∈ vocabulary) {access : Short → Variable → Lower Unit}
    {post : Unit → ChunkBuilder → Prop}
    (haccess : ∀ (short : Short) (found : Variable) (b' : ChunkBuilder),
      b.Bears vocabulary short.holder b' →
      (∀ index, found = .register index → index.toNat < b'.current.highWater) →
      (access short found).Promises b' post) :
    Promises (do access (← toKey name) (← resolve environmentName)) b post := by
  apply (toKey_bears h hname).bind
  intro short b₁ hkey
  apply (resolve_keeps hkey.toOrderly environmentName).bind
  rintro found b₂ ⟨hfound, howned⟩
  refine haccess short found b₂ (hkey.keeps hfound) ?_
  rintro index rfl
  exact hfound.sized.owned_lt howned

theorem loadGlobal_keeps (h : b.Orderly vocabulary) {name : String} {target : UInt8}
    (hname : .string name ∈ vocabulary) (htarget : target.toNat < b.current.highWater) :
    (loadGlobal name target).Promises b fun _ b' => b.Keeps vocabulary b' := by
  rw [loadGlobal_eq]
  refine environment_promises h hname ?_
  intro short found b' hheld hindex
  have hhigh := hheld.highWater
  have hfield := field_lt hheld
  cases found with
  | upvalue index => exact releasing_emit_keeps hheld (by decide) (by grind)
  | register index =>
    have hlt := hindex index rfl
    exact releasing_emit_keeps hheld (by decide) (by grind)
  | global global => exact ⟨fun hrun => by cases (releasing_eq_ok.mp hrun).choose_spec.1⟩

theorem storeGlobal_keeps (h : b.Orderly vocabulary) {name : String} {value : Short}
    (hname : .string name ∈ vocabulary) (hstored : value.field < b.current.highWater) :
    (storeGlobal name value.holder).Promises b fun _ b' => b.Keeps vocabulary b' := by
  rw [storeGlobal_eq]
  refine environment_promises h hname ?_
  intro short found b' hheld hindex
  have hhigh := hheld.highWater
  have hfield := field_lt hheld
  cases found with
  | upvalue index => exact emit_free_keeps hheld (by decide) (by grind)
  | register index =>
    have hlt := hindex index rfl
    exact emit_free_keeps hheld (by decide) (by grind)
  | global global => exact promises_throw

theorem load_keeps (h : b.Orderly vocabulary) {target : UInt8}
    (hknows : b.current.Knows vocabulary operand)
    (htarget : target.toNat < b.current.highWater) :
    (load operand target).Promises b fun _ b' => b.Keeps vocabulary b' := by
  cases operand with
  | register index =>
    have hindex : index.toNat < b.current.highWater := hknows
    by_cases hsame : index = target
    · simp only [load, hsame, ↓reduceIte]
      exact promises_pure h.keeps
    · simp only [load, hsame, ↓reduceIte]
      refine emit_keeps h (by decide) ?_
      grind
  | constant slot => exact loadConstant_keeps h slot.toNat htarget
  | global name => exact loadGlobal_keeps h hknows htarget
  -- booleans, nil and upvalues take one instruction that writes its target alone
  | _ =>
    refine emit_keeps h (by decide) ?_
    grind

theorem toRegister_bears (h : b.Bears vocabulary operand b') :
    (toRegister operand).Promises b' fun register b'' =>
      b.Bears vocabulary (.register register) b'' := by
  rcases toRegister_cases operand with ⟨index, rfl, heq⟩ | heq
  · exact promises_pure h
  · rw [heq]
    apply (allocate_bears h.toOrderly).bind
    intro target b₁ htaken
    have hknows : b₁.current.Knows vocabulary operand := h.holding.knows.mono htaken.highWater
    apply (load_keeps htaken.toOrderly hknows htaken.holding.knows).bind
    intro _ b₂ hloaded
    have hkeeps : b.Keeps vocabulary b' := ⟨h.toPasses, h.holding.taken⟩
    exact promises_pure (hkeeps.bears (htaken.keeps hloaded))

theorem toShort_bears (h : b.Bears vocabulary operand b') :
    (toShort operand).Promises b' fun short b'' => b.Bears vocabulary short.holder b'' := by
  rcases toShort_cases operand with ⟨found, rfl, heq⟩ | heq
  · rw [heq]
    exact promises_pure h
  · rw [heq]
    apply (toRegister_bears h).bind
    intro target b'' htarget
    exact promises_pure htarget

theorem settle_settles (h : b.Bears vocabulary operand b') {dest : Option UInt8}
    (hdest : ∀ target ∈ dest, target.toNat < b.current.highWater) :
    (settle operand dest).Promises b' fun result b'' =>
      b.Settles vocabulary dest result b'' := by
  cases dest with
  | none => exact promises_pure h
  | some target =>
    have htarget := Nat.lt_of_lt_of_le (hdest target rfl) h.highWater
    apply (load_keeps h.toOrderly h.holding.knows htarget).bind
    intro _ b₁ hloaded
    apply (free_keeps (h.keeps hloaded)).bind
    intro _ b₂ hfreed
    exact promises_pure ⟨rfl, hfreed.1⟩

end Lower

end RegisterCode
