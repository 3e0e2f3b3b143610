import RegisterCode.Proofs.FinishedFunctions

/-! Lines are only carried along. If all lines of a function are renamed, every
operation on it succeeds as before, with the same value and the same function up to
the renaming; an error may name another line. -/
namespace RegisterCode

theorem toOption_eq_some {ε α : Type} {outcome : Except ε α} {value : α} :
    outcome.toOption = some value ↔ outcome = .ok value := by
  cases outcome <;> simp [Except.toOption]

theorem toOption_eq_none {ε α : Type} {outcome : Except ε α} :
    outcome.toOption = none ↔ ∃ error, outcome = .error error := by
  cases outcome <;> simp [Except.toOption]

theorem toOption_congr {ε α : Type} {first second : Except ε α}
    (h : ∀ value, first = .ok value ↔ second = .ok value) : first.toOption = second.toOption := by
  cases second with
  | ok value => rw [(h value).mpr rfl]
  | error error =>
    cases first with
    | ok value => exact absurd ((h value).mp rfl) (by simp)
    | error _ => rfl

namespace Action

variable {σ τ α β : Type}

def result? (action : Action σ α) (state : σ) : Option (α × σ) :=
  match action state with
  | .ok value next => some (value, next)
  | .error _ _ => none

theorem result?_eq_some {action : Action σ α} {state next : σ} {value : α} :
    action.result? state = some (value, next) ↔ action state = .ok value next := by
  unfold result?
  cases action state <;> simp

theorem result?_bind (action : Action σ α) (next : α → Action σ β) (state : σ) :
    (action >>= next).result? state =
      (action.result? state).bind fun (value, after) => (next value).result? after := by
  unfold result?
  rw [bind_apply]
  cases action state <;> rfl

/-- On a changed state the operation has the changed result. -/
def Commutes (change : σ → σ) (action : Action σ α) : Prop :=
  ∀ state, action.result? (change state) =
    (action.result? state).map fun (value, after) => (value, change after)

variable {change : σ → σ}

theorem cases_of_result?_eq {action : Action σ α} {state : σ}
    (h : action.result? (change state) =
      (action.result? state).map fun (value, after) => (value, change after)) :
    (∃ error after error' after', action state = .error error after ∧
      action (change state) = .error error' after') ∨
    ∃ value after, action state = .ok value after ∧
      action (change state) = .ok value (change after) := by
  cases hrun : action state with
  | error error after =>
    cases hrun' : action (change state) with
    | error error' after' => exact .inl ⟨error, after, error', after', rfl, rfl⟩
    | ok value after' => simp [result?, hrun, hrun'] at h
  | ok value after =>
    simp only [result?, hrun, Option.map_some] at h
    exact .inr ⟨value, after, rfl, result?_eq_some.mp h⟩

theorem Commutes.bind {action : Action σ α} {next : α → Action σ β}
    (h : action.Commutes change) (hnext : ∀ value, (next value).Commutes change) :
    (action >>= next).Commutes change := by
  intro state
  rw [result?_bind, result?_bind, h state]
  cases action.result? state with
  | none => rfl
  | some result => exact hnext result.1 result.2

theorem commutes_pure (value : α) : Commutes change (pure value : Action σ α) :=
  fun _ => rfl

theorem commutes_throw (error : Error) : Commutes change (throw error : Action σ α) :=
  fun _ => rfl

theorem commutes_modify {update : σ → σ}
    (h : ∀ state, update (change state) = change (update state)) :
    Commutes change (modify update : Action σ Unit) :=
  fun state => congrArg (fun after => some ((), after)) (h state)

theorem commutes_read (view : σ → τ) (action : τ → Action σ α)
    (hview : ∀ state, view (change state) = view state)
    (h : ∀ seen, (action seen).Commutes change) :
    Commutes change (fun state => action (view state) state : Action σ α) := by
  intro state
  change (action (view (change state))).result? (change state) = _
  rw [hview]
  exact h (view state) state

theorem commutes_get_bind {next : σ → Action σ α}
    (hnext : ∀ state, next (change state) = next state)
    (h : ∀ seen, (next seen).Commutes change) : Commutes change (get >>= next) := by
  intro state
  change (next (change state)).result? (change state) = _
  rw [hnext]
  exact h state state

theorem commutes_forM {items : List α} {action : α → Action σ Unit}
    (h : ∀ item ∈ items, (action item).Commutes change) :
    Commutes change (items.forM action) := by
  induction items with
  | nil => exact commutes_pure ()
  | cons item items ih =>
    rw [List.forM_eq_forM, List.forM_cons]
    exact (h item (by simp)).bind fun _ => ih fun later hlater => h later (by simp [hlater])

end Action

open Action

def Instruction.relined (rename : UInt32 → UInt32) (i : Instruction) : Instruction :=
  { i with line := rename i.line }

def Code.relined (rename : UInt32 → UInt32) (code : Code) : Code :=
  { code with
    instructions := code.instructions.map (Instruction.relined rename)
    line := rename code.line }

namespace Prototype

mutual

def relined (rename : UInt32 → UInt32) : Prototype → Prototype
  | p@{ children, .. } =>
    { p with lines := p.lines.map rename, children := allRelined rename children }

def allRelined (rename : UInt32 → UInt32) : List Prototype → List Prototype
  | [] => []
  | p :: rest => p.relined rename :: allRelined rename rest

end

theorem allRelined_eq_map (rename : UInt32 → UInt32) (children : List Prototype) :
    allRelined rename children = children.map (relined rename) := by
  induction children with
  | nil => simp [allRelined]
  | cons child children ih => simp [allRelined, ih]

theorem relined_eq (rename : UInt32 → UInt32) (p : Prototype) :
    p.relined rename =
      { p with lines := p.lines.map rename, children := p.children.map (relined rename) } := by
  cases p
  simp only [relined, allRelined_eq_map]

end Prototype

def FunctionBuilder.relined (rename : UInt32 → UInt32) (f : FunctionBuilder) : FunctionBuilder :=
  { f with
    code := f.code.relined rename
    children := f.children.map (Prototype.relined rename) }

section Composition

variable (first second : UInt32 → UInt32)

theorem Code.relined_relined (code : Code) :
    (code.relined first).relined second = code.relined (second ∘ first) := by
  simp [relined, Function.comp_def, Instruction.relined]

mutual

theorem Prototype.relined_relined :
    (p : Prototype) → (p.relined first).relined second = p.relined (second ∘ first)
  | { children, .. } => by
    simp only [relined, List.map_map, allRelined_allRelined]

theorem Prototype.allRelined_allRelined :
    (children : List Prototype) →
      allRelined second (allRelined first children) = allRelined (second ∘ first) children
  | [] => by simp only [allRelined]
  | child :: children => by
    simp only [allRelined, relined_relined, allRelined_allRelined]

end

theorem FunctionBuilder.relined_relined (f : FunctionBuilder) :
    (f.relined first).relined second = f.relined (second ∘ first) := by
  simp [relined, Code.relined_relined, Function.comp_def, Prototype.relined_relined]

end Composition

variable {rename : UInt32 → UInt32}

namespace Instruction

theorem store_relined {i : Instruction} {field : Field} {min max value : Int} {stored : Nat} :
    (i.relined rename).store field min max value = .ok stored ↔
      i.store field min max value = .ok stored := by
  rw [store_eq_ok, store_eq_ok]

theorem storeArg_relined {i : Instruction} {field : Field} {use : ArgUse} {value : Int}
    {stored : Nat} : (i.relined rename).storeArg field use value = .ok stored ↔
      i.storeArg field use value = .ok stored := by
  cases use <;> simp only [storeArg, except_bind_eq_ok, store_relined]

theorem encode_relined {i : Instruction} {word : UInt32} :
    (i.relined rename).encode = .ok word ↔ i.encode = .ok word := by
  have hop : (i.relined rename).op = i.op := rfl
  have ha : (i.relined rename).a = i.a := rfl
  have hb : (i.relined rename).b = i.b := rfl
  have hc : (i.relined rename).c = i.c := rfl
  unfold encode
  rw [hop, ha, hb, hc]
  split <;> simp only [except_bind_eq_ok, store_relined, storeArg_relined]

theorem within_relined {i : Instruction} {field : Field} {index : Int} {size : Nat} {u : Unit} :
    (i.relined rename).within field index size = .ok u ↔ i.within field index size = .ok u := by
  unfold within
  split <;> simp

theorem withinConstants_relined {i : Instruction} {tables : Tables} {use : ArgUse}
    {operand : Int} {u : Unit} :
    (i.relined rename).withinConstants tables use operand = .ok u ↔
      i.withinConstants tables use operand = .ok u := by
  have hop : (i.relined rename).op = i.op := rfl
  unfold withinConstants
  rw [hop]
  split
  · exact within_relined
  · rfl

theorem checkEntry_relined {i : Instruction} {tables : Tables} {previous : Option Instruction}
    {u : Unit} :
    (i.relined rename).checkEntry tables (previous.map (relined rename)) = .ok u ↔
      i.checkEntry tables previous = .ok u := by
  have hop : (i.relined rename).op = i.op := rfl
  have ha : (i.relined rename).a = i.a := rfl
  have hb : (i.relined rename).b = i.b := rfl
  have hprevious : (previous.map (relined rename)).any (·.op == .loadKX) =
      previous.any (·.op == .loadKX) := by
    cases previous <;> rfl
  unfold checkEntry
  rw [hop, ha, hb, hprevious]
  split
  case h_2 =>
    split
    · exact within_relined
    · rfl
  all_goals first
    | exact within_relined
    | rfl

theorem accept_relined {i : Instruction} {tables : Tables} {previous : Option Instruction}
    {word : UInt32} :
    (i.relined rename).accept tables (previous.map (relined rename)) = .ok word ↔
      i.accept tables previous = .ok word := by
  have hop : (i.relined rename).op = i.op := rfl
  have hb : (i.relined rename).b = i.b := rfl
  have hc : (i.relined rename).c = i.c := rfl
  unfold accept
  rw [hop, hb, hc]
  simp only [except_bind_eq_ok, encode_relined, checkEntry_relined, withinConstants_relined]

end Instruction

namespace Code

theorem append_result? (tables : Tables) (i : Instruction) (code : Code) :
    (append tables i).result? code =
      ({ i with line := code.line }.accept tables code.instructions.back?).toOption.map fun _ =>
        (code.size,
          { code with instructions := code.instructions.push { i with line := code.line } }) := by
  unfold result? append
  dsimp only
  cases Instruction.accept _ _ _ <;> rfl

theorem append_commutes (tables : Tables) (i : Instruction) :
    (append tables i).Commutes (relined rename) := by
  intro code
  have hline : { i with line := (code.relined rename).line } =
      Instruction.relined rename { i with line := code.line } := rfl
  have hback : (code.relined rename).instructions.back? =
      code.instructions.back?.map (Instruction.relined rename) := Array.back?_map
  rw [append_result?, append_result?, hline, hback,
    toOption_congr fun _ => Instruction.accept_relined]
  cases Instruction.accept _ _ _ with
  | error error => rfl
  | ok word => simp [Except.toOption, relined, size]

theorem get?_relined (code : Code) (index : Nat) :
    (code.relined rename).get? index = (code.get? index).map (Instruction.relined rename) := by
  simp [get?, relined]

theorem before?_relined (code : Code) (index : Nat) :
    (code.relined rename).before? index =
      (code.before? index).map (Instruction.relined rename) := by
  cases index with
  | zero => rfl
  | succ index => exact get?_relined code index

@[simp] theorem size_relined (code : Code) : (code.relined rename).size = code.size := by
  simp [size, relined]

theorem replace_result? (tables : Tables) (index : Nat) (i : Instruction) (code : Code) :
    (replace tables index i).result? code =
      (code.get? index).bind fun old =>
        ({ i with line := old.line }.accept tables (code.before? index)).toOption.map fun _ =>
          ((), { code with
            instructions :=
              code.instructions.setIfInBounds index { i with line := old.line } }) := by
  unfold result? replace
  cases code.get? index with
  | none => rfl
  | some old =>
    dsimp only [Option.bind_some]
    cases Instruction.accept _ _ _ <;> rfl

theorem replace_commutes (tables : Tables) (index : Nat) (i : Instruction) :
    (replace tables index i).Commutes (relined rename) := by
  intro code
  rw [replace_result?, replace_result?, get?_relined, before?_relined]
  cases code.get? index with
  | none => rfl
  | some old =>
    have hline : { i with line := (old.relined rename).line } =
        Instruction.relined rename { i with line := old.line } := rfl
    simp only [Option.map_some, Option.bind_some, hline]
    rw [toOption_congr fun _ => Instruction.accept_relined]
    cases Instruction.accept _ _ _ with
    | error error => rfl
    | ok word => simp [Except.toOption, relined]

theorem jumpTo_commutes (tables : Tables) (target : Nat) :
    (jumpTo tables target).Commutes (relined rename) :=
  commutes_read size (fun size => append tables { op := .jmp, b := displacement size target })
    size_relined fun _ => append_commutes tables _

theorem aim_commutes (tables : Tables) (index target : Nat) :
    (aim tables index target).Commutes (relined rename) := by
  intro code
  unfold result? aim
  rw [get?_relined]
  cases code.get? index with
  | none => rfl
  | some jump =>
    have hop : (jump.relined rename).op = jump.op := rfl
    have ha : (jump.relined rename).a = jump.a := rfl
    dsimp only [Option.map_some]
    rw [hop, ha]
    by_cases hjump : jump.op.isJump = true
    · rw [if_pos hjump, if_pos hjump]
      exact replace_commutes tables index _ code
    · rw [if_neg hjump, if_neg hjump]
      rfl

theorem aimHere_commutes (tables : Tables) (index : Nat) :
    (aimHere tables index).Commutes (relined rename) :=
  commutes_read size (aim tables index) size_relined fun size => aim_commutes tables index size

theorem discardSection_commutes (pending : List Nat) :
    (discardSection pending).Commutes (relined rename) := by
  intro code
  have hsections : (code.relined rename).sections = code.sections := rfl
  unfold result? discardSection
  rw [hsections]
  cases code.sections with
  | nil => rfl
  | cons start outer =>
    dsimp only
    cases pending.find? (start ≤ ·) with
    | some label => rfl
    | none => simp [relined, size]

theorem words_relined (code : Code) :
    (code.relined rename).words.toOption = code.words.toOption := by
  apply toOption_congr
  have hlist : ∀ (instructions : List Instruction) (words : List UInt32),
      (instructions.map (Instruction.relined rename)).mapM Instruction.encode = .ok words ↔
        instructions.mapM Instruction.encode = .ok words := by
    intro instructions
    induction instructions with
    | nil => simp
    | cons i instructions ih =>
      intro words
      simp only [List.map_cons, List.mapM_cons, except_bind_eq_ok, Instruction.encode_relined, ih]
  intro words
  unfold Code.words relined
  rw [Array.toList_map]
  exact hlist code.instructions.toList words

theorem lines_relined (code : Code) :
    (code.relined rename).lines = code.lines.map rename := by
  simp [lines, relined, Function.comp_def, Instruction.relined]

end Code

namespace FunctionBuilder

@[simp] theorem tables_relined (f : FunctionBuilder) : (f.relined rename).tables = f.tables := by
  simp [tables, relined]

@[simp] theorem pc_relined (f : FunctionBuilder) : (f.relined rename).pc = f.pc :=
  Code.size_relined f.code

theorem commutes_onCode {α : Type} {action : Action Code α}
    (h : action.Commutes (Code.relined rename)) : (onCode action).Commutes (relined rename) := by
  have hresult : ∀ f, (onCode action).result? f =
      (action.result? f.code).map fun (value, code) => (value, { f with code }) := by
    intro f
    unfold result?
    rw [onCode_apply]
    cases action f.code <;> rfl
  intro f
  rw [hresult, hresult]
  change (action.result? (f.code.relined rename)).map _ = _
  rw [h f.code]
  cases action.result? f.code <;> rfl

theorem commutes_onScopes {α : Type} (action : Action Scopes α) :
    (onScopes action).Commutes (relined rename) := by
  intro f
  have hscopes : (f.relined rename).scopes = f.scopes := rfl
  unfold result?
  rw [onScopes_apply, onScopes_apply, hscopes]
  cases action f.scopes <;> rfl

theorem commutes_onLoops {α : Type} (action : Action Loops α) :
    (onLoops action).Commutes (relined rename) := by
  intro f
  have hloops : (f.relined rename).loops = f.loops := rfl
  unfold result?
  rw [onLoops_apply, onLoops_apply, hloops]
  cases action f.loops <;> rfl

theorem allocate_commutes : allocate.Commutes (relined rename) := by
  intro f
  have hnext : (f.relined rename).nextFree = f.nextFree := rfl
  unfold result? allocate
  rw [hnext]
  by_cases hfree : f.nextFree < maxRegisters
  · rw [if_pos hfree, if_pos hfree]
    rfl
  · rw [if_neg hfree, if_neg hfree]
    rfl

theorem free_commutes (register : UInt8) : (free register).Commutes (relined rename) := by
  intro f
  have hnext : (f.relined rename).nextFree = f.nextFree := rfl
  have hscopes : (f.relined rename).scopes = f.scopes := rfl
  unfold result? free
  rw [hnext, hscopes]
  by_cases howned : f.scopes.isOwned register = true
  · rw [if_pos howned, if_pos howned]
    rfl
  rw [if_neg howned, if_neg howned]
  by_cases hnever : f.nextFree < register.toNat
  · rw [if_pos hnever, if_pos hnever]
    rfl
  rw [if_neg hnever, if_neg hnever]
  by_cases hbelow : register.toNat + 1 < f.nextFree
  · rw [if_pos hbelow, if_pos hbelow]
    rfl
  · rw [if_neg hbelow, if_neg hbelow]
    rfl

theorem emit_commutes (i : Instruction) : (emit i).Commutes (relined rename) :=
  commutes_read tables (fun tables => onCode (Code.append tables i)) tables_relined
    fun tables => commutes_onCode (Code.append_commutes tables i)

theorem loadConstant_commutes (register : UInt8) (slot : Nat) :
    (loadConstant register slot).Commutes (relined rename) := by
  unfold loadConstant
  split
  · exact emit_commutes _
  · split
    · exact (emit_commutes _).bind fun _ => (emit_commutes _).bind fun _ => commutes_pure _
    · exact fun _ => rfl

theorem jump_commutes : jump.Commutes (relined rename) :=
  emit_commutes { op := .jmp }

theorem jumpTo_commutes (target : Nat) : (jumpTo target).Commutes (relined rename) :=
  commutes_read tables (fun tables => onCode (Code.jumpTo tables target)) tables_relined
    fun tables => commutes_onCode (Code.jumpTo_commutes tables target)

theorem aim_commutes (index target : Nat) : (aim index target).Commutes (relined rename) :=
  commutes_read tables (fun tables => onCode (Code.aim tables index target)) tables_relined
    fun tables => commutes_onCode (Code.aim_commutes tables index target)

theorem aimHere_commutes (index : Nat) : (aimHere index).Commutes (relined rename) :=
  commutes_read tables (fun tables => onCode (Code.aimHere tables index)) tables_relined
    fun tables => commutes_onCode (Code.aimHere_commutes tables index)

theorem closeScope_result? (f : FunctionBuilder) :
    closeScope.result? f =
      ((onScopes (Scopes.closeScope (.ofNat f.pc))).result? f).map fun (lowest, f) =>
        ((), { f with nextFree := (lowest.map UInt8.toNat).getD f.nextFree }) := by
  simp only [result?, closeScope]
  cases onScopes (Scopes.closeScope (.ofNat f.pc)) f with
  | error error f => rfl
  | ok lowest f => cases lowest <;> rfl

theorem closeScope_commutes : closeScope.Commutes (relined rename) := by
  intro f
  rw [closeScope_result?, closeScope_result?, pc_relined, commutes_onScopes]
  cases (onScopes (Scopes.closeScope (.ofNat f.pc))).result? f <;> rfl

theorem checkFresh_toOption (scopes : Scopes) (name : String) (line line' : UInt32) :
    (scopes.checkFresh name line).toOption = (scopes.checkFresh name line').toOption := by
  unfold Scopes.checkFresh
  cases scopes.stack with
  | nil => rfl
  | cons scope outer =>
    dsimp only
    split <;> rfl

theorem bindName_commutes (name : String) (startPc : UInt32) :
    (bindName name startPc).Commutes (relined rename) := by
  let take : Build UInt8 := do
    let register ← allocate
    modify fun f => { f with scopes := f.scopes.add { name, register, startPc } }
    return register
  have htake : take.Commutes (relined rename) := by
    refine allocate_commutes.bind fun _ => Commutes.bind ?_ fun _ => commutes_pure _
    exact commutes_modify fun _ => rfl
  have hresult : ∀ f, (bindName name startPc).result? f =
      (f.scopes.checkFresh name 0).toOption.bind fun _ => take.result? f := by
    intro f
    rw [checkFresh_toOption f.scopes name 0 f.line]
    unfold result?
    rw [bindName_apply]
    cases f.scopes.checkFresh name f.line with
    | error error => rfl
    | ok _ =>
      simp only [take, bind_apply]
      cases allocate f <;> rfl
  intro f
  have hscopes : (f.relined rename).scopes = f.scopes := rfl
  rw [hresult, hresult, hscopes]
  cases (f.scopes.checkFresh name 0).toOption with
  | none => rfl
  | some _ => exact htake f

theorem bindLocal_commutes (name : String) : (bindLocal name).Commutes (relined rename) :=
  commutes_read pc (fun pc => bindName name (.ofNat pc)) pc_relined
    fun _ => bindName_commutes name _

theorem bindParameter_commutes (name : String) :
    (bindParameter name).Commutes (relined rename) := by
  refine commutes_get_bind (fun f => ?_) fun _ => ?_
  · unfold parameterStart
    rw [pc_relined]
  refine (bindName_commutes name _).bind fun _ => Commutes.bind ?_ fun _ => commutes_pure _
  exact commutes_modify fun _ => rfl

theorem discardSection_commutes : discardSection.Commutes (relined rename) := by
  refine commutes_get_bind (fun _ => rfl) fun f => ?_
  cases f.code.sectionStart? with
  | none => exact commutes_throw _
  | some start =>
    refine Commutes.bind (commutes_modify fun _ => rfl) fun _ => ?_
    refine commutes_get_bind (fun _ => rfl) fun cut => ?_
    refine (commutes_onCode (Code.discardSection_commutes _)).bind fun _ => ?_
    refine Commutes.bind ?_ fun _ => commutes_pure _
    apply commutes_modify
    intro f
    unfold clampRanges
    rw [pc_relined]
    rfl

theorem intern_commutes (c : Constant) : (intern c).Commutes (relined rename) := by
  intro f
  have hconstants : (f.relined rename).constants = f.constants := rfl
  unfold result?
  rw [intern_apply, intern_apply, hconstants]
  rfl

theorem breakLoop_commutes : breakLoop.Commutes (relined rename) := by
  refine commutes_get_bind (fun _ => rfl) fun f => ?_
  split
  · exact jump_commutes.bind fun _ => commutes_onLoops _
  · exact commutes_throw _

theorem continueLoop_commutes : continueLoop.Commutes (relined rename) := by
  refine commutes_get_bind (fun _ => rfl) fun f => ?_
  cases f.loops.continueTarget with
  | error error => exact fun _ => rfl
  | ok target =>
    cases target with
    | some target => exact (jumpTo_commutes target).bind fun _ => commutes_pure _
    | none => exact jump_commutes.bind fun _ => commutes_onLoops _

theorem closeLoop_commutes : closeLoop.Commutes (relined rename) := by
  refine (commutes_onLoops _).bind fun loop => commutes_get_bind (fun f => ?_) fun f => ?_
  · rw [pc_relined]
  refine (commutes_forM fun index _ => aim_commutes index f.pc).bind fun _ => ?_
  split
  · exact commutes_forM fun index _ => aim_commutes index _
  · split
    · exact commutes_throw _
    · exact commutes_pure ()

theorem finish_toOption (f : FunctionBuilder) (lastLine : UInt32) :
    (f.finish lastLine).toOption =
      if f.unfinished? = none ∧ f.highWater < 256 then
        f.code.words.toOption.map fun words => f.prototype words lastLine
      else none := by
  rw [finish_eq]
  cases f.unfinished? with
  | some violation => rfl
  | none =>
    cases f.code.words with
    | error error => simp [bind, Except.bind, Except.toOption]
    | ok words => by_cases hfits : f.highWater < 256 <;> simp [bind, Except.bind, hfits] <;> rfl

theorem prototype_relined (f : FunctionBuilder) (words : List UInt32) (lastLine : UInt32) :
    (f.relined rename).prototype words lastLine = (f.prototype words lastLine).relined rename := by
  have hlines : (f.relined rename).code.lines = f.code.lines.map rename :=
    Code.lines_relined f.code
  have hchildren : (f.relined rename).children.toList =
      f.children.toList.map (Prototype.relined rename) := Array.toList_map
  rw [Prototype.relined_eq]
  unfold prototype
  rw [hlines, hchildren, pc_relined]
  rfl

theorem finish_relined (f : FunctionBuilder) (lastLine : UInt32) :
    ((f.relined rename).finish lastLine).toOption =
      (f.finish lastLine).toOption.map (Prototype.relined rename) := by
  have hunfinished : (f.relined rename).unfinished? = f.unfinished? := rfl
  have hhigh : (f.relined rename).highWater = f.highWater := rfl
  have hwords : (f.relined rename).code.words.toOption = f.code.words.toOption :=
    Code.words_relined f.code
  rw [finish_toOption, finish_toOption, hunfinished, hhigh, hwords]
  split
  · rw [Option.map_map]
    exact Option.map_congr fun words _ => prototype_relined f words lastLine
  · rfl

theorem addChild_commutes (child : Prototype) (f : FunctionBuilder) :
    (addChild (child.relined rename)).result? (f.relined rename) =
      ((addChild child).result? f).map fun (index, f) => (index, f.relined rename) := by
  have hsize : (f.relined rename).children.size = f.children.size := Array.size_map
  unfold result? addChild
  rw [hsize]
  by_cases hfits : f.children.size ≤ Instruction.maxBx
  · simp only [hfits, ↓reduceIte, relined, Array.map_push, Option.map_some]
  · simp only [hfits, ↓reduceIte, Option.map_none]

theorem appendUpvalue_commutes (up : Capture) :
    (appendUpvalue up).Commutes (relined rename) := by
  intro f
  have hupvalues : (f.relined rename).upvalues = f.upvalues := rfl
  unfold result? appendUpvalue
  rw [hupvalues]
  by_cases hfits : f.upvalues.length < maxUpvalues
  · simp only [hfits, ↓reduceIte]
    rfl
  · simp only [hfits, ↓reduceIte]
    rfl

end FunctionBuilder

end RegisterCode
