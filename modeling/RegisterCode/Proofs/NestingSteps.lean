import RegisterCode.Proofs.FunctionOutline
import RegisterCode.Proofs.LoopExits
import RegisterCode.Proofs.LoweredOperands

/-! How a function takes in the functions nested in it. The steps of lowering take in none
and make no closures; what constructs take in adds up in the order of their parts. -/
namespace RegisterCode

open Action

namespace Action

variable {σ α : Type} {action : Action σ α} {state next : σ} {post : α → σ → Prop}

theorem promises_of_eq_ok {value : α} (hrun : action state = .ok value next)
    (h : post value next) : action.Promises state post := by
  refine ⟨fun hrun' => ?_⟩
  rw [hrun] at hrun'
  cases hrun'
  exact h

theorem promises_of_eq_error {error : Error} (hrun : action state = .error error next) :
    action.Promises state post := by
  refine ⟨fun hrun' => ?_⟩
  rw [hrun] at hrun'
  cases hrun'

end Action

namespace Outline

def reachedFrom (base : Nat) : List Outline → List Nat
  | [] => []
  | o :: rest => (if o.isReached then [base] else []) ++ reachedFrom (base + 1) rest

theorem reachedFrom_append (base : Nat) (outlines more : List Outline) :
    reachedFrom base (outlines ++ more) =
      reachedFrom base outlines ++ reachedFrom (base + outlines.length) more := by
  induction outlines generalizing base with
  | nil => rfl
  | cons o rest ih =>
    rw [List.cons_append, reachedFrom, reachedFrom, ih, List.append_assoc, List.length_cons,
      Nat.add_right_comm, Nat.add_assoc base]

theorem reachedFrom_unreached (base : Nat) (outlines : List Outline) :
    reachedFrom base (outlines.map unreached) = [] := by
  induction outlines generalizing base with
  | nil => rfl
  | cons o rest ih =>
    rw [List.map_cons, reachedFrom, ih]
    rfl

theorem le_of_mem_reachedFrom {base index : Nat} {outlines : List Outline}
    (h : index ∈ reachedFrom base outlines) : base ≤ index := by
  induction outlines generalizing base with
  | nil => simp [reachedFrom] at h
  | cons o rest ih =>
    rw [reachedFrom, List.mem_append] at h
    rcases h with hfirst | hrest
    · split at hfirst
      · exact Nat.le_of_eq (List.mem_singleton.mp hfirst).symm
      · simp at hfirst
    · exact Nat.le_of_succ_le (ih hrest)

theorem count_reachedFrom (base index : Nat) (outlines : List Outline) :
    (reachedFrom base outlines).count (base + index) = if isMade outlines index then 1 else 0 := by
  induction outlines generalizing base index with
  | nil => rfl
  | cons o rest ih =>
    rw [reachedFrom, List.count_append]
    cases index with
    | zero =>
      have hrest : (reachedFrom (base + 1) rest).count (base + 0) = 0 :=
        List.count_eq_zero.mpr fun hmem => Nat.not_succ_le_self base (le_of_mem_reachedFrom hmem)
      have hmade : isMade (o :: rest) 0 = o.isReached := rfl
      rw [hrest, hmade]
      split <;> simp
    | succ index =>
      have hfirst : (if o.isReached then [base] else []).count (base + (index + 1)) = 0 := by
        split <;> simp
      have hmade : isMade (o :: rest) (index + 1) = isMade rest index := rfl
      rw [hfirst, hmade, Nat.zero_add, Nat.add_comm index 1, ← Nat.add_assoc, ih]

end Outline

namespace FunctionBuilder

variable {outlines more : List Outline} {f f' f'' : FunctionBuilder} {i : Instruction}

def makes (f : FunctionBuilder) : List (Option Nat) :=
  f.listing.map Instruction.child?

def head (f : FunctionBuilder) : UInt8 × UInt32 × Bool × List Nat :=
  (f.paramCount, f.firstLine, f.isVararg, f.code.sections)

/-- The function took in functions of these outlines, and its code got a closure of each
that is reached. -/
structure Nests (outlines : List Outline) (f f' : FunctionBuilder) : Prop where
  children : ∃ added, f'.children.toList = f.children.toList ++ added ∧
    Outline.DescribeAll outlines added
  makes : ∃ code, f'.makes = f.makes ++ code ∧
    code.filterMap id = Outline.reachedFrom f.children.size outlines
  head : f'.head = f.head

theorem Nests.trans (h : f.Nests outlines f') (h' : f'.Nests more f'') :
    f.Nests (outlines ++ more) f'' := by
  obtain ⟨added, hadded, hall⟩ := h.children
  obtain ⟨added', hadded', hall'⟩ := h'.children
  obtain ⟨code, hcode, hreached⟩ := h.makes
  obtain ⟨code', hcode', hreached'⟩ := h'.makes
  refine ⟨⟨added ++ added', ?_, hall.append hall'⟩, ⟨code ++ code', ?_, ?_⟩, h'.head.trans h.head⟩
  · rw [hadded', hadded, List.append_assoc]
  · rw [hcode', hcode, List.append_assoc]
  · have hsize : f'.children.size = f.children.size + outlines.length := by
      rw [← Array.length_toList, hadded, List.length_append, hall.length_eq, Array.length_toList]
    rw [List.filterMap_append, hreached, hreached', hsize, Outline.reachedFrom_append]

theorem nests_nil {code : List (Option Nat)} (hchildren : f'.children = f.children)
    (hmakes : f'.makes = f.makes ++ code) (hnone : code.filterMap id = [])
    (hhead : f'.head = f.head) : f.Nests [] f' :=
  ⟨⟨[], by rw [hchildren, List.append_nil], rfl⟩, ⟨code, hmakes, hnone⟩, hhead⟩

theorem nests_same (hchildren : f'.children = f.children) (hmakes : f'.makes = f.makes)
    (hhead : f'.head = f.head) : f.Nests [] f' :=
  nests_nil hchildren (hmakes.trans (List.append_nil _).symm) rfl hhead

theorem Nests.refl (f : FunctionBuilder) : f.Nests [] f :=
  nests_same rfl rfl rfl

theorem Nests.withLoops (h : f.Nests outlines f') (loops : Loops) :
    f.Nests outlines { f' with loops } :=
  ⟨h.children, h.makes, h.head⟩

theorem makes_placed (code : List Instruction) (f : FunctionBuilder) :
    (f.placed code).makes = f.makes ++ code.map Instruction.child? := by
  rw [makes, listing_placed, List.map_append, makes]

theorem nests_placed {code : List Instruction} (h : ∀ i ∈ code, i.op ≠ .closure) :
    f.Nests [] (f.placed code) := by
  refine nests_nil rfl (makes_placed code f) ?_ rfl
  rw [List.filterMap_map, List.filterMap_eq_nil_iff]
  intro i hi
  simp [Instruction.child?, h i hi]

theorem Captures.nests (h : f.Captures f') : f.Nests [] f' := by
  obtain ⟨captured, rfl⟩ := h
  exact nests_same rfl rfl rfl

theorem Aims.nests {goes : Nat → Nat → Prop} (h : Aims goes f f') : f.Nests [] f' := by
  have hmakes : f'.makes = f.makes := by
    unfold makes
    apply List.ext_getElem?
    intro k
    rw [List.getElem?_map, List.getElem?_map]
    rcases h.code k with hkept | ⟨jump, target, -, ⟨hat, hjump⟩, haimed⟩
    · rw [hkept]
    · have hop : jump.op ≠ .closure := by
        intro hop
        rw [hop] at hjump
        exact absurd hjump (by decide)
      rw [hat, haimed]
      simp [Instruction.child?, aimed, hop]
  obtain ⟨instructions, rfl⟩ := h.only
  exact nests_same rfl hmakes rfl

def Plain {α : Type} (action : Build α) : Prop :=
  ∀ f, action.Promises f fun _ f' => f.Nests [] f'

theorem plain_modify {change : FunctionBuilder → FunctionBuilder}
    (h : ∀ f, Nests [] f (change f)) : Plain (modify change : Build PUnit) :=
  fun f => promises_of_eq_ok rfl (h f)

theorem plain_allocate : Plain allocate := by
  refine fun f => ⟨fun hrun => ?_⟩
  obtain ⟨-, -, rfl⟩ := (allocate_ensures f).of_ok hrun
  exact nests_same rfl rfl rfl

theorem plain_free (register : UInt8) : Plain (free register) := by
  refine fun f => ⟨fun hrun => ?_⟩
  unfold free at hrun
  split at hrun
  · cases hrun
    exact .refl f
  split at hrun
  · cases hrun
  split at hrun
  · cases hrun
  · cases hrun
    exact nests_same rfl rfl rfl

theorem plain_emit (h : i.op ≠ .closure) : Plain (emit i) := by
  intro f
  rcases emit_cases i f with ⟨_, -, hrun⟩ | ⟨error, -, hrun⟩
  · exact promises_of_eq_ok hrun (nests_placed (by simpa [stamped] using h))
  · exact promises_of_eq_error hrun

theorem plain_jump : Plain jump :=
  fun f => promises_of_eq_ok (jump_eq f) (nests_placed (by simp [stamped]))

theorem plain_jumpTo (target : Nat) : Plain (jumpTo target) := by
  refine fun f => ⟨fun hrun => ?_⟩
  rw [jumpTo_eq_emit] at hrun
  exact (plain_emit (by simp) f).of_ok hrun

theorem plain_aimHere (index : Nat) : Plain (aimHere index) := by
  refine fun f => ⟨fun hrun => ?_⟩
  rw [aimHere_eq_aim] at hrun
  rcases aim_cases index f.pc f with ⟨jump, hat, haimed⟩ | ⟨error, herror, -⟩
  · rw [haimed] at hrun
    cases hrun
    exact (aims_replaced hat).nests
  · simp [herror] at hrun

theorem plain_loadConstant (register : UInt8) (slot : Nat) :
    Plain (loadConstant register slot) := by
  intro f
  by_cases hsmall : slot ≤ Instruction.maxBx
  · refine ⟨fun hrun => ?_⟩
    rw [loadConstant_eq_emit hsmall] at hrun
    exact (plain_emit (by simp) f).of_ok hrun
  by_cases hlarge : slot ≤ Instruction.maxAx
  · rcases loadConstant_wide (Nat.not_le.mp hsmall) hlarge register f with
      ⟨-, hrun⟩ | ⟨-, error, hrun⟩
    · refine promises_of_eq_ok hrun (nests_placed ?_)
      simp [constantLoad, hsmall, stamped]
    · exact promises_of_eq_error hrun
  · obtain ⟨error, hrun⟩ := loadConstant_eq_error (Nat.not_le.mp hlarge) register f
    exact promises_of_eq_error hrun

theorem plain_intern (c : Constant) : Plain (intern c) :=
  fun f => promises_of_eq_ok (intern_apply c f) (nests_same rfl rfl rfl)

theorem plain_bindLocal (name : String) : Plain (bindLocal name) := by
  refine fun f => ⟨fun hrun => ?_⟩
  unfold bindLocal at hrun
  rw [bindName_apply] at hrun
  split at hrun
  · cases hrun
  split at hrun
  · cases hrun
  · next register g hallocate =>
    cases hrun
    have htaken := (plain_allocate f).of_ok hallocate
    exact htaken.trans (nests_same rfl rfl rfl)

theorem plain_closeScope : Plain closeScope := by
  intro f
  cases hstack : f.scopes.stack with
  | nil => exact promises_of_eq_error (closeScope_eq_error hstack)
  | cons scope outer => exact promises_of_eq_ok (closeScope_apply hstack) (nests_same rfl rfl rfl)

theorem plain_breakLoop : Plain breakLoop := by
  intro f
  rcases breakLoop_cases f with ⟨-, error, hrun⟩ | ⟨loop, outer, -, hrun⟩
  · exact promises_of_eq_error hrun
  · exact promises_of_eq_ok hrun ((nests_placed (by simp [stamped])).withLoops _)

theorem plain_continueLoop : Plain continueLoop := by
  intro f
  rcases continueLoop_cases f with ⟨-, error, hrun⟩ | ⟨loop, outer, -, hopen⟩
  · exact promises_of_eq_error hrun
  rcases hopen with ⟨-, hrun⟩ | ⟨target, -, hrun | ⟨error, hrun⟩⟩
  · exact promises_of_eq_ok hrun ((nests_placed (by simp [stamped])).withLoops _)
  · exact promises_of_eq_ok hrun (nests_placed (by simp [jumpBack, stamped]))
  · exact promises_of_eq_error hrun

theorem plain_closeLoop : Plain closeLoop := by
  intro f
  cases hstack : f.loops.stack with
  | nil => exact promises_of_eq_error (closeLoop_eq_error hstack)
  | cons loop outer =>
    rcases closeLoop_cases hstack with ⟨f', hrun, haims, -⟩ | ⟨error, f', hrun, -⟩
    · have hclosed : f.Nests [] { f with loops := ⟨outer⟩ } := nests_same rfl rfl rfl
      exact promises_of_eq_ok hrun (hclosed.trans haims.nests)
    · exact promises_of_eq_error hrun

end FunctionBuilder

structure ChunkBuilder.Nests (outlines : List Outline) (b b' : ChunkBuilder) : Prop where
  current : b.current.Nests outlines b'.current
  around : b.Around b'

theorem ChunkBuilder.Nests.trans {outlines more : List Outline} {b b' b'' : ChunkBuilder}
    (h : b.Nests outlines b') (h' : b'.Nests more b'') : b.Nests (outlines ++ more) b'' :=
  ⟨h.current.trans h'.current, h.around.trans h'.around⟩

namespace Lower
open ChunkBuilder

variable {α β : Type} {outlines more : List Outline}

def Adds (outlines : List Outline) (action : Lower α) : Prop :=
  ∀ b, action.Promises b fun _ b' => b.Nests outlines b'

theorem Adds.bind {action : Lower α} {next : α → Lower β} (h : Adds outlines action)
    (hnext : ∀ value, Adds more (next value)) : Adds (outlines ++ more) (action >>= next) := by
  intro b
  apply (h b).bind
  intro value b₁ hfirst
  exact (hnext value b₁).mono fun _ _ hrest => hfirst.trans hrest

theorem Adds.before {action : Lower α} {next : α → Lower β} (h : Adds [] action)
    (hnext : ∀ value, Adds outlines (next value)) : Adds outlines (action >>= next) :=
  h.bind hnext

theorem Adds.followed {action : Lower α} {next : α → Lower β} (h : Adds outlines action)
    (hnext : ∀ value, Adds [] (next value)) : Adds outlines (action >>= next) :=
  List.append_nil outlines ▸ h.bind hnext

theorem adds_pure (value : α) : Adds [] (pure value : Lower α) :=
  fun b => promises_pure ⟨.refl b.current, .of_eq rfl rfl⟩

theorem adds_throw (error : Error) : Adds outlines (throw error : Lower α) :=
  fun _ => promises_throw

theorem adds_get_bind {next : ChunkBuilder → Lower α} (h : ∀ b, Adds outlines (next b)) :
    Adds outlines (get >>= next) :=
  fun b => promises_get_bind (h b b)

theorem adds_onCurrent {action : Build α} (h : FunctionBuilder.Plain action) :
    Adds [] (onCurrent action) := by
  refine fun b => ⟨fun hrun => ?_⟩
  obtain ⟨current, haction, rfl⟩ := onCurrent_eq_ok.mp hrun
  exact ⟨(h b.current).of_ok haction, .of_eq rfl rfl⟩

theorem adds_resolve (name : String) : Adds [] (resolve name) := by
  refine fun b => ⟨fun hrun => ?_⟩
  obtain ⟨-, current, enclosing, ⟨hcurrent, henclosing⟩, rfl⟩ := (resolve_ensures name b).of_ok hrun
  exact ⟨hcurrent.nests, rfl, henclosing⟩

theorem adds_locateKnown (span : Span) : Adds [] (locateKnown span) := by
  unfold locateKnown
  split
  · refine fun b => ⟨?_⟩
    rintro _ _ ⟨⟩
    obtain ⟨line, map, generatedLine, hlocate⟩ := locate_eq span b
    rw [hlocate]
    exact ⟨FunctionBuilder.nests_same rfl rfl rfl, .of_eq rfl rfl⟩
  · exact adds_pure _

theorem adds_allocate : Adds [] allocate :=
  adds_onCurrent FunctionBuilder.plain_allocate

theorem adds_emit {op : Opcode} (h : op ≠ .closure) (x y z : Int) : Adds [] (emit op x y z) :=
  (adds_onCurrent (FunctionBuilder.plain_emit h)).before fun _ => adds_pure _

theorem adds_jump : Adds [] jump :=
  adds_onCurrent FunctionBuilder.plain_jump

theorem adds_aimHere (index : Nat) : Adds [] (aimHere index) :=
  adds_onCurrent (FunctionBuilder.plain_aimHere index)

theorem adds_loadConstant (target : UInt8) (slot : Nat) : Adds [] (loadConstant target slot) :=
  (adds_onCurrent (FunctionBuilder.plain_loadConstant target slot)).before fun _ => adds_pure _

theorem adds_free (operand : Operand) : Adds [] (free operand) := by
  cases operand with
  | register index => exact adds_onCurrent (FunctionBuilder.plain_free index)
  | _ => exact adds_pure _

theorem adds_place (dest : Option UInt8) : Adds [] (place dest) := by
  cases dest with
  | some target => exact adds_pure target
  | none => exact adds_allocate

theorem adds_constant (c : Constant) : Adds [] (constant c) :=
  (adds_onCurrent (FunctionBuilder.plain_intern c)).before fun _ => adds_pure _

theorem adds_toShort_constant (slot : UInt32) : Adds [] (toShort (.constant slot)) := by
  cases h : (Operand.constant slot).short? with
  | some field =>
    rw [toShort_of_some h]
    exact adds_pure _
  | none =>
    rw [toShort_constant h]
    exact adds_allocate.before fun _ => (adds_loadConstant _ _).before fun _ => adds_pure _

theorem adds_toKey (name : String) : Adds [] (toKey name) := by
  rw [toKey_eq]
  exact (adds_onCurrent (FunctionBuilder.plain_intern _)).before fun slot =>
    adds_toShort_constant slot

theorem adds_releasing {use : Lower Unit} (h : Adds outlines use) (operand : Operand) :
    Adds outlines (releasing operand use) :=
  fun b => ⟨fun hrun => ((h.followed fun _ => adds_free operand) b).of_ok
    (releasing_eq_ok_iff.mp hrun)⟩

theorem adds_loadGlobal (name : String) (target : UInt8) : Adds [] (loadGlobal name target) := by
  rw [loadGlobal_eq]
  refine (adds_toKey name).before fun key => (adds_resolve _).before fun found => ?_
  cases found with
  | register index => exact adds_releasing (adds_emit (by decide) _ _ _) _
  | upvalue index => exact adds_releasing (adds_emit (by decide) _ _ _) _
  | global _ => exact adds_releasing (adds_throw _) _

theorem adds_storeGlobal (name : String) (value : Short) :
    Adds [] (storeGlobal name value.holder) := by
  rw [storeGlobal_eq]
  refine (adds_toKey name).before fun key => (adds_resolve _).before fun found => ?_
  cases found with
  | register index => exact (adds_emit (by decide) _ _ _).before fun _ => adds_free _
  | upvalue index => exact (adds_emit (by decide) _ _ _).before fun _ => adds_free _
  | global _ => exact (adds_throw _).before fun _ => adds_free _

theorem adds_load (operand : Operand) (target : UInt8) : Adds [] (load operand target) := by
  cases operand with
  | register index =>
    unfold load
    dsimp only
    split
    · exact adds_pure _
    · exact adds_emit (by decide) _ _ _
  | constant slot => exact adds_loadConstant target slot.toNat
  | boolean value => exact adds_emit (by decide) _ _ _
  | nil => exact adds_emit (by decide) _ _ _
  | upvalue index => exact adds_emit (by decide) _ _ _
  | global name => exact adds_loadGlobal name target

theorem adds_toRegister (operand : Operand) : Adds [] (toRegister operand) := by
  rcases toRegister_cases operand with ⟨index, -, hsame⟩ | hfresh
  · rw [hsame]
    exact adds_pure index
  · rw [hfresh]
    exact adds_allocate.before fun _ => (adds_load _ _).before fun _ => adds_pure _

theorem adds_toShort (operand : Operand) : Adds [] (toShort operand) := by
  rcases toShort_cases operand with ⟨short, -, hsame⟩ | hheld
  · rw [hsame]
    exact adds_pure short
  · rw [hheld]
    exact (adds_toRegister operand).before fun _ => adds_pure _

theorem adds_settle (operand : Operand) (dest : Option UInt8) : Adds [] (settle operand dest) := by
  cases dest with
  | none => exact adds_pure operand
  | some target =>
    exact (adds_load operand target).before fun _ => (adds_free operand).before fun _ => adds_pure _

theorem adds_isFreshTop (target : UInt8) : Adds [] (isFreshTop target) :=
  adds_get_bind fun _ => adds_pure _

theorem adds_returnNothing : Adds [] returnNothing :=
  adds_emit (by decide) _ _ _

theorem adds_declareLocal {value : UInt8 → Lower Unit}
    (h : ∀ register, Adds outlines (value register)) (name : String) :
    Adds outlines (declareLocal name value) := by
  refine adds_allocate.before fun register => (h register).followed fun _ => (adds_free _).before
    fun _ => (adds_onCurrent (FunctionBuilder.plain_bindLocal name)).before fun bound => ?_
  split
  · exact adds_throw _
  · exact adds_pure _

end Lower

end RegisterCode
