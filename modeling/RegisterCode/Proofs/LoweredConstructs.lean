import RegisterCode.Proofs.LoweredOperands
import RegisterCode.Proofs.LoweredPrograms
import RegisterCode.Proofs.TreeConstants

/-! The constructs of a tree and the registers they use. Each form is in order if its
parts are, so every program is, as far as the constants that it mentions are few. -/
namespace RegisterCode

open Action

namespace Lower
open ChunkBuilder FunctionBuilder

variable {vocabulary : List Constant} {operand : Operand} {b b' : ChunkBuilder}
  {dest : Option UInt8} {α β : Type}

/-- The action computes a value, for the register asked for or else for any operand. -/
def Producing (vocabulary : List Constant) (dest : Option UInt8) (action : Lower Operand) :
    Prop :=
  ∀ b : ChunkBuilder, b.Orderly vocabulary →
    (∀ target ∈ dest, target.toNat < b.current.highWater) →
    action.Promises b fun operand b' => b.Settles vocabulary dest operand b'

def Supplying (vocabulary : List Constant) (value : Option UInt8 → Lower Operand) : Prop :=
  ∀ dest, Producing vocabulary dest (value dest)

def Filling (vocabulary : List Constant) (action : Lower (List UInt8)) : Prop :=
  ∀ b : ChunkBuilder, b.Orderly vocabulary → action.Promises b fun registers b' =>
    b.Passes vocabulary b' ∧ b.current.nextFree + registers.length ≤ b'.current.nextFree

def Loading (vocabulary : List Constant) (action : UInt8 → Lower Unit) : Prop :=
  ∀ (target : UInt8) (b : ChunkBuilder), b.Orderly vocabulary →
    target.toNat < b.current.highWater →
    (action target).Promises b fun _ b' => b.Keeps vocabulary b'

def Continuing (vocabulary : List Constant) (action : Lower α) : Prop :=
  ∀ b : ChunkBuilder, b.Orderly vocabulary →
    action.Promises b fun _ b' => b.Continues vocabulary b'

theorem Producing.bears {action : Lower Operand} (h : Producing vocabulary none action)
    (hb : b.Orderly vocabulary) :
    action.Promises b fun operand b' => b.Bears vocabulary operand b' :=
  h b hb nofun

theorem Producing.keeps {target : UInt8} {action : Lower Operand}
    (h : Producing vocabulary (some target) action) (hb : b.Orderly vocabulary)
    (htarget : target.toNat < b.current.highWater) :
    action.Promises b fun _ b' => b.Keeps vocabulary b' := by
  apply (h b hb ?_).mono fun _ _ hsettled => hsettled.2
  rintro _ ⟨⟩
  exact htarget

theorem Supplying.ignoring {value : Option UInt8 → Lower Operand}
    (h : Supplying vocabulary value) :
    Loading vocabulary (fun target => do let _ ← value (some target)) := by
  intro target b hb htarget
  apply ((h (some target)).keeps hb htarget).bind
  intro _ b' hkeeps
  exact promises_pure hkeeps

theorem supplying_immediate (hoperand : ∀ f : FunctionBuilder, f.Knows vocabulary operand)
    (hplain : operand.register? = none) : Supplying vocabulary (settle operand) := by
  intro dest b h hdest
  have hnone : ∀ register, operand ≠ .register register := by
    rintro register rfl
    simp [Operand.register?] at hplain
  exact settle_settles (h.keeps.bears_of (hoperand _) fun register hsame =>
    absurd hsame (hnone register)) hdest

theorem supplying_literal {c : Constant} (hc : c ∈ vocabulary) :
    Supplying vocabulary (fun dest => do settle (← constant c) dest) := by
  intro dest b h hdest
  apply (constant_bears h hc).bind
  intro operand b' hbears
  exact settle_settles hbears hdest

theorem supplying_name {name : String} (hname : .string name ∈ vocabulary) :
    Supplying vocabulary (fun dest => do settle (← resolve name).operand dest) := by
  intro dest b h hdest
  apply (resolve_bears h hname).bind
  intro found b' hbears
  exact settle_settles hbears hdest

theorem inPlace_supplying {compute : UInt8 → Lower Unit} (hcompute : Loading vocabulary compute) :
    Supplying vocabulary (inPlace compute) := by
  intro dest b h hdest
  apply (place_settles h dest).bind
  intro target b₁ hplaced
  apply (hcompute target b₁ hplaced.orderly (hplaced.knows hdest)).bind
  intro _ b₂ hkeeps
  exact promises_pure (hplaced.keeps hkeeps)

theorem unaryInto_loading (op : UnaryOp) {value : Option UInt8 → Lower Operand}
    (hvalue : Supplying vocabulary value) : Loading vocabulary (unaryInto op value) := by
  intro target b h htarget
  rw [unaryInto_eq]
  apply ((hvalue none).bears h).bind
  intro operand b₁ hlowered
  apply (toRegister_bears hlowered).bind
  intro register b₂ hheld
  have hregister : register.toNat < b₂.current.highWater := hheld.holding.knows
  apply (free_keeps hheld).bind
  rintro _ b₃ ⟨hkeeps, hhigh⟩
  have hhigh' := hkeeps.highWater
  apply (emit_keeps hkeeps.toOrderly ?_ ?_).mono fun _ _ hemitted => hkeeps.trans hemitted
  · cases op <;> decide
  · cases op <;> grind [UnaryOp.opcode]

theorem concatenation_loading {left right : Option UInt8 → Lower Operand}
    (hleft : Supplying vocabulary left) (hright : Supplying vocabulary right) :
    Loading vocabulary (binaryInto .concat left right) := by
  intro target b h htarget
  apply (allocate_bears h).bind
  intro first b₁ hfirst
  apply ((hleft (some first)).keeps hfirst.toOrderly hfirst.holding.knows).bind
  intro _ b₂ hlowered
  apply (allocate_bears hlowered.toOrderly).bind
  intro second b₃ hsecond
  apply ((hright (some second)).keeps hsecond.toOrderly hsecond.holding.knows).bind
  intro _ b₄ hlowered'
  have hheld := hsecond.keeps hlowered'
  have hsecondLt : second.toNat < b₄.current.highWater := hheld.holding.knows
  apply (free_keeps hheld).bind
  rintro _ b₅ ⟨hfreed, hhigh₅⟩
  have hheld' := hfirst.keeps (hlowered.trans hfreed)
  have hfirstLt : first.toNat < b₅.current.highWater := hheld'.holding.knows
  apply (free_keeps hheld').bind
  rintro _ b₆ ⟨hdone, hhigh₆⟩
  have hhigh := hdone.highWater
  refine (emit_keeps hdone.toOrderly (by decide) ?_).mono fun _ _ hemitted => hdone.trans hemitted
  grind

theorem shortPair_keeps {left right : Lower Operand} (hleft : Producing vocabulary none left)
    (hright : Producing vocabulary none right) (h : b.Orderly vocabulary) :
    (shortPair left right).Promises b fun fields b' => b.Keeps vocabulary b' ∧
      fields.1 < b'.current.highWater ∧ fields.2 < b'.current.highWater := by
  rw [shortPair_eq]
  apply (hleft.bears h).bind
  intro _ b₁ hlowered
  apply (toShort_bears hlowered).bind
  intro first b₂ hfirst
  have hfield := field_lt hfirst
  apply (hright.bears hfirst.toOrderly).bind
  intro _ b₃ hlowered'
  apply (toShort_bears hlowered').bind
  intro second b₄ hsecond
  have hfield' := field_lt hsecond
  have hhigh₄ := hsecond.highWater
  apply (free_keeps hsecond).bind
  rintro _ b₅ ⟨hfreed, hhigh₅⟩
  apply (free_keeps (hfirst.keeps hfreed)).bind
  rintro _ b₆ ⟨hdone, hhigh₆⟩
  exact promises_pure ⟨hdone, by omega, by omega⟩

theorem fits_arithmetic {op : BinaryOp} {opcode : Opcode} (h : op.shape = .arithmetic opcode)
    {size : Nat} {x y z : Int} (hx : x < size) (hy : y < size) (hz : z < size) :
    opcode ≠ .extraArg ∧ Instruction.Fits size { op := opcode, a := x, b := y, c := z } := by
  cases op <;> simp only [BinaryOp.shape, reduceCtorEq, BinaryOp.Shape.arithmetic.injEq] at h <;>
    rw [← h] <;> exact ⟨by decide, by grind⟩

theorem fits_comparison {op : BinaryOp} {opcode : Opcode} {expected swapped : Bool}
    (h : op.shape = .comparison opcode expected swapped) {size : Nat} {x y z : Int}
    (hy : y < size) (hz : z < size) :
    opcode ≠ .extraArg ∧ Instruction.Fits size { op := opcode, a := x, b := y, c := z } := by
  cases op <;> simp only [BinaryOp.shape, reduceCtorEq, BinaryOp.Shape.comparison.injEq] at h <;>
    rw [← h.1] <;> exact ⟨by decide, by grind⟩

theorem compare_keeps {op : Opcode} {expected : Bool} {x y : Int} {target : UInt8}
    (h : b.Orderly vocabulary) (htarget : target.toNat < b.current.highWater)
    (hfits : op ≠ .extraArg ∧ Instruction.Fits b.current.highWater
      { op, a := expected.toNat, b := x, c := y }) :
    (compare op expected x y target).Promises b fun _ b' => b.Keeps vocabulary b' := by
  have hload : ∀ {c : ChunkBuilder} (value skip : Int), b.Keeps vocabulary c →
      (emit .loadBool target.toNat value skip).Promises c fun _ c' => b.Keeps vocabulary c' := by
    intro c value skip hc
    have hhigh := hc.highWater
    refine (emit_keeps hc.toOrderly (by decide) ?_).mono fun _ _ hemitted => hc.trans hemitted
    grind
  apply (emit_keeps h hfits.1 hfits.2).bind
  intro _ b₁ htested
  apply (jump_keeps htested.toOrderly).bind
  intro toTrue b₂ hjumped
  apply (hload 0 1 (htested.trans hjumped)).bind
  intro _ b₃ hfalse
  apply (aimHere_keeps hfalse.toOrderly toTrue).bind
  intro _ b₄ haimed
  exact hload 1 0 (hfalse.trans haimed)

theorem binaryInto_loading (op : BinaryOp) {left right : Option UInt8 → Lower Operand}
    (hleft : Supplying vocabulary left) (hright : Supplying vocabulary right) :
    Loading vocabulary (binaryInto op left right) := by
  intro target b h htarget
  unfold binaryInto
  split
  · exact concatenation_loading hleft hright target b h htarget
  · next opcode hshape =>
    apply (shortPair_keeps (hleft none) (hright none) h).bind
    rintro ⟨x, y⟩ b₁ ⟨hpair, hx, hy⟩
    have hhigh := hpair.highWater
    obtain ⟨hop, hfits⟩ := fits_arithmetic hshape (x := target.toNat) (by omega) hx hy
    exact (emit_keeps hpair.toOrderly hop hfits).mono fun _ _ hemitted => hpair.trans hemitted
  · next opcode expected swapped hshape =>
    apply (shortPair_keeps (hleft none) (hright none) h).bind
    rintro ⟨x, y⟩ b₁ ⟨hpair, hx, hy⟩
    have htarget' := Nat.lt_of_lt_of_le htarget hpair.highWater
    dsimp only
    split
    · exact (compare_keeps hpair.toOrderly htarget' (fits_comparison hshape hy hx)).mono
        fun _ _ hcompared => hpair.trans hcompared
    · exact (compare_keeps hpair.toOrderly htarget' (fits_comparison hshape hx hy)).mono
        fun _ _ hcompared => hpair.trans hcompared

theorem logicalInto_loading (op : LogicalOp) {left right : Option UInt8 → Lower Operand}
    (hleft : Supplying vocabulary left) (hright : Supplying vocabulary right) :
    Loading vocabulary (logicalInto op left right) := by
  intro target b h htarget
  apply ((hleft (some target)).keeps h htarget).bind
  intro _ b₁ hlowered
  have hhigh := hlowered.highWater
  apply (emit_keeps hlowered.toOrderly (by decide) (by grind)).bind
  intro _ b₂ htested
  apply (jump_keeps htested.toOrderly).bind
  intro done b₃ hjumped
  have hpassed := hlowered.trans (htested.trans hjumped)
  have htarget' := Nat.lt_of_lt_of_le htarget hpassed.highWater
  apply ((hright (some target)).keeps hjumped.toOrderly htarget').bind
  intro _ b₄ hlowered'
  apply (aimHere_keeps hlowered'.toOrderly done).mono
  intro _ b₅ haimed
  exact hpassed.trans (hlowered'.trans haimed)

theorem store_bears {name : String} {value : Option UInt8 → Lower Operand} (isLogical : Bool)
    (hname : .string name ∈ vocabulary) (hvalue : Supplying vocabulary value)
    (h : b.Orderly vocabulary) :
    (store name isLogical value).Promises b fun operand b' => b.Bears vocabulary operand b' := by
  rw [store_eq]
  apply (resolve_keeps h name).bind
  rintro found b₁ ⟨hfound, hplace⟩
  cases found with
  | register target =>
    have htarget : target.toNat < b₁.current.highWater := hfound.sized.owned_lt hplace
    have hreturn : ∀ {c : ChunkBuilder}, b₁.Keeps vocabulary c →
        b.Bears vocabulary (.register target) c := by
      intro c hc
      refine (hfound.trans hc).bears_of (Nat.lt_of_lt_of_le htarget hc.highWater) ?_
      rintro _ ⟨⟩
      rw [hc.scopes]
      exact hplace
    cases isLogical with
    | true =>
      apply ((hvalue none).bears hfound.toOrderly).bind
      intro _ b₂ hlowered
      apply (toRegister_bears hlowered).bind
      intro stored b₃ hheld
      have htarget' := Nat.lt_of_lt_of_le htarget hheld.highWater
      apply (load_keeps hheld.toOrderly hheld.holding.knows htarget').bind
      intro _ b₄ hloaded
      apply (free_keeps (hheld.keeps hloaded)).bind
      intro _ b₅ hfreed
      exact promises_pure (hreturn hfreed.1)
    | false =>
      apply ((hvalue (some target)).keeps hfound.toOrderly htarget).bind
      intro _ b₂ hlowered
      exact promises_pure (hreturn hlowered)
  | upvalue index =>
    apply ((hvalue none).bears hfound.toOrderly).bind
    intro _ b₂ hlowered
    apply (toRegister_bears hlowered).bind
    intro stored b₃ hheld
    have hstored : stored.toNat < b₃.current.highWater := hheld.holding.knows
    apply (emit_keeps hheld.toOrderly (by decide) (by grind)).bind
    intro _ b₄ hemitted
    exact promises_pure (hfound.bears (hheld.keeps hemitted))
  | global global =>
    obtain rfl : global = name := hplace
    apply ((hvalue none).bears hfound.toOrderly).bind
    intro _ b₂ hlowered
    apply (toShort_bears hlowered).bind
    intro stored b₃ hheld
    apply (storeGlobal_keeps hheld.toOrderly hname (field_lt hheld)).bind
    intro _ b₄ hstored
    exact promises_pure (hfound.bears (hheld.keeps hstored))

theorem assignInto_loading {name : String} {value : Option UInt8 → Lower Operand} (isLogical : Bool)
    (hname : .string name ∈ vocabulary) (hvalue : Supplying vocabulary value) :
    Loading vocabulary (assignInto name isLogical value) := by
  intro target b h htarget
  apply (store_bears isLogical hname hvalue h).bind
  intro stored b₁ hstored
  have htarget' := Nat.lt_of_lt_of_le htarget hstored.highWater
  apply (load_keeps hstored.toOrderly hstored.holding.knows htarget').bind
  intro _ b₂ hloaded
  exact (free_keeps (hstored.keeps hloaded)).mono fun _ _ hfreed => hfreed.1

theorem filling_nil : Filling vocabulary (pure []) :=
  fun _ h => promises_pure ⟨h.keeps.toPasses, Nat.le_refl _⟩

theorem filling_cons {first : Option UInt8 → Lower Operand} {rest : Lower (List UInt8)}
    (hfirst : Supplying vocabulary first) (hrest : Filling vocabulary rest) :
    Filling vocabulary (do
      let register ← allocate
      let _ ← first (some register)
      let registers ← rest
      return register :: registers) := by
  intro b h
  apply (allocate_passes h).bind
  rintro register b₁ ⟨htaken, hregister, hnext⟩
  have hknown : register.toNat < b₁.current.highWater := taken_lt htaken.toOrderly (by omega)
  apply ((hfirst (some register)).keeps htaken.toOrderly hknown).bind
  intro _ b₂ hlowered
  have hkept := hlowered.nextFree
  apply (hrest b₂ hlowered.toOrderly).bind
  rintro registers b₃ ⟨hpasses, hfilled⟩
  refine promises_pure ⟨htaken.trans (hlowered.toPasses.trans hpasses), ?_⟩
  rw [List.length_cons]
  omega

theorem freeAll_passes (registers : List UInt8) (h : b.Orderly vocabulary) :
    (registers.forM fun register => free (.register register)).Promises b fun _ b' =>
      b.Passes vocabulary b' ∧
        b.current.nextFree ≤ b'.current.nextFree + registers.length := by
  induction registers generalizing b with
  | nil => exact promises_pure ⟨h.keeps.toPasses, Nat.le_refl _⟩
  | cons register rest ih =>
    rw [List.forM_eq_forM, List.forM_cons]
    apply (free_passes h register).bind
    rintro _ b₁ ⟨hfreed, hless, -⟩
    apply (ih hfreed.toOrderly).mono
    rintro _ b₂ ⟨hpasses, hless'⟩
    refine ⟨hfreed.trans hpasses, ?_⟩
    rw [List.length_cons]
    omega

/-- The callee is in the newest register, so the row of a call ends where the arguments do. -/
theorem call_keeps {base : UInt8} {callee : Lower Operand} {args : Lower (List UInt8)}
    {results : Nat} (hcallee : Producing vocabulary (some base) callee)
    (hargs : Filling vocabulary args) (hresults : results ≤ 1) (h : b.Orderly vocabulary)
    (hbase : base.toNat + 1 = b.current.nextFree) :
    (call base callee args results).Promises b fun _ b' => b.Keeps vocabulary b' := by
  apply (hcallee.keeps h (taken_lt h (by omega))).bind
  intro _ b₁ hlowered
  have hkept := hlowered.nextFree
  apply (hargs b₁ hlowered.toOrderly).bind
  rintro registers b₂ ⟨hpasses, hfilled⟩
  have hrow := hpasses.sized.disciplined.nextFree_le
  apply (emit_keeps hpasses.toOrderly (by decide) (by grind)).bind
  intro _ b₃ hemitted
  have hkept' := hemitted.nextFree
  apply (freeAll_passes registers.reverse hemitted.toOrderly).mono
  rintro _ b₄ ⟨hfreed, hless⟩
  rw [List.length_reverse] at hless
  exact ⟨hlowered.toPasses.trans (hpasses.trans (hemitted.toPasses.trans hfreed)), by omega⟩

theorem isFreshTop_promises (target : UInt8) (b : ChunkBuilder) :
    (isFreshTop target).Promises b fun fresh b' =>
      b = b' ∧ (fresh = true → target.toNat + 1 = b.current.nextFree) := by
  constructor
  rintro _ _ ⟨⟩
  refine ⟨rfl, ?_⟩
  intro hfresh
  rw [Bool.and_eq_true, beq_iff_eq] at hfresh
  exact hfresh.1

theorem callInto_loading {callee : Option UInt8 → Lower Operand} {args : Lower (List UInt8)}
    (hcallee : Supplying vocabulary callee) (hargs : Filling vocabulary args) :
    Loading vocabulary (callInto callee args) := by
  intro target b h htarget
  apply (isFreshTop_promises target b).bind
  rintro fresh _ ⟨rfl, hfresh⟩
  split
  · next hnewest =>
    exact call_keeps (hcallee (some target)) hargs (Nat.le_refl _) h (hfresh hnewest)
  · apply (allocate_passes h).bind
    rintro base b₁ ⟨htaken, hbase, hnext⟩
    apply (call_keeps (hcallee (some base)) hargs (Nat.le_refl _) htaken.toOrderly (by omega)).bind
    intro _ b₂ hcalled
    have hheld := (bears_taken htaken hbase hnext).keeps hcalled
    have hbase' : base.toNat < b₂.current.highWater := hheld.holding.knows
    have hhigh := hheld.highWater
    refine emit_free_keeps hheld (by decide) ?_
    grind

theorem Continuing.bind {action : Lower α} {next : α → Lower β}
    (h : Continuing vocabulary action) (hnext : ∀ value, Continuing vocabulary (next value)) :
    Continuing vocabulary (action >>= next) := by
  intro b hb
  apply (h b hb).bind
  intro value b₁ hfirst
  exact (hnext value b₁ hfirst.toOrderly).mono fun _ _ hrest => hfirst.trans hrest

theorem continuing_pure (value : α) : Continuing vocabulary (pure value) :=
  fun _ h => promises_pure h.keeps.toContinues

theorem continuing_onCurrent {action : Build α}
    (hleads : ∀ f, action.Leads (Change (lowering vocabulary)) f) :
    Continuing vocabulary (onCurrent action) :=
  fun b h => (onCurrent_continues h (hleads b.current)).mono fun _ _ hpost => hpost.1

theorem continuing_note {change : FunctionBuilder → FunctionBuilder}
    (hchange : ∀ f, Change (lowering vocabulary) f (change f)) :
    Continuing vocabulary (onCurrent (modify change)) :=
  continuing_onCurrent fun f => leads_modify (hchange f)

theorem returnNothing_continuing : Continuing vocabulary returnNothing :=
  fun _ h => (emit_keeps h (by decide) (by grind)).mono fun _ _ hkeeps => hkeeps.toContinues

theorem openFunction_orderly (h : b.Orderly vocabulary) (name : String) (line : UInt32) :
    (openFunction name line b).Orderly vocabulary where
  sized := (IsInitial.start name (some b.level) line).sized.change
    (.note _ _ _ b.current.line _ _)
  linked := ChunkBuilder.Operation.run_linked h.linked (.openFunction name line)
  small := h.small

theorem closeFunction_keeps {name : String} {line : UInt32} (h : b.Orderly vocabulary)
    (hinside : (openFunction name line b).Continues vocabulary b') (lastLine : UInt32) :
    (closeFunction lastLine).Promises b' fun _ b'' => b.Keeps vocabulary b'' := by
  constructor
  intro index b'' hrun
  have henclosing := hinside.around.enclosing
  have hlinked := hinside.linked
  unfold closeFunction at hrun
  cases houter : b'.enclosing with
  | nil => simp [houter] at hrun
  | cons outer rest =>
    rw [houter] at hlinked henclosing
    obtain ⟨hcaptures, hrest⟩ := List.forall₂_cons.mp henclosing
    have hcaptured := captures_quiet hcaptures
    have hreturned : b.Keeps vocabulary { b' with current := outer, enclosing := rest } := {
      sized := h.sized.captures hcaptures
      linked := hlinked.2.2
      small := h.small
      highWater := Nat.le_of_eq hcaptured.1.symm
      around := ⟨hinside.around.options, hrest⟩
      scopes := hcaptures.scopes
      nextFree := Nat.le_of_eq hcaptured.2.symm }
    simp only [houter] at hrun
    cases hfinish : b'.current.finish lastLine with
    | error error => simp [hfinish] at hrun
    | ok child =>
      simp only [hfinish] at hrun
      have hadopt : lowering vocabulary outer (.adopt child) :=
        ⟨hreturned.sized.capturesWithin hlinked.2.1 hfinish,
          fun _ hwithin => hinside.sized.lowered hfinish hwithin⟩
      exact hreturned.trans ((onCurrent_keeps hreturned.toOrderly (addChild_leads hadopt)
        fun _ _ hadded => addChild_quiet hadded).of_ok hrun)

theorem continuing_parameters (params : List String) :
    Continuing vocabulary (params.forM fun param => do
      let _ ← onCurrent (FunctionBuilder.bindParameter param)) := by
  induction params with
  | nil => exact continuing_pure _
  | cons param rest ih =>
    rw [List.forM_eq_forM, List.forM_cons]
    refine Continuing.bind ?_ fun _ => ih
    exact (continuing_onCurrent (bindParameter_leads param)).bind fun _ => continuing_pure _

theorem functionInto_loading {body : Lower Unit} (hbody : Continuing vocabulary body)
    (params : List String) (name : String) (line lastLine : UInt32) :
    Loading vocabulary (functionInto params body name line lastLine) := by
  intro target b h htarget
  apply promises_modify_bind
  apply (continuing_parameters params _ (openFunction_orderly h name line)).bind
  intro _ b₁ hbound
  apply (hbody b₁ hbound.toOrderly).bind
  intro _ b₂ hlowered
  apply (returnNothing_continuing b₂ hlowered.toOrderly).bind
  intro _ b₃ hended
  apply (closeFunction_keeps h (hbound.trans (hlowered.trans hended)) _).bind
  intro index b₄ hclosed
  have hhigh := hclosed.highWater
  refine (emit_keeps hclosed.toOrderly (by decide) ?_).mono fun _ _ hemitted =>
    hclosed.trans hemitted
  grind

theorem discard_continuing {value : Lower Operand} (h : Producing vocabulary none value) :
    Continuing vocabulary (discard value) := by
  intro b hb
  apply (h.bears hb).bind
  intro operand b₁ hlowered
  exact (free_keeps hlowered).mono fun _ _ hfreed => hfreed.1.toContinues

theorem callStatement_continuing {callee : Option UInt8 → Lower Operand}
    {args : Lower (List UInt8)} (hcallee : Supplying vocabulary callee)
    (hargs : Filling vocabulary args) :
    Continuing vocabulary (callStatement callee args) := by
  intro b h
  apply (allocate_passes h).bind
  rintro base b₁ ⟨htaken, hbase, hnext⟩
  have hrow : base.toNat + 1 = b₁.current.nextFree := by omega
  apply (call_keeps (hcallee (some base)) hargs (Nat.zero_le _) htaken.toOrderly hrow).bind
  intro _ b₂ hcalled
  apply (free_passes hcalled.toOrderly base).mono
  rintro _ b₃ ⟨hfreed, -⟩
  exact htaken.toContinues.trans (hcalled.toContinues.trans hfreed.toContinues)

theorem declareLocal_continuing {value : UInt8 → Lower Unit} (name : String)
    (hvalue : Loading vocabulary value) : Continuing vocabulary (declareLocal name value) := by
  intro b h
  apply (allocate_bears h).bind
  intro register b₁ htaken
  apply (hvalue register b₁ htaken.toOrderly htaken.holding.knows).bind
  intro _ b₂ hlowered
  have hfree : Continuing vocabulary (free (.register register)) := fun _ h =>
    (free_passes h register).mono fun _ _ hfreed => hfreed.1.toContinues
  have hbind : Continuing vocabulary (do
      free (.register register)
      let bound ← onCurrent (FunctionBuilder.bindLocal name)
      if bound ≠ register then
        throw (.discipline (.localMisplaced name bound.toNat register.toNat))) := by
    refine hfree.bind fun _ => (continuing_onCurrent (bindLocal_leads name)).bind fun bound => ?_
    split
    · exact fun _ _ => promises_throw
    · exact continuing_pure _
  apply (hbind b₂ hlowered.toOrderly).mono
  intro _ b₃ hbound
  exact htaken.toContinues.trans (hlowered.toContinues.trans hbound)

theorem defineFunction_continuing {closure : UInt8 → Lower Unit} (name : String)
    (hclosure : Loading vocabulary closure) :
    Continuing vocabulary (defineFunction name closure) := by
  intro b h
  apply (onCurrent_continues h (bindLocal_leads name b.current)).bind
  rintro register b₁ ⟨hcontinues, hrun⟩
  obtain ⟨hregister, hlt⟩ := bindName_hands name _ b.current register _ hrun
  apply (hclosure register b₁ hcontinues.toOrderly (by omega)).mono
  intro _ b₂ hloaded
  exact hcontinues.trans hloaded.toContinues

theorem returnValue_continuing {value : Lower Operand} (h : Producing vocabulary none value) :
    Continuing vocabulary (returnValue value) := by
  intro b hb
  rw [returnValue_eq]
  apply (h.bears hb).bind
  intro operand b₁ hlowered
  apply (toRegister_bears hlowered).bind
  intro register b₂ hheld
  have hregister : register.toNat < b₂.current.highWater := hheld.holding.knows
  refine (emit_free_keeps hheld (by decide) ?_).mono fun _ _ hkeeps => hkeeps.toContinues
  grind

theorem jumpUnless_continuing {condition : Lower Operand}
    (h : Producing vocabulary none condition) : Continuing vocabulary (jumpUnless condition) := by
  intro b hb
  rw [jumpUnless_eq]
  apply (h.bears hb).bind
  intro operand b₁ hlowered
  apply (toRegister_bears hlowered).bind
  intro register b₂ hheld
  have hregister : register.toNat < b₂.current.highWater := hheld.holding.knows
  apply (emit_keeps hheld.toOrderly (by decide) (by grind)).bind
  intro _ b₃ htested
  apply (jump_keeps htested.toOrderly).bind
  intro skip b₄ hjumped
  apply (free_keeps (hheld.keeps (htested.trans hjumped))).bind
  intro _ b₅ hfreed
  exact promises_pure hfreed.1.toContinues

theorem jump_continuing : Continuing vocabulary jump :=
  fun _ h => (jump_keeps h).mono fun _ _ hkeeps => hkeeps.toContinues

theorem aimHere_continuing (index : Nat) : Continuing vocabulary (aimHere index) :=
  continuing_onCurrent (aimHere_leads index)

theorem inScope_continuing {body : Lower Unit} (hbody : Continuing vocabulary body)
    (name : String) : Continuing vocabulary (inScope name body) := by
  have hopen : Continuing vocabulary (onCurrent (modify (FunctionBuilder.openScope name))) :=
    continuing_note fun _ => .openScope name
  exact hopen.bind fun _ => hbody.bind fun _ =>
    continuing_onCurrent fun _ => closeScope_leads trivial

theorem deadBranch_continuing {body otherwise : Lower Unit}
    (hbody : Continuing vocabulary body) (hotherwise : Continuing vocabulary otherwise) :
    Continuing vocabulary (deadBranch body otherwise) := by
  have hopen : Continuing vocabulary (onCurrent (modify FunctionBuilder.openSection)) :=
    continuing_note fun f =>
      .note f.temporaries f.loops (f.pc :: f.code.sections) f.line f.paramCount f.isVararg
  exact hopen.bind fun _ => (inScope_continuing hbody "if").bind fun _ =>
    (continuing_onCurrent discardSection_leads).bind fun _ => hotherwise

theorem whileLoop_continuing {condition : Lower Operand} {body : Lower Unit}
    (hcondition : Producing vocabulary none condition) (hbody : Continuing vocabulary body) :
    Continuing vocabulary (whileLoop condition body) := by
  have hopen : ∀ head, Continuing vocabulary
      (onCurrent (modify (FunctionBuilder.openLoop (some head)))) := fun head =>
    continuing_note fun f => .note f.temporaries (f.loops.openLoop (some head)) f.code.sections
      f.line f.paramCount f.isVararg
  have hloop : ∀ head, Continuing vocabulary (do
      onCurrent (modify (FunctionBuilder.openLoop (some head)))
      let done ← jumpUnless condition
      inScope "while" body
      let _ ← onCurrent (FunctionBuilder.jumpTo head)
      aimHere done
      onCurrent FunctionBuilder.closeLoop) := fun head =>
    (hopen head).bind fun _ => (jumpUnless_continuing hcondition).bind fun done =>
      (inScope_continuing hbody "while").bind fun _ =>
        (continuing_onCurrent fun f => jumpTo_leads (jumps_lowering f) head).bind fun _ =>
          (aimHere_continuing done).bind fun _ => continuing_onCurrent closeLoop_leads
  exact fun b h => ⟨fun hrun => (hloop b.current.pc b h).of_ok hrun⟩

theorem locateKnown_continuing (span : Span) : Continuing vocabulary (locateKnown span) := by
  intro b h
  unfold locateKnown
  split
  · obtain ⟨line, map, generatedLine, hlocate⟩ := locate_eq span b
    constructor
    rintro _ _ ⟨⟩
    rw [hlocate]
    have hnote : Change (lowering vocabulary) b.current (b.current.setLine line) :=
      .note _ _ _ line _ _
    have hsized := h.sized.change hnote
    exact ⟨⟨hsized, linked_congr h.linked hsized.plain.1 rfl, h.small⟩, Nat.le_refl _,
      .of_eq rfl rfl⟩
  · exact promises_pure h.keeps.toContinues

theorem inOrder : StmtRules
    (fun e value => e.constants ⊆ vocabulary → Supplying vocabulary value)
    (fun args action => Expr.listConstants args ⊆ vocabulary → Filling vocabulary action)
    (fun f closure => f.constants ⊆ vocabulary → ∀ name line,
      Loading vocabulary (closure name line))
    (fun _ form action => form.constants ⊆ vocabulary → Continuing vocabulary action)
    (fun stmt action => stmt.constants ⊆ vocabulary → Continuing vocabulary action)
    (fun body action => Stmt.listConstants body ⊆ vocabulary → Continuing vocabulary action) where
  nil _ := supplying_immediate (fun _ => trivial) rfl
  boolean _ _ := supplying_immediate (fun _ => trivial) rfl
  integer _ h := supplying_literal (h (by simp [Expr.constants, ExprForm.constants]))
  number _ h := supplying_literal (h (by simp [Expr.constants, ExprForm.constants]))
  string _ h := supplying_literal (h (by simp [Expr.constants, ExprForm.constants]))
  name _ h := supplying_name (h (by simp [Expr.constants, ExprForm.constants]))
  unary op hoperand h := by
    rw [Expr.constants, ExprForm.constants] at h
    exact inPlace_supplying (unaryInto_loading op (hoperand h))
  binary op hleft hright h := by
    rw [Expr.constants, ExprForm.constants, List.append_subset] at h
    exact inPlace_supplying (binaryInto_loading op (hleft h.1) (hright h.2))
  logical op hleft hright h := by
    rw [Expr.constants, ExprForm.constants, List.append_subset] at h
    exact inPlace_supplying (logicalInto_loading op (hleft h.1) (hright h.2))
  assign name hstored h := by
    rw [Expr.constants, ExprForm.constants, List.cons_subset] at h
    exact inPlace_supplying (assignInto_loading _ h.1 (hstored h.2))
  call hcallee hargs h := by
    rw [Expr.constants, ExprForm.constants, List.append_subset] at h
    exact inPlace_supplying (callInto_loading (hcallee h.1) (hargs h.2))
  function hclosure h := by
    rw [Expr.constants, ExprForm.constants] at h
    exact inPlace_supplying (hclosure h _ _)
  tuple _ _ := fun _ _ _ _ => promises_throw
  object _ _ := fun _ _ _ _ => promises_throw
  noArgs _ := filling_nil
  moreArgs hactual hrest h := by
    rw [Expr.listConstants, List.append_subset] at h
    exact filling_cons (hactual h.1) (hrest h.2)
  closure params endLine hbody h name line := by
    rw [FunctionLiteral.constants] at h
    exact functionInto_loading (hbody h) params name line _
  declareNil name _ := by
    refine declareLocal_continuing name fun register b h hregister => emit_keeps h (by decide) ?_
    grind
  declare name hinit h := by
    rw [StmtForm.constants] at h
    exact declareLocal_continuing name (hinit h).ignoring
  callStatement hcallee hargs h := by
    rw [StmtForm.constants, Expr.constants, ExprForm.constants, List.append_subset] at h
    exact callStatement_continuing (hcallee h.1) (hargs h.2)
  assignStatement name hstored h := by
    rw [StmtForm.constants, Expr.constants, ExprForm.constants, List.cons_subset] at h
    exact discard_continuing fun _ hb _ => store_bears _ h.1 (hstored h.2) hb
  discard _ _ hvalue h := by
    rw [StmtForm.constants] at h
    exact discard_continuing (hvalue h none)
  define name hclosure h := by
    rw [StmtForm.constants] at h
    exact defineFunction_continuing name (hclosure h _ _)
  returnNothing _ := returnNothing_continuing
  returnValue hvalue h := by
    rw [StmtForm.constants] at h
    exact returnValue_continuing (hvalue h none)
  deadBranch _ hbody h := by
    rw [StmtForm.constants, List.append_subset] at h
    exact deadBranch_continuing (hbody h.2) (continuing_pure _)
  deadBranchElse _ hbody hotherwise h := by
    rw [StmtForm.constants, List.append_subset, List.append_subset] at h
    exact deadBranch_continuing (hbody h.2.1) (inScope_continuing (hotherwise h.2.2) "else")
  branch _ hcondition hbody h := by
    rw [StmtForm.constants, List.append_subset] at h
    exact (jumpUnless_continuing (hcondition h.1 none)).bind fun done =>
      (inScope_continuing (hbody h.2) "if").bind fun _ => aimHere_continuing done
  branchElse _ hcondition hbody hotherwise h := by
    rw [StmtForm.constants, List.append_subset, List.append_subset] at h
    exact (jumpUnless_continuing (hcondition h.1 none)).bind fun toElse =>
      (inScope_continuing (hbody h.2.1) "if").bind fun _ => jump_continuing.bind fun done =>
        (aimHere_continuing toElse).bind fun _ =>
          (inScope_continuing (hotherwise h.2.2) "else").bind fun _ => aimHere_continuing done
  whileLoop hcondition hbody h := by
    rw [StmtForm.constants, List.append_subset] at h
    exact whileLoop_continuing (hcondition h.1 none) (hbody h.2)
  breakLoop _ := continuing_onCurrent fun f => breakLoop_leads (jumps_lowering f)
  continueLoop _ := continuing_onCurrent fun f => continueLoop_leads (jumps_lowering f)
  block hbody h := by
    rw [StmtForm.constants] at h
    exact inScope_continuing (hbody h) "block"
  classDecl _ _ := fun _ _ => promises_throw
  tryBlock _ _ := fun _ _ => promises_throw
  located hform h := by
    rw [Stmt.constants] at h
    exact (locateKnown_continuing _).bind fun _ => hform h
  empty _ := continuing_pure _
  sequence hfirst hrest h := by
    rw [Stmt.listConstants, List.append_subset] at h
    exact (hfirst h.1).bind fun _ => hrest h.2

theorem continuing_statements (body : List Stmt) (h : Stmt.listConstants body ⊆ vocabulary) :
    Continuing vocabulary (statements body) :=
  inOrder.holds_statements body h

end Lower

end RegisterCode
