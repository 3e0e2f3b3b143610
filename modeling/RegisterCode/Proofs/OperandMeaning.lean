import RegisterCode.Proofs.BuilderBlocks
import RegisterCode.Proofs.LoweringSteps
import RegisterCode.Proofs.Machine

/-! Operands at run time. The registers of the locals hold the variables in sight, and
bringing an operand into place disturbs no register in use. The code of a function is
followed up to where it is settled, since jumps may still be aimed. -/
namespace RegisterCode

open Action

namespace Scopes

variable {Value : Type} {registers registers' : Nat → Value}

def blockOf (registers : Nat → Value) (scope : Scope) (name : String) : Option Value :=
  (scope.find? name).map fun l => registers l.register.toNat

def view (registers : Nat → Value) (scopes : Scopes) : Environment Value :=
  scopes.stack.map (blockOf registers)

theorem lookup_view (registers : Nat → Value) (scopes : Scopes) (name : String) :
    (scopes.view registers).lookup name =
      (scopes.register? name).map fun register => registers register.toNat := by
  obtain ⟨stack, log⟩ := scopes
  induction stack with
  | nil => rfl
  | cons scope outer ih =>
    simp only [view, Environment.lookup, register?, find?, List.map_cons, List.findSome?_cons,
      blockOf] at ih ⊢
    cases scope.find? name with
    | none => exact ih
    | some l => rfl

theorem blockOf_congr {scope : Scope}
    (h : ∀ l ∈ scope.locals, registers' l.register.toNat = registers l.register.toNat) :
    blockOf registers' scope = blockOf registers scope := by
  funext name
  unfold blockOf
  cases hfind : scope.find? name with
  | none => rfl
  | some l => rw [Option.map_some, Option.map_some, h l (Scope.mem_of_find? hfind).1]

theorem view_congr {scopes : Scopes}
    (h : ∀ l ∈ scopes.locals, registers' l.register.toNat = registers l.register.toNat) :
    scopes.view registers' = scopes.view registers := by
  apply List.map_congr_left
  intro scope hscope
  apply blockOf_congr
  intro l hl
  exact h l (List.mem_flatMap.mpr ⟨scope, hscope, hl⟩)

end Scopes

theorem Instruction.constantOperand_neg (slot : Nat) : constantOperand slot < 0 := by
  unfold constantOperand
  omega

theorem Operand.eq_of_short? {slot : UInt32} {field : Int}
    (hlt : slot.toNat < FunctionBuilder.capacity)
    (hshort : (Operand.constant slot).short? = some field) :
    field = Instruction.constantOperand slot.toNat := by
  unfold FunctionBuilder.capacity at hlt
  have hslot : (slot.toNat : Int).bmod 4294967296 = slot.toNat :=
    Int.bmod_eq_of_le (by omega) (by omega)
  unfold Operand.short? at hshort
  dsimp only at hshort
  rw [hslot] at hshort
  by_cases hle : (slot.toNat : Int) ≤ Instruction.maxConstantSlot
  · rw [if_pos hle] at hshort
    exact (Option.some.inj hshort).symm
  · rw [if_neg hle] at hshort
    exact absurd hshort (Option.some_ne_none _).symm

namespace FunctionBuilder

variable {f : FunctionBuilder}

theorem Sound.register_lt (h : f.Sound) {l : Local} (hl : l ∈ f.scopes.locals) :
    l.register.toNat < f.scopes.count := by
  have hmem := Scopes.mem_registers.mpr ⟨l, hl, rfl⟩
  rwa [h.registers, List.mem_range] at hmem

theorem Sound.view_eq {Value : Type} {registers registers' : Nat → Value} (h : f.Sound)
    (hsame : ∀ r < f.scopes.count, registers' r = registers r) :
    f.scopes.view registers' = f.scopes.view registers :=
  Scopes.view_congr fun _ hl => hsame _ (h.register_lt hl)

theorem Holds.le {n : Nat} {operand : Operand} (h : f.Holds n operand) : n ≤ f.nextFree := by
  cases operand with
  | register register =>
    rcases h with ⟨-, hnext⟩ | ⟨-, hnext⟩
    · omega
    · omega
  | _ => exact Nat.le_of_eq (Eq.symm h)

structure Appends (f f' : FunctionBuilder) : Prop where
  listing : f.listing <+: f'.listing
  constants : f.constants.toList <+: f'.constants.toList

theorem Appends.refl (f : FunctionBuilder) : f.Appends f :=
  ⟨List.prefix_rfl, List.prefix_rfl⟩

theorem Appends.trans {f' f'' : FunctionBuilder} (h : f.Appends f') (h' : f'.Appends f'') :
    f.Appends f'' :=
  ⟨h.listing.trans h'.listing, h.constants.trans h'.constants⟩

theorem appends_placed (code : List Instruction) (f : FunctionBuilder) :
    f.Appends (f.placed code) := by
  refine ⟨?_, List.prefix_rfl⟩
  rw [listing_placed]
  exact List.prefix_append _ _

end FunctionBuilder

namespace Machine

variable {Value Fault : Type} {M : Machine Value Fault} {registers registers' : Nat → Value}
  {lo lo' n : Nat} {pending pending' : List Nat} {f f' : FunctionBuilder}

/-- From index `lo` on, the code of a function is the machine's, but for `pending` jumps. -/
structure Covers (M : Machine Value Fault) (lo : Nat) (pending : List Nat)
    (f : FunctionBuilder) : Prop where
  code : ∀ p i, lo ≤ p → p ∉ pending → f.listing[p]? = some i → M.code[p]? = some i.kept
  constants : f.constants.toList <+: M.constants

theorem Covers.before (h : M.Covers lo pending f') (hlo : lo ≤ lo')
    (hlisting : f.listing <+: f'.listing) (hconstants : f.constants.toList <+: f'.constants.toList)
    (hpending : ∀ p ∈ pending, lo' ≤ p → p < f.pc → p ∈ pending') : M.Covers lo' pending' f where
  code := by
    intro p i hle hsettled hat
    have hlt : p < f.pc := by
      rw [← FunctionBuilder.length_listing]
      exact (List.getElem?_eq_some_iff.mp hat).1
    obtain ⟨code, hcode⟩ := hlisting
    apply h.code p i (Nat.le_trans hlo hle) fun hp => hsettled (hpending p hp hle hlt)
    rw [← hcode, List.getElem?_append_left (by simpa using hlt), hat]
  constants := hconstants.trans h.constants

theorem Covers.later (h : M.Covers lo pending f) (hlo : lo ≤ lo') : M.Covers lo' pending f :=
  h.before hlo List.prefix_rfl List.prefix_rfl fun _ hp _ _ => hp

theorem Covers.of_appends (h : M.Covers lo [] f') (happends : f.Appends f') (hlo : lo ≤ lo') :
    M.Covers lo' [] f :=
  h.before hlo happends.listing happends.constants (by simp)

theorem Covers.placed {code : List Instruction} {k : Nat} {i : Instruction}
    (h : M.Covers lo pending (f.placed code)) (hat : code[k]? = some i) (hlo : lo ≤ f.pc)
    (hsettled : f.pc + k ∉ pending) : M.code[f.pc + k]? = some i.kept := by
  apply h.code _ i (by omega) hsettled
  rw [FunctionBuilder.listing_placed, List.getElem?_append_right (by simp),
    FunctionBuilder.length_listing, Nat.add_sub_cancel_left, hat]

theorem Covers.of_replaced {p : Nat} {i : Instruction}
    (h : M.Covers lo pending (f.replaced p i)) : M.Covers lo (p :: pending) f where
  code := by
    intro q j hlo hsettled hat
    rw [List.mem_cons, not_or] at hsettled
    apply h.code q j hlo hsettled.2
    rw [FunctionBuilder.listing_replaced, List.getElem?_set_ne (Ne.symm hsettled.1), hat]
  constants := h.constants

theorem Covers.jumpsTo {p : Nat} {jump : Instruction}
    (h : M.Covers lo pending (f.replaced p (FunctionBuilder.aimed jump p f.pc)))
    (hlo : lo ≤ p) (hlt : p < f.pc) (hsettled : p ∉ pending) (hop : jump.op = .jmp)
    (hcapacity : f.pc ≤ FunctionBuilder.capacity) : M.JumpsTo p f.pc := by
  have hat : M.code[p]? = some (FunctionBuilder.aimed jump p f.pc).kept := by
    apply h.code p _ hlo hsettled
    rw [FunctionBuilder.listing_replaced, List.getElem?_set_self (by simpa using hlt)]
  refine ⟨_, hat, by rw [Instruction.kept_op]; exact hop, ?_⟩
  have hdisplacement := FunctionBuilder.displacement_eq (Nat.lt_of_lt_of_le hlt hcapacity) hcapacity
  have hfield : (FunctionBuilder.aimed jump p f.pc).kept.b = f.pc - (p + 1) := by
    rw [← hdisplacement]
    simp only [FunctionBuilder.aimed, hop]
    rfl
  rw [hfield]
  omega

theorem Covers.jumpsBack {target : Nat} (h : M.Covers lo pending (f.placed [f.jumpBack target]))
    (hlo : lo ≤ f.pc) (hsettled : f.pc ∉ pending) (hcapacity : f.pc < FunctionBuilder.capacity)
    (htarget : target ≤ f.pc) : M.JumpsTo f.pc target :=
  ⟨_, h.placed (k := 0) rfl hlo hsettled, rfl, FunctionBuilder.jumpBack_target hcapacity htarget⟩

def Keeps (n : Nat) (dest : Option UInt8) (registers registers' : Nat → Value) : Prop :=
  ∀ r < n, (∀ target, dest = some target → r ≠ target.toNat) → registers' r = registers r

def Denotes (M : Machine Value Fault) (registers : Nat → Value) (v : Value) : Operand → Prop
  | .register register => registers register.toNat = v
  | .constant slot => slot.toNat < FunctionBuilder.capacity ∧ M.constant? slot.toNat = some v
  | .boolean value => M.meaning.literal (.boolean value) = v
  | .nil => M.meaning.literal .nil = v
  | .upvalue _ | .global _ => False

theorem Denotes.congr {v : Value} {operand : Operand} (h : M.Denotes registers v operand)
    (hcount : f.scopes.count ≤ n) (hholds : f.Holds n operand)
    (hsame : ∀ r < f.nextFree, registers' r = registers r) : M.Denotes registers' v operand := by
  cases operand with
  | register register =>
    have hlt : register.toNat < f.nextFree := by
      rcases hholds with ⟨howned, hnext⟩ | ⟨hnewest, hnext⟩
      · omega
      · omega
    exact (hsame _ hlt).trans h
  | _ => exact h

theorem operand?_of_short? {v : Value} {operand : Operand} {field : Int} {s : State Value}
    (hshort : operand.short? = some field) (h : M.Denotes s.registers v operand) :
    M.operand? s field = some v := by
  cases operand with
  | register register =>
    injection hshort with hfield
    have hnonneg : ¬ ((register.toNat : Int) < 0) := by omega
    rw [← hfield, operand?, if_neg hnonneg]
    exact congrArg some h
  | constant slot =>
    have hfield := Operand.eq_of_short? h.1 hshort
    rw [hfield, operand?, if_pos (Instruction.constantOperand_neg _),
      Instruction.constantSlot_constantOperand]
    exact h.2
  | _ => exact absurd hshort (Option.some_ne_none field).symm

end Machine

namespace ChunkBuilder

variable {weight : Nat} {b b' : ChunkBuilder}

theorem Grows.appends (h : b.Grows weight b') : b.current.Appends b'.current := by
  obtain ⟨code, hcode, -⟩ := h.current.code
  exact ⟨⟨code, hcode.symm⟩, h.current.constants⟩

theorem Grows.pc_eq (h : b.Grows 0 b') : b'.current.pc = b.current.pc :=
  Nat.le_antisymm h.current.pc_le h.current.pc_ge

end ChunkBuilder

namespace Lower
open ChunkBuilder

variable {Value Fault : Type} {M : Machine Value Fault} {registers registers' : Nat → Value}
  {v : Value} {b b' : ChunkBuilder} {weight lo lo' : Nat} {operand : Operand}

theorem emit_covered {op : Opcode} {x y z : Int} {pending : List Nat}
    (hrun : emit op x y z b = .ok () b') (h : M.Covers lo pending b'.current)
    (hlo : lo ≤ b.current.pc) (hsettled : b.current.pc ∉ pending) :
    M.code[b.current.pc]? = some (Instruction.kept { op, a := x, b := y, c := z }) ∧
      b'.current.pc = b.current.pc + 1 := by
  obtain ⟨-, rfl⟩ := (emit_ensures op x y z b).of_ok hrun
  have hat := h.placed (k := 0) (i := b.current.stamped { op, a := x, b := y, c := z }) rfl hlo
    hsettled
  exact ⟨hat, FunctionBuilder.pc_placed _ _⟩

theorem emit_reaches {op : Opcode} {x y z : Int} (hrun : emit op x y z b = .ok () b')
    (h : M.Covers lo [] b'.current) (hlo : lo ≤ b.current.pc)
    (hperform : M.perform (Instruction.kept { op, a := x, b := y, c := z })
      ⟨b.current.pc, registers⟩ = some (.next ⟨b.current.pc + 1, registers'⟩)) :
    M.Reaches ⟨b.current.pc, registers⟩ ⟨b'.current.pc, registers'⟩ := by
  obtain ⟨hat, hpc⟩ := emit_covered hrun h hlo (by simp)
  rw [hpc]
  exact Machine.reaches_of_perform hat hperform

theorem emit_gives {op : Opcode} {x y z target : Int} {result : Except Fault Value}
    (hrun : emit op x y z b = .ok () b') (h : M.Covers lo [] b'.current)
    (hlo : lo ≤ b.current.pc)
    (hperform : M.perform (Instruction.kept { op, a := x, b := y, c := z })
      ⟨b.current.pc, registers⟩ =
        some (Machine.State.deliver ⟨b.current.pc, registers⟩ target result)) :
    M.Gives ⟨b.current.pc, registers⟩ result fun v s =>
      s = ⟨b'.current.pc, Function.update registers target.toNat v⟩ := by
  obtain ⟨hat, hpc⟩ := emit_covered hrun h hlo (by simp)
  rw [hpc]
  exact Machine.gives_of_deliver hat hperform

theorem loadConstant_reaches {target : UInt8} {slot : Nat}
    (hrun : loadConstant target slot b = .ok () b') (h : M.Covers lo [] b'.current)
    (hlo : lo ≤ b.current.pc) (hconstant : M.constant? slot = some v) :
    M.Reaches ⟨b.current.pc, registers⟩
      ⟨b'.current.pc, Function.update registers target.toNat v⟩ := by
  obtain ⟨index, b₁, hload, hreturn⟩ := bind_eq_ok.mp hrun
  obtain ⟨-, rfl⟩ := pure_eq_ok.mp hreturn
  obtain ⟨f, ⟨-, rfl⟩, rfl⟩ := (onCurrent_ensures
    (FunctionBuilder.loadConstant_ensures target slot b.current)).of_ok hload
  have hat : ∀ {k : Nat} {i : Instruction}, (b.current.constantLoad target slot)[k]? = some i →
      M.code[b.current.pc + k]? = some i.kept := fun hk => h.placed hk hlo (by simp)
  rw [FunctionBuilder.pc_placed]
  unfold FunctionBuilder.constantLoad at hat ⊢
  by_cases hnarrow : slot ≤ Instruction.maxBx
  · rw [if_pos hnarrow] at hat ⊢
    apply Machine.reaches_of_perform (hat (k := 0) rfl)
    change (M.constant? slot).bind _ = _
    rw [hconstant]
    rfl
  · rw [if_neg hnarrow] at hat ⊢
    apply Machine.reaches_of_perform (hat (k := 0) rfl)
    have hextra := hat (k := 1) rfl
    change (M.code[b.current.pc + 1]?).bind _ = _
    rw [hextra]
    change (M.constant? slot).bind _ = _
    rw [hconstant]
    rfl

theorem load_reaches {target : UInt8} (hrun : load operand target b = .ok () b')
    (h : M.Covers lo [] b'.current) (hlo : lo ≤ b.current.pc)
    (hdenotes : M.Denotes registers v operand) :
    M.Reaches ⟨b.current.pc, registers⟩
      ⟨b'.current.pc, Function.update registers target.toNat v⟩ := by
  cases operand with
  | register index =>
    by_cases hsame : index = target
    · simp only [load, hsame, ↓reduceIte] at hrun
      obtain ⟨-, rfl⟩ := pure_eq_ok.mp hrun
      have hsame : Function.update registers target.toNat v = registers := by
        rw [← hsame, ← hdenotes, Function.update_eq_self]
      rw [hsame]
      exact .refl
    · simp only [load, hsame, ↓reduceIte] at hrun
      rw [← hdenotes]
      exact emit_reaches hrun h hlo rfl
  | constant slot => exact loadConstant_reaches hrun h hlo hdenotes.2
  | boolean value =>
    rw [← hdenotes]
    apply emit_reaches hrun h hlo
    cases value <;> rfl
  | nil =>
    rw [← hdenotes]
    exact emit_reaches hrun h hlo rfl
  | upvalue index => exact absurd hdenotes id
  | global name => exact absurd hdenotes id

theorem loadFresh_reaches {register : UInt8} (hready : b.Ready)
    (hrun : (do
      let target ← allocate
      load operand target
      return target) b = .ok register b')
    (h : M.Covers lo [] b'.current) (hlo : lo ≤ b.current.pc)
    (hdenotes : M.Denotes registers v operand) :
    ∃ registers', M.Reaches ⟨b.current.pc, registers⟩ ⟨b'.current.pc, registers'⟩ ∧
      registers' register.toNat = v ∧ ∀ r < b.current.nextFree, registers' r = registers r := by
  obtain ⟨target, b₁, hallocate, hrun⟩ := bind_eq_ok.mp hrun
  obtain ⟨_, b₂, hload, hreturn⟩ := bind_eq_ok.mp hrun
  obtain ⟨rfl, rfl⟩ := pure_eq_ok.mp hreturn
  obtain ⟨hgrows, htarget, -⟩ := (allocate_ensures hready).of_ok hallocate
  have hreaches := load_reaches hload h (Nat.le_trans hlo hgrows.current.pc_ge) hdenotes
  rw [hgrows.pc_eq] at hreaches
  refine ⟨_, hreaches, Function.update_self .., ?_⟩
  intro r hr
  exact Function.update_of_ne (by omega) ..

theorem toRegister_reaches {register : UInt8} (hready : b.Ready)
    (hrun : toRegister operand b = .ok register b') (h : M.Covers lo [] b'.current)
    (hlo : lo ≤ b.current.pc) (hdenotes : M.Denotes registers v operand) :
    ∃ registers', M.Reaches ⟨b.current.pc, registers⟩ ⟨b'.current.pc, registers'⟩ ∧
      registers' register.toNat = v ∧ ∀ r < b.current.nextFree, registers' r = registers r := by
  rcases toRegister_cases operand with ⟨index, rfl, heq⟩ | heq
  · rw [heq] at hrun
    obtain ⟨rfl, rfl⟩ := pure_eq_ok.mp hrun
    exact ⟨registers, .refl, hdenotes, fun _ _ => rfl⟩
  · rw [heq] at hrun
    exact loadFresh_reaches hready hrun h hlo hdenotes

theorem toShort_reaches {short : Short} (hready : b.Ready)
    (hrun : toShort operand b = .ok short b') (h : M.Covers lo [] b'.current)
    (hlo : lo ≤ b.current.pc) (hdenotes : M.Denotes registers v operand) :
    ∃ registers', M.Reaches ⟨b.current.pc, registers⟩ ⟨b'.current.pc, registers'⟩ ∧
      M.Denotes registers' v short.holder ∧
      ∀ r < b.current.nextFree, registers' r = registers r := by
  rcases toShort_cases operand with ⟨found, rfl, heq⟩ | heq
  · rw [heq] at hrun
    obtain ⟨rfl, rfl⟩ := pure_eq_ok.mp hrun
    exact ⟨registers, .refl, hdenotes, fun _ _ => rfl⟩
  · rw [heq] at hrun
    obtain ⟨target, b₁, hregister, hreturn⟩ := bind_eq_ok.mp hrun
    obtain ⟨rfl, rfl⟩ := pure_eq_ok.mp hreturn
    exact toRegister_reaches hready hregister h hlo hdenotes

/-- The machine is behind the code of a value and has it; nothing else in use changed. -/
structure Delivered (M : Machine Value Fault) (dest : Option UInt8) (b b' : ChunkBuilder)
    (registers : Nat → Value) (operand : Operand) (v : Value) (s : Machine.State Value) :
    Prop where
  pc : s.pc = b'.current.pc
  denotes : M.Denotes s.registers v operand
  keeps : Machine.Keeps b.current.nextFree dest registers s.registers

theorem settle_gives {dest : Option UInt8} {result : Operand}
    (hrun : settle operand dest b = .ok result b') (h : M.Covers lo [] b'.current)
    (hlo : lo ≤ b.current.pc) (hdenotes : M.Denotes registers v operand) :
    M.Gives ⟨b.current.pc, registers⟩ (.ok v) (Delivered M dest b b' registers result) := by
  cases dest with
  | none =>
    obtain ⟨rfl, rfl⟩ := pure_eq_ok.mp hrun
    exact ⟨_, .refl, rfl, hdenotes, fun _ _ _ => rfl⟩
  | some target =>
    obtain ⟨_, b₁, hload, hrun⟩ := bind_eq_ok.mp hrun
    obtain ⟨_, b₂, hfree, hreturn⟩ := bind_eq_ok.mp hrun
    obtain ⟨rfl, rfl⟩ := pure_eq_ok.mp hreturn
    obtain ⟨next, rfl⟩ := free_eq hfree
    have hreaches := load_reaches hload ⟨h.code, h.constants⟩ hlo hdenotes
    refine ⟨_, hreaches, rfl, Function.update_self .., ?_⟩
    intro r _ hr
    exact Function.update_of_ne (hr target rfl) ..

theorem constant_eq {c : Constant} (hrun : constant c b = .ok operand b') :
    operand = .constant (b.current.constants.intern c).1 ∧
      b' = { b with
        current := { b.current with constants := (b.current.constants.intern c).2 } } := by
  obtain ⟨slot, b₁, hintern, hreturn⟩ := bind_eq_ok.mp hrun
  obtain ⟨rfl, rfl⟩ := pure_eq_ok.mp hreturn
  rw [onCurrent_apply, FunctionBuilder.intern_apply] at hintern
  injection hintern with hslot hstate
  exact ⟨by rw [hslot], hstate.symm⟩

theorem constant_denotes {c : Constant} (hroom : b.current.Room 1)
    (hrun : constant c b = .ok operand b')
    (hconstants : b'.current.constants.toList <+: M.constants) :
    M.Denotes registers (M.meaning.literal c) operand := by
  obtain ⟨rfl, rfl⟩ := constant_eq hrun
  have hsize := b.current.constants.size_intern_le c
  have hwords : (b.current.constants.intern c).2.size ≤ 4294967296 := by
    have hfits := hroom.2
    unfold FunctionBuilder.capacity at hfits
    omega
  have hget := Pool.get?_intern hwords
  have hlt := Pool.slot_lt_size_intern hwords
  obtain ⟨more, hmore⟩ := hconstants
  have hitem : M.constants[(b.current.constants.intern c).1.toNat]? = some c := by
    rw [← hmore, List.getElem?_append_left (by rwa [← Pool.size_eq_length])]
    simpa [Pool.toList, Pool.get?] using hget
  refine ⟨by have := hroom.2; omega, ?_⟩
  rw [Machine.constant?, Int.toNat_natCast, hitem]
  rfl

theorem emit_appends {op : Opcode} {x y z : Int} (hrun : emit op x y z b = .ok () b') :
    b.current.Appends b'.current := by
  obtain ⟨-, rfl⟩ := (emit_ensures op x y z b).of_ok hrun
  exact FunctionBuilder.appends_placed _ _

theorem free_appends (hrun : free operand b = .ok () b') : b.current.Appends b'.current := by
  obtain ⟨next, rfl⟩ := free_eq hrun
  exact ⟨List.prefix_rfl, List.prefix_rfl⟩

theorem settle_appends {dest : Option UInt8} {result : Operand} (hready : b.Ready)
    (hrun : settle operand dest b = .ok result b') : b.current.Appends b'.current := by
  cases dest with
  | none =>
    obtain ⟨-, rfl⟩ := pure_eq_ok.mp hrun
    exact .refl _
  | some target =>
    obtain ⟨_, b₁, hload, hrun⟩ := bind_eq_ok.mp hrun
    obtain ⟨_, b₂, hfree, hreturn⟩ := bind_eq_ok.mp hrun
    obtain ⟨-, rfl⟩ := pure_eq_ok.mp hreturn
    have hloaded := (load_balanced hready operand target).of_ok hload
    exact hloaded.appends.trans (free_appends hfree)

theorem toRegister_grows (h : b.Ready) (operand : Operand) :
    (toRegister operand).Ensures b fun _ b' => b.Grows 4 b' := by
  rcases toRegister_cases operand with ⟨index, rfl, heq⟩ | heq
  · exact ensures_pure ((balanced_refl h).toGrows.weaken (by omega))
  · rw [heq]
    apply (allocate_ensures h).bind
    rintro target b₁ ⟨htaken, -⟩
    apply (load_balanced (htaken.ready h) operand target).bind
    intro _ b₂ hloaded
    exact ensures_pure ((htaken.trans hloaded.toGrows).weaken (by omega))

theorem toShort_grows (h : b.Ready) (operand : Operand) :
    (toShort operand).Ensures b fun _ b' => b.Grows 4 b' := by
  rcases toShort_cases operand with ⟨found, rfl, heq⟩ | heq
  · rw [heq]
    exact ensures_pure ((balanced_refl h).toGrows.weaken (by omega))
  · rw [heq]
    apply (toRegister_grows h operand).bind
    intro target b' hgrows
    exact ensures_pure hgrows

theorem place_target {dest : Option UInt8} {target : UInt8} (h : b.Ready)
    (hrun : place dest b = .ok target b') : b.Grows 0 b' ∧
      b.current.nextFree ≤ b'.current.nextFree ∧
      (dest = some target ∨ dest = none ∧ target.toNat = b.current.nextFree) := by
  cases dest with
  | some asked =>
    obtain ⟨rfl, rfl⟩ := pure_eq_ok.mp hrun
    exact ⟨(balanced_refl h).toGrows, Nat.le_refl _, .inl rfl⟩
  | none =>
    obtain ⟨hgrows, htarget, hnext⟩ := (allocate_ensures h).of_ok hrun
    exact ⟨hgrows, by omega, .inr ⟨rfl, htarget⟩⟩

theorem keeps_of_target {n : Nat} {dest : Option UInt8} {target : UInt8}
    (htarget : dest = some target ∨ dest = none ∧ target.toNat = n)
    (hsame : ∀ r < n, r ≠ target.toNat → registers' r = registers r) :
    Machine.Keeps n dest registers registers' := by
  intro r hr hother
  apply hsame r hr
  rcases htarget with hdest | ⟨-, habove⟩
  · exact hother target hdest
  · omega

end Lower

end RegisterCode
