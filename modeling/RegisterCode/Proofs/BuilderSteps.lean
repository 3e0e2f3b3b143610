import RegisterCode.Proofs.BuilderInvariant

/-! The operations of the builders, one law each: what state they lead to, and that
they keep the invariant. -/
namespace RegisterCode

open Action

namespace Pool

theorem size_eq_length (pool : Pool) : pool.size = pool.toList.length := by
  simp [size, toList]

theorem prefix_intern (pool : Pool) (c : Constant) : pool.toList <+: (pool.intern c).2.toList := by
  rw [toList_intern]
  split
  · exact List.prefix_rfl
  · exact List.prefix_append _ _

theorem size_intern_le (pool : Pool) (c : Constant) : (pool.intern c).2.size ≤ pool.size + 1 := by
  rw [size_eq_length, size_eq_length, toList_intern]
  split <;> simp

theorem get?_intern {pool : Pool} {c : Constant} (hsize : (pool.intern c).2.size ≤ 4294967296) :
    (pool.intern c).2.get? (pool.intern c).1 = some c := by
  obtain ⟨position, hslot, hat⟩ := pool.intern_eq_position c
  have hlt : position < (pool.intern c).2.size := (Array.getElem?_eq_some_iff.mp hat).1
  have hposition : (UInt32.ofNat position).toNat = position := by
    rw [UInt32.toNat_ofNat']
    omega
  rw [get?, hslot, hposition, hat]

theorem slot_lt_size_intern {pool : Pool} {c : Constant}
    (hsize : (pool.intern c).2.size ≤ 4294967296) :
    (pool.intern c).1.toNat < (pool.intern c).2.size :=
  (Array.getElem?_eq_some_iff.mp (get?_intern hsize)).1

end Pool

namespace FunctionBuilder

variable {f : FunctionBuilder}

def stamped (f : FunctionBuilder) (i : Instruction) : Instruction :=
  { i with line := f.line }

theorem emit_ensures (i : Instruction) (f : FunctionBuilder) :
    (emit i).Ensures f fun index f' =>
      index = f.pc ∧ (∃ word, (f.stamped i).encode = .ok word) ∧ f' = f.placed [f.stamped i] := by
  rw [ensures_iff]
  unfold emit
  rw [onCode_apply]
  unfold Code.append
  dsimp only
  generalize haccept : Instruction.accept _ _ _ = outcome
  cases outcome with
  | error error =>
    obtain ⟨fault, rfl⟩ := Instruction.accept_eq_error haccept
    trivial
  | ok word =>
    refine ⟨rfl, ⟨word, Instruction.encode_of_accept haccept⟩, ?_⟩
    simp [placed, stamped, line]

theorem jumpTo_eq_emit (target : Nat) (f : FunctionBuilder) :
    jumpTo target f = emit { op := .jmp, b := Code.displacement f.pc target } f := by
  unfold jumpTo emit
  rw [onCode_apply, onCode_apply]
  rfl

theorem displacement_eq {index target : Nat} (hindex : index < capacity)
    (htarget : target ≤ capacity) : Code.displacement index target = target - (index + 1) := by
  unfold Code.displacement
  unfold capacity at hindex htarget
  exact Int.bmod_eq_of_le (by omega) (by omega)

def replaced (index : Nat) (i : Instruction) (f : FunctionBuilder) : FunctionBuilder :=
  { f with code := { f.code with instructions := f.code.instructions.setIfInBounds index i } }

@[simp] theorem listing_replaced (index : Nat) (i : Instruction) (f : FunctionBuilder) :
    (f.replaced index i).listing = f.listing.set index i := by
  simp [listing, replaced]

@[simp] theorem pc_replaced (index : Nat) (i : Instruction) (f : FunctionBuilder) :
    (f.replaced index i).pc = f.pc := by
  rw [← length_listing, listing_replaced, List.length_set, length_listing]

theorem replaced_placed (code : List Instruction) (k : Nat) (i : Instruction)
    (f : FunctionBuilder) :
    (f.placed code).replaced (f.pc + k) i = f.placed (code.set k i) := by
  have harray : (f.code.instructions ++ code).setIfInBounds (f.pc + k) i =
      f.code.instructions ++ code.set k i := by
    apply Array.toList_inj.mp
    simp [pc, Code.size, List.set_append_right]
  simp [placed, replaced, harray]

def aimed (jump : Instruction) (index target : Nat) : Instruction :=
  { op := jump.op, a := jump.a, b := Code.displacement index target, line := jump.line }

theorem aim_ensures {index target : Nat} {jump : Instruction} (f : FunctionBuilder)
    (hat : f.listing[index]? = some jump) (hjump : jump.op.isJump = true) :
    (aim index target).Ensures f fun _ f' =>
      (∃ word, (aimed jump index target).encode = .ok word) ∧
        f' = f.replaced index (aimed jump index target) := by
  have hget : f.code.get? index = some jump := by
    simpa [listing, Code.get?] using hat
  rw [ensures_iff]
  unfold aim
  rw [onCode_apply]
  unfold Code.aim
  simp only [hget, hjump, ↓reduceIte]
  unfold Code.replace
  simp only [hget]
  generalize haccept : Instruction.accept _ _ _ = outcome
  cases outcome with
  | error error =>
    obtain ⟨fault, rfl⟩ := Instruction.accept_eq_error haccept
    trivial
  | ok word => exact ⟨⟨word, Instruction.encode_of_accept haccept⟩, rfl⟩

theorem aimHere_eq_aim (index : Nat) (f : FunctionBuilder) :
    aimHere index f = aim index f.pc f := by
  unfold aimHere aim
  rw [onCode_apply, onCode_apply]
  rfl

def constantLoad (f : FunctionBuilder) (register : UInt8) (slot : Nat) : List Instruction :=
  if slot ≤ Instruction.maxBx then [f.stamped { op := .loadK, a := register.toNat, b := slot }]
  else [f.stamped { op := .loadKX, a := register.toNat }, f.stamped { op := .extraArg, a := slot }]

theorem flow_constantLoad {f : FunctionBuilder} {head : Option Nat} {base : Nat}
    (register : UInt8) (slot : Nat) : Flow head base (f.constantLoad register slot) [] := by
  unfold constantLoad
  split
  · exact .plain (Instruction.isPlain_of_op rfl)
  · exact .wideLoad rfl rfl

theorem loadConstant_ensures (register : UInt8) (slot : Nat) (f : FunctionBuilder) :
    (loadConstant register slot).Ensures f fun _ f' =>
      (∀ i ∈ f.constantLoad register slot, ∃ word, i.encode = .ok word) ∧
        f' = f.placed (f.constantLoad register slot) := by
  unfold loadConstant constantLoad
  split
  · apply (emit_ensures _ f).mono
    rintro index f' ⟨-, hencode, hplaced⟩
    exact ⟨by simpa using hencode, hplaced⟩
  · split
    · apply (emit_ensures _ f).bind
      rintro index f' ⟨-, hfirst, rfl⟩
      apply (emit_ensures _ _).bind
      rintro _ f'' ⟨-, hsecond, rfl⟩
      refine ensures_pure ⟨?_, by simp [stamped, placed, line]⟩
      intro i hi
      rcases List.mem_pair.mp hi with rfl | rfl
      · exact hfirst
      · exact hsecond
    · exact ensures_get_bind (ensures_throw trivial)

theorem allocate_ensures (f : FunctionBuilder) :
    allocate.Ensures f fun register f' =>
      f.nextFree < maxRegisters ∧ register.toNat = f.nextFree ∧
        f' = { f with
          nextFree := f.nextFree + 1
          highWater := max f.highWater (f.nextFree + 1) } := by
  rw [ensures_iff]
  unfold allocate
  split
  · next register after hrun =>
    split at hrun
    · next hlt =>
      injection hrun with hregister hafter
      subst hregister hafter
      refine ⟨hlt, ?_, rfl⟩
      unfold maxRegisters at hlt
      rw [UInt8.toNat_ofNat']
      omega
    · simp at hrun
  · next error after hrun =>
    split at hrun
    · simp at hrun
    · injection hrun with herror hafter
      subst herror
      trivial

/-- A name that was fresh is still so once its register is taken. -/
theorem bindName_apply (name : String) (startPc : UInt32) (f : FunctionBuilder) :
    bindName name startPc f =
      match f.scopes.checkFresh name f.line with
      | .error error => .error error f
      | .ok _ =>
        match allocate f with
        | .error error f => .error error f
        | .ok register f =>
          .ok register { f with scopes := f.scopes.add { name, register, startPc } } := by
  change (Action.ofExcept (f.scopes.checkFresh name f.line) >>= _) f = _
  rw [bind_apply]
  cases hfresh : f.scopes.checkFresh name f.line with
  | error error => rfl
  | ok _ =>
    change (allocate >>= _) f = _
    rw [bind_apply]
    by_cases hlt : f.nextFree < maxRegisters
    · simp only [allocate, hlt, ↓reduceIte, bind_apply, onScopes_apply, Scopes.declare_apply,
        hfresh]
      rfl
    · simp only [allocate, hlt, ↓reduceIte]

theorem nameRegister_apply (name : String) (register : UInt8) (f : FunctionBuilder) :
    nameRegister name register f =
      match f.scopes.checkFresh name f.line with
      | .error error => .error error f
      | .ok _ => .ok () { f with
          scopes := f.scopes.add { name, register, startPc := .ofNat f.pc, isAlias := true } } := by
  unfold nameRegister
  rw [onScopes_apply, Scopes.declare_apply]
  dsimp only
  cases f.scopes.checkFresh name f.line <;> rfl

theorem parameterStart_le (f : FunctionBuilder) : f.parameterStart.toNat ≤ f.pc := by
  have hword : (UInt32.ofNat f.pc).toNat ≤ f.pc := by
    rw [UInt32.toNat_ofNat']
    exact Nat.mod_le _ _
  unfold parameterStart
  rw [UInt32.toNat_ofNat']
  exact Nat.le_trans (Nat.mod_le _ _) (Nat.le_trans (Nat.sub_le _ _) hword)

theorem Sound.isOwned_iff (h : f.Sound) (register : UInt8) :
    f.scopes.isOwned register = true ↔ register.toNat < f.scopes.count := by
  have hmem : register.toNat ∈ f.scopes.registers ↔ register.toNat < f.scopes.count := by
    rw [h.registers]
    simp
  rw [← hmem, Scopes.mem_registers]
  unfold Scopes.isOwned
  rw [List.any_eq_true]
  constructor
  · rintro ⟨l, hl, hl'⟩
    refine ⟨l, hl, ?_⟩
    rw [Bool.and_eq_true, beq_iff_eq] at hl'
    rw [hl'.1]
  · rintro ⟨l, hl, hl'⟩
    refine ⟨l, hl, ?_⟩
    rw [h.own l hl, UInt8.toNat_inj.mp hl']
    simp

theorem free_of_owned {register : UInt8} (h : f.scopes.isOwned register = true) :
    free register f = .ok () f := by
  simp [free, h]

theorem free_of_newest {register : UInt8} (h : f.scopes.isOwned register = false)
    (hnewest : f.nextFree = register.toNat + 1) :
    free register f = .ok () { f with nextFree := register.toNat } := by
  have hallocated : ¬ f.nextFree < register.toNat := by omega
  have horder : ¬ register.toNat + 1 < f.nextFree := by omega
  simp [free, h, hallocated, horder]

theorem Sound.placed (h : f.Sound) {code : List Instruction}
    (hencodes : ∀ i ∈ code, ∃ word, i.encode = .ok word) : (f.placed code).Sound :=
  { h with
    encodes := by
      intro i hi
      rw [listing_placed] at hi
      rcases List.mem_append.mp hi with hi | hi
      · exact h.encodes i hi
      · exact hencodes i hi
    parked := by
      intro p hp
      have := h.parked p hp
      rw [pc_placed]
      omega
    heads := by
      intro loop hloop
      have ⟨hcontinues, head, hhead, hle⟩ := h.heads loop hloop
      rw [pc_placed]
      exact ⟨hcontinues, head, hhead, by omega⟩
    started := by
      intro l hl
      have hstarted := h.started l hl
      rw [pc_placed]
      exact ⟨by omega, hstarted.2⟩
    logged := by
      intro r hr
      have := h.logged r hr
      rw [pc_placed]
      omega }

theorem extends_of_code_eq {head : Option Nat} {f' : FunctionBuilder} (hsound : f'.Sound)
    (hname : f'.name = f.name) (houter : f'.outerLevel = f.outerLevel)
    (hfirst : f'.firstLine = f.firstLine) (hparams : f'.paramCount = f.paramCount)
    (hvararg : f'.isVararg = f.isVararg) (hcode : f'.code = f.code)
    (hhigh : f.highWater ≤ f'.highWater) (hupvalues : f.upvalues <+: f'.upvalues)
    {weight : Nat} (hconstants : f.constants.toList <+: f'.constants.toList)
    (hsize : f'.constants.size ≤ f.constants.size + weight)
    (hchildren : f.children.toList <+: f'.children.toList) :
    Extends head [] weight f f' where
  name := hname
  outerLevel := houter
  firstLine := hfirst
  paramCount := hparams
  isVararg := hvararg
  sections := by rw [hcode]
  highWater := hhigh
  upvalues := hupvalues
  constants := hconstants
  children := hchildren
  code := ⟨[], by simp [listing, hcode], .nil⟩
  pc_le := by simp [pc, hcode]
  constants_le := hsize
  sound := hsound

theorem extends_withRegisters {head : Option Nat} (h : f.Sound) {next high : Nat}
    (hcount : f.scopes.count ≤ next) (hnext : next ≤ high) (hle : f.highWater ≤ high)
    (hhigh : high ≤ maxRegisters) :
    Extends head [] 0 f { f with nextFree := next, highWater := high } := by
  have hsound : Sound { f with nextFree := next, highWater := high } :=
    { h with
      count_le := hcount
      nextFree_le := hnext
      highWater_le := hhigh }
  exact extends_of_code_eq (f := f) hsound rfl rfl rfl rfl rfl rfl hle List.prefix_rfl
    List.prefix_rfl (Nat.le_add_right _ _) List.prefix_rfl

theorem extends_interned {head : Option Nat} (h : f.Sound) (c : Constant) :
    Extends head [] 1 f { f with constants := (f.constants.intern c).2 } := by
  have hsound : Sound { f with constants := (f.constants.intern c).2 } := { h with }
  exact extends_of_code_eq (f := f) hsound rfl rfl rfl rfl rfl rfl (Nat.le_refl _) List.prefix_rfl
    (f.constants.prefix_intern c) (f.constants.size_intern_le c) List.prefix_rfl

theorem Captures.sound {f' : FunctionBuilder} (h : f.Captures f') (hsound : f.Sound) :
    f'.Sound := by
  obtain ⟨captured, rfl⟩ := h
  exact { hsound with }

theorem Captures.extends {head : Option Nat} {f' : FunctionBuilder} (h : f.Captures f')
    (hsound : f.Sound) : Extends head [] 0 f f' := by
  have hsound' := h.sound hsound
  obtain ⟨captured, rfl⟩ := h
  exact extends_of_code_eq (f := f) hsound' rfl rfl rfl rfl rfl rfl (Nat.le_refl _)
    (List.prefix_append _ _) List.prefix_rfl (Nat.le_add_right _ _) List.prefix_rfl

theorem extends_placed {head : Option Nat} {pending : List Nat} {code : List Instruction}
    {weight : Nat} (h : f.Sound) (hencodes : ∀ i ∈ code, ∃ word, i.encode = .ok word)
    (hflow : Flow head f.pc code pending) (hweight : code.length ≤ weight) :
    Extends head pending weight f (f.placed code) where
  name := rfl
  outerLevel := rfl
  firstLine := rfl
  paramCount := rfl
  isVararg := rfl
  sections := rfl
  highWater := Nat.le_refl _
  upvalues := List.prefix_rfl
  constants := List.prefix_rfl
  children := List.prefix_rfl
  code := ⟨code, listing_placed code f, hflow⟩
  pc_le := by
    rw [pc_placed]
    omega
  constants_le := Nat.le_add_right _ _
  sound := h.placed hencodes

theorem Sound.replaced (h : f.Sound) {index : Nat} {i : Instruction}
    (hencode : ∃ word, i.encode = .ok word) : (f.replaced index i).Sound :=
  { h with
    encodes := by
      intro j hj
      rw [listing_replaced] at hj
      rcases List.mem_or_eq_of_mem_set hj with hj | rfl
      · exact h.encodes j hj
      · exact hencode
    parked := by
      rw [pc_replaced]
      exact h.parked
    heads := by
      rw [pc_replaced]
      exact h.heads
    started := by
      rw [pc_replaced]
      exact h.started
    logged := by
      rw [pc_replaced]
      exact h.logged }

theorem aim_extends {head : Option Nat} {pending pending' : List Nat} {weight p : Nat}
    {f' : FunctionBuilder} (h : Extends head pending weight f f') (hcapacity : f'.pc ≤ capacity)
    (hwait : p ∈ pending) (hrest : ∀ q ∈ pending, q = p ∨ q ∈ pending')
    (hsub : ∀ q ∈ pending', q ∈ pending) :
    (aim p f'.pc).Ensures f' fun _ f'' =>
      Extends head pending' weight f f'' ∧ ∃ i, f'' = f'.replaced p i := by
  obtain ⟨code, hcode, hflow⟩ := h.code
  obtain ⟨k, jump, rfl, hjump, hop⟩ := hflow.waiting p hwait
  have hlt : k < code.length := (List.getElem?_eq_some_iff.mp hjump).1
  have hpc : f'.pc = f.pc + code.length := by
    rw [← length_listing, hcode, List.length_append, length_listing]
  have hat : f'.listing[f.pc + k]? = some jump := by
    rw [hcode, List.getElem?_append_right (by simp), length_listing, Nat.add_sub_cancel_left, hjump]
  apply (aim_ensures f' hat (by rw [hop]; rfl)).mono
  rintro _ _ ⟨hencode, rfl⟩
  refine ⟨?_, _, rfl⟩
  have hlisting : (f'.replaced (f.pc + k) (aimed jump (f.pc + k) f'.pc)).listing =
      f.listing ++ code.set k (aimed jump (f.pc + k) f'.pc) := by
    rw [listing_replaced, hcode, List.set_append_right _ _ (by simp), length_listing,
      Nat.add_sub_cancel_left]
  have htarget : (f'.pc : Int) = f.pc + k + 1 + (aimed jump (f.pc + k) f'.pc).b := by
    have hdisplacement : Code.displacement (f.pc + k) f'.pc = f'.pc - ((f.pc + k : Nat) + 1) :=
      displacement_eq (by omega) hcapacity
    simp only [aimed, hdisplacement]
    omega
  exact { h with
    code := ⟨_, hlisting, hflow.aim hwait hop htarget
      (.inr ⟨code.length, Nat.le_refl _, hpc, hflow.clear_length⟩) hrest hsub⟩
    pc_le := by
      rw [pc_replaced]
      exact h.pc_le
    sound := h.sound.replaced hencode }

theorem intern_apply (c : Constant) (f : FunctionBuilder) :
    intern c f = .ok (f.constants.intern c).1 { f with constants := (f.constants.intern c).2 } :=
  onConstants_apply _ f

end FunctionBuilder

end RegisterCode
