import RegisterCode.Proofs.ControlMeaning
import RegisterCode.Proofs.DefiniteWrites

/-! Functions under construction whose instructions find what they read. While a function
grows, its old instructions keep what they had, and the code behind them starts with all
that was set at the end. -/
namespace RegisterCode

open Action

namespace Instruction

variable {i : Instruction} {r : Nat}

theorem reads_kept : i.kept.Reads r ↔ i.Reads r := by
  obtain ⟨op, a, b, c, line⟩ := i
  cases op <;> rfl

theorem writes_kept : i.kept.Writes r ↔ i.Writes r := by
  obtain ⟨op, a, b, c, line⟩ := i
  cases op <;> rfl

theorem LeadsTo.of_kept {k next : Nat} (h : i.kept.LeadsTo k next) : i.LeadsTo k next := by
  obtain ⟨code, hat, j, hj, hnext⟩ := h
  obtain rfl : i.kept = j := Option.some.inj (hat.symm.trans hj)
  have hk : k < code.length := (List.getElem?_eq_some_iff.mp hat).1
  refine ⟨code.set k i, List.getElem?_set_self hk, i, List.getElem?_set_self hk, ?_⟩
  obtain ⟨op, a, b, c, line⟩ := i
  cases op <;> exact hnext

theorem kept_a (i : Instruction) : i.kept.a = i.a := by
  unfold kept
  split <;> rfl

end Instruction

theorem SetAt.kept {params k r : Nat} {code : List Instruction} (h : SetAt params code k r) :
    SetAt params (code.map Instruction.kept) k r := by
  refine setAt_of_invariant (SetAt params code · r) SetAt.at_start ?_ h
  intro k next hnext hset
  obtain ⟨i, hat, hleads⟩ := successor_iff.mp hnext
  rw [List.getElem?_map] at hat
  obtain ⟨old, hold, rfl⟩ := Option.map_eq_some_iff.mp hat
  refine (hset.before (successor_iff.mpr ⟨old, hold, hleads.of_kept⟩)).imp_right ?_
  rintro ⟨j, hj, hwrites⟩
  exact ⟨j.kept, by rw [List.getElem?_map, hj]; rfl, Instruction.writes_kept.mpr hwrites⟩

def Loops.heads (loops : Loops) : List (Option Nat) :=
  loops.stack.map Loop.continueTarget

theorem Loops.mem_heads_of_head? {loops : Loops} {head : Nat} (h : loops.head? = some head) :
    some head ∈ loops.heads := by
  obtain ⟨_ | ⟨loop, outer⟩⟩ := loops
  · cases h
  · exact List.mem_cons.mpr (.inl h.symm)

@[simp] theorem Loops.heads_withBreaks (breaks : List Nat) (loops : Loops) :
    (loops.withBreaks breaks).heads = loops.heads := by
  obtain ⟨_ | ⟨loop, outer⟩⟩ := loops <;> rfl

/-- Every instruction of the function reads only registers that are set, and a closure that
it makes shares only such, but for the register that the closure is put into. -/
def Prototype.Supplied (p : Prototype) : Prop :=
  ∃ code, p.code.mapM Instruction.decode = .ok code ∧
    ∀ (k : Nat) (i : Instruction), code[k]? = some i →
      (∀ r, i.Reads r → SetAt p.paramCount.toNat code k r) ∧
        ∀ r, p.SharesAt code k r → SetAt p.paramCount.toNat code k r ∨ i.a = r

namespace FunctionBuilder

variable {f f' f'' : FunctionBuilder} {k r p : Nat} {i : Instruction} {block : List Instruction}

/-- Register `r` is a parameter, or is written on every way to index `k` so far. -/
def IsSet (f : FunctionBuilder) (k r : Nat) : Prop :=
  SetAt f.paramCount.toNat f.listing k r

def Supplies (f : FunctionBuilder) (k : Nat) (i : Instruction) : Prop :=
  (∀ r, i.Reads r → f.IsSet k r) ∧
    (i.op = .closure → ∃ child, f.children.toList[i.b.toNat]? = some child ∧
      ∀ up ∈ child.upvalues, up.inStack = true →
        f.IsSet k up.index.toNat ∨ i.a = up.index.toNat)

/-- Code was only added, and everywhere in it is set what was at the end of the old. -/
structure Carries (f f' : FunctionBuilder) : Prop where
  paramCount : f'.paramCount = f.paramCount
  listing : f.listing <+: f'.listing
  set : ∀ k r, k ≤ f'.pc → f.IsSet (min k f.pc) r → f'.IsSet k r

/-- All instructions of a function are supplied, those of the functions inside it too, and
a jump back to the head of an open loop takes along what is set there. -/
structure Tracked (f : FunctionBuilder) : Prop where
  closed : Closed f.listing
  supplied : ∀ k i, f.listing[k]? = some i → f.Supplies k i
  children : ∀ child ∈ f.children.toList, ∀ p : Prototype, p.Within child → p.Supplied
  homes : ∀ head, some head ∈ f.loops.heads → ∀ r, f.IsSet head r → f.IsSet f.pc r

theorem supplies_of_reads (hop : i.op ≠ .closure) (h : ∀ r, i.Reads r → f.IsSet k r) :
    f.Supplies k i :=
  ⟨h, fun hclosure => absurd hclosure hop⟩

theorem setAt_comparison {params : Nat} {op : Opcode} (htest : op.isTest = true)
    {expected : Bool} {x y : Int} {target : UInt8} :
    SetAt params (f.comparison op expected x y target) 4 target.toNat := by
  refine setAt_length (f.comparison op expected x y target) (List.cons_ne_nil _ _) ?_
  intro k i hat hlead
  have hlead' : i.LeadsTo k 4 := hlead
  rcases k with _ | _ | _ | _ | k
  · obtain rfl := Option.some.inj hat
    have hnext := hlead'.of_test htest
    omega
  · obtain rfl := Option.some.inj hat
    have hnext := hlead'.of_jmp rfl
    simp only [stamped] at hnext
    omega
  · obtain rfl := Option.some.inj hat
    rfl
  · obtain rfl := Option.some.inj hat
    rfl
  · simp [FunctionBuilder.comparison] at hat

/-- A constant is loaded by one instruction, or by one with an extra argument behind it that
control never gets to. -/
theorem setAt_constantLoad {params : Nat} (target : UInt8) (slot : Nat) :
    SetAt params (f.constantLoad target slot) (f.constantLoad target slot).length
      target.toNat := by
  have hfirst : WritesAt (f.constantLoad target slot) target.toNat 0 := by
    unfold WritesAt constantLoad
    split <;> exact ⟨_, rfl, rfl⟩
  refine setAt_of_invariant (0 < ·) (fun hstart => absurd hstart (Nat.lt_irrefl 0)) ?_ ?_
  · rintro (_ | k) next - -
    · exact .inr hfirst
    · exact .inl (Nat.succ_pos k)
  · unfold constantLoad
    split <;> simp

namespace Carries

theorem of_same (hparams : f'.paramCount = f.paramCount) (hlisting : f'.listing = f.listing) :
    f.Carries f' where
  paramCount := hparams
  listing := hlisting ▸ List.prefix_rfl
  set := by
    intro k r hk hset
    have hpc : f'.pc = f.pc := by rw [← length_listing, hlisting, length_listing]
    rw [Nat.min_eq_left (hpc ▸ hk)] at hset
    rwa [IsSet, hparams, hlisting]

theorem pc_le (h : f.Carries f') : f.pc ≤ f'.pc := by
  rw [← length_listing, ← length_listing]
  exact h.listing.length_le

theorem trans (h : f.Carries f') (h' : f'.Carries f'') : f.Carries f'' where
  paramCount := h'.paramCount.trans h.paramCount
  listing := h.listing.trans h'.listing
  set := by
    intro k r hk hset
    have hle := h.pc_le
    apply h'.set k r hk
    apply h.set _ r (Nat.min_le_right _ _)
    rwa [Nat.min_assoc, Nat.min_eq_right hle]

theorem from_same (h : f'.Carries f'') (hparams : f'.paramCount = f.paramCount)
    (hlisting : f'.listing = f.listing) : f.Carries f'' :=
  (of_same hparams hlisting).trans h

theorem onward (h : f.Carries f') (hset : f.IsSet f.pc r) (hk : f.pc ≤ k) (hle : k ≤ f'.pc) :
    f'.IsSet k r := by
  apply h.set k r hle
  rwa [Nat.min_eq_right hk]

theorem at_end (h : f.Carries f') (hset : f.IsSet f.pc r) : f'.IsSet f'.pc r :=
  h.onward hset h.pc_le (Nat.le_refl _)

theorem isSet_of (h : f.Carries f') (hset : f'.IsSet k r) : f.IsSet k r := by
  obtain ⟨block, hblock⟩ := h.listing
  rw [IsSet, h.paramCount, ← hblock] at hset
  exact hset.of_append

theorem supplies (h : f.Carries f') (hchildren : f.children.toList <+: f'.children.toList)
    (hk : k ≤ f'.pc) (hsupplies : f.Supplies (min k f.pc) i) : f'.Supplies k i := by
  refine ⟨fun r hr => h.set k r hk (hsupplies.1 r hr), fun hop => ?_⟩
  obtain ⟨child, hchild, hshared⟩ := hsupplies.2 hop
  obtain ⟨more, hmore⟩ := hchildren
  refine ⟨child, ?_, fun up hup hstack => (hshared up hup hstack).imp_left (h.set k _ hk)⟩
  rw [← hmore, List.getElem?_append_left (List.getElem?_eq_some_iff.mp hchild).1, hchild]

theorem homes (h : f.Carries f') (htracked : f.Tracked) (hheads : f'.loops.heads = f.loops.heads)
    (head : Nat) (hhead : some head ∈ f'.loops.heads) (r : Nat) (hset : f'.IsSet head r) :
    f'.IsSet f'.pc r :=
  h.at_end (htracked.homes head (hheads ▸ hhead) r (h.isSet_of hset))

end Carries

theorem lt_pc (hat : f.listing[k]? = some i) : k < f.pc := by
  rw [← length_listing]
  exact (List.getElem?_eq_some_iff.mp hat).1

namespace Tracked

theorem adopt (h : f.Tracked) (hparams : f'.paramCount = f.paramCount)
    (hlisting : f'.listing = f.listing) (hmore : f.children.toList <+: f'.children.toList)
    (hchildren : ∀ child ∈ f'.children.toList, ∀ p : Prototype, p.Within child → p.Supplied)
    (hheads : f'.loops.heads = f.loops.heads) : f'.Tracked where
  closed := by
    rw [hlisting]
    exact h.closed
  supplied := by
    intro k i hat
    have hcarries := Carries.of_same hparams hlisting
    have hk := Nat.le_of_lt (lt_pc hat)
    rw [hlisting] at hat
    apply hcarries.supplies hmore hk
    rw [Nat.min_eq_left (Nat.le_of_lt (lt_pc hat))]
    exact h.supplied k i hat
  children := hchildren
  homes := (Carries.of_same hparams hlisting).homes h hheads

theorem of_same (h : f.Tracked) (hparams : f'.paramCount = f.paramCount)
    (hlisting : f'.listing = f.listing) (hchildren : f'.children = f.children)
    (hheads : f'.loops.heads = f.loops.heads) : f'.Tracked := by
  refine h.adopt hparams hlisting (hchildren ▸ List.prefix_rfl) ?_ hheads
  rw [hchildren]
  exact h.children

/-- All that is set at the head of a loop that opens is set at the end of the code, for they
are the same. -/
theorem openLoop (h : f.Tracked) : (f.openLoop (some f.pc)).Tracked where
  closed := h.closed
  supplied := h.supplied
  children := h.children
  homes := by
    intro head hhead r hset
    rcases List.mem_cons.mp hhead with hnew | houter
    · obtain rfl : head = f.pc := Option.some.inj hnew
      exact hset
    · exact h.homes head houter r hset

/-- Code is placed that finds its registers set and goes on inside itself or behind it; a
jump back comes along with all that is set where it goes. -/
theorem placed (h : f.Tracked) (hsupplies : ∀ i ∈ block, f.Supplies f.pc i)
    (hleads : ∀ (j : Nat) (i : Instruction) (next : Nat), block[j]? = some i →
      i.LeadsTo (f.pc + j) next →
      next ≤ f.pc + block.length ∧ (next ≤ f.pc → ∀ r, f.IsSet next r → f.IsSet f.pc r)) :
    f.Carries (f.placed block) ∧ (f.placed block).Tracked := by
  have hin : ∀ k next, f.listing.length ≤ k → Successor (f.listing ++ block) k next →
      next ≤ f.pc + block.length ∧ (next ≤ f.pc → ∀ r, f.IsSet next r → f.IsSet f.pc r) := by
    intro k next hk hnext
    obtain ⟨j, i, rfl, hat, hlead⟩ := hnext.in_block hk
    rw [length_listing] at hlead
    exact hleads j i next hat hlead
  have hcarries : f.Carries (f.placed block) := {
    paramCount := rfl
    listing := by
      rw [listing_placed]
      exact List.prefix_append _ _
    set := by
      intro k r _ hset
      rw [IsSet, listing_placed]
      apply SetAt.append h.closed
      · intro k next hk hnext hle hset'
        rw [length_listing] at hle ⊢
        exact (hin k next hk hnext).2 hle r hset'
      · rwa [length_listing] }
  refine ⟨hcarries, ?_, ?_, h.children, hcarries.homes h rfl⟩
  · rw [listing_placed]
    apply h.closed.append
    intro k next hk hnext
    rw [length_listing]
    exact (hin k next hk hnext).1
  · intro k i hat
    apply hcarries.supplies List.prefix_rfl (Nat.le_of_lt (lt_pc hat))
    rw [listing_placed] at hat
    by_cases hk : k < f.pc
    · rw [List.getElem?_append_left (by rwa [length_listing])] at hat
      rw [Nat.min_eq_left (Nat.le_of_lt hk)]
      exact h.supplied k i hat
    · rw [List.getElem?_append_right (by rwa [length_listing, ← Nat.not_lt])] at hat
      rw [Nat.min_eq_right (Nat.le_of_not_lt hk)]
      exact hsupplies i (List.mem_of_getElem? hat)

theorem flows (h : f.Tracked) (hflow : Flow none f.pc block [])
    (hsupplies : ∀ i ∈ block, f.Supplies f.pc i) :
    f.Carries (f.placed block) ∧ (f.placed block).Tracked := by
  apply h.placed hsupplies
  intro j i next hat hlead
  obtain ⟨m, hm, rfl⟩ := hflow.leadsTo hat hlead
  refine ⟨by omega, fun hle r hset => ?_⟩
  obtain rfl : m = 0 := by omega
  exact hset

theorem sets (h : f.Tracked) (hset : SetAt 0 block k r) :
    (f.placed block).IsSet (f.pc + k) r := by
  rw [IsSet, listing_placed, ← length_listing]
  exact hset.prepend h.closed

theorem fall (h : f.Tracked) (hfalls : i.Falls) (hsupplies : f.Supplies f.pc i) :
    f.Carries (f.placed [i]) ∧ (f.placed [i]).Tracked ∧
      ∀ r, i.Writes r → (f.placed [i]).IsSet (f.pc + 1) r := by
  have hplaced : f.Carries (f.placed [i]) ∧ (f.placed [i]).Tracked := by
    apply h.placed (by simpa using hsupplies)
    intro j i' next hat hlead
    rcases j with _ | j
    · obtain rfl : i = i' := Option.some.inj hat
      obtain rfl := hfalls _ _ hlead
      exact ⟨by simp, fun hle => absurd hle (by omega)⟩
    · simp at hat
  exact ⟨hplaced.1, hplaced.2, fun r hwrites => h.sets (setAt_single hwrites)⟩

theorem testJump (h : f.Tracked) {test jump : Instruction} (htest : test.op.isTest = true)
    (hop : jump.op = .jmp) (hb : jump.b = 0) (hsupplies : f.Supplies f.pc test) :
    f.Carries (f.placed [test, jump]) ∧ (f.placed [test, jump]).Tracked := by
  apply h.placed
  · have hreads : f.Supplies f.pc jump :=
      supplies_of_reads (by simp [hop]) (by simp [Instruction.Reads, hop])
    simpa using ⟨hsupplies, hreads⟩
  · intro j i next hat hlead
    rcases j with _ | _ | j
    · obtain rfl : test = i := Option.some.inj hat
      have hnext := hlead.of_test htest
      simp only [List.length_cons, List.length_nil]
      omega
    · obtain rfl : jump = i := Option.some.inj hat
      have hnext := Instruction.falls_jmp hop hb _ _ hlead
      simp only [List.length_cons, List.length_nil]
      omega
    · simp at hat

theorem jump (h : f.Tracked) {jump : Instruction} (hop : jump.op = .jmp) (hb : jump.b = 0) :
    f.Carries (f.placed [jump]) ∧ (f.placed [jump]).Tracked := by
  have hsupplies : f.Supplies f.pc jump :=
    supplies_of_reads (by simp [hop]) (by simp [Instruction.Reads, hop])
  obtain ⟨hcarries, htracked, -⟩ := h.fall (Instruction.falls_jmp hop hb) hsupplies
  exact ⟨hcarries, htracked⟩

theorem comparison (h : f.Tracked) {op : Opcode} (htest : op.isTest = true) {expected : Bool}
    {x y : Int} {target : UInt8}
    (hsupplies : f.Supplies f.pc { op, a := expected.toNat, b := x, c := y }) :
    f.Carries (f.placed (f.comparison op expected x y target)) ∧
      (f.placed (f.comparison op expected x y target)).Tracked ∧
      (f.placed (f.comparison op expected x y target)).IsSet (f.pc + 4) target.toNat := by
  have hnone : ∀ i : Instruction, i.op = .jmp ∨ i.op = .loadBool → f.Supplies f.pc i := by
    rintro i (hop | hop) <;>
      exact supplies_of_reads (by simp [hop]) (by simp [Instruction.Reads, hop])
  have hplaced : f.Carries (f.placed (f.comparison op expected x y target)) ∧
      (f.placed (f.comparison op expected x y target)).Tracked := by
    apply h.flows (.compare htest rfl rfl rfl rfl rfl)
    simp only [List.forall_mem_cons]
    exact ⟨hsupplies, hnone _ (.inl rfl), hnone _ (.inr rfl), hnone _ (.inr rfl), by simp⟩
  exact ⟨hplaced.1, hplaced.2, h.sets (setAt_comparison htest)⟩

theorem constantLoad (h : f.Tracked) (target : UInt8) (slot : Nat) :
    f.Carries (f.placed (f.constantLoad target slot)) ∧
      (f.placed (f.constantLoad target slot)).Tracked ∧
      (f.placed (f.constantLoad target slot)).IsSet
        (f.pc + (f.constantLoad target slot).length) target.toNat := by
  have hnone : ∀ i ∈ f.constantLoad target slot, f.Supplies f.pc i := by
    intro i hi
    have hop : i.op = .loadK ∨ i.op = .loadKX ∨ i.op = .extraArg := by
      unfold FunctionBuilder.constantLoad at hi
      split at hi
      · obtain rfl := List.mem_singleton.mp hi
        exact .inl rfl
      · rcases List.mem_pair.mp hi with rfl | rfl
        · exact .inr (.inl rfl)
        · exact .inr (.inr rfl)
    rcases hop with hop | hop | hop <;>
      exact supplies_of_reads (by simp [hop]) (by simp [Instruction.Reads, hop])
  have hplaced := h.flows (flow_constantLoad target slot) hnone
  exact ⟨hplaced.1, hplaced.2, h.sets (setAt_constantLoad target slot)⟩

theorem jumpBack (h : f.Tracked) {head : Nat} (hhead : some head ∈ f.loops.heads)
    (hcapacity : f.pc < capacity) (hle : head ≤ f.pc) :
    f.Carries (f.placed [f.jumpBack head]) ∧ (f.placed [f.jumpBack head]).Tracked := by
  apply h.placed
  · have hreads : f.Supplies f.pc (f.jumpBack head) :=
      supplies_of_reads nofun fun r hr => False.elim hr
    simpa using hreads
  · intro j i next hat hlead
    rcases j with _ | j
    · obtain rfl := Option.some.inj hat
      have hnext := hlead.of_jmp rfl
      have htarget := jumpBack_target hcapacity hle
      obtain rfl : next = head := by omega
      exact ⟨by omega, fun _ => h.homes next hhead⟩
    · simp at hat

theorem aimed (h : f.Tracked) (hcarries : f.Carries f') (h' : f'.Tracked)
    (hheads : f'.loops.heads = f.loops.heads) {jump : Instruction} (hp : f.pc ≤ p)
    (hat : f'.listing[p]? = some jump) (hop : jump.op = .jmp) (hcapacity : f'.pc ≤ capacity) :
    f.Carries (f'.replaced p (FunctionBuilder.aimed jump p f'.pc)) ∧
      (f'.replaced p (FunctionBuilder.aimed jump p f'.pc)).Tracked := by
  have hlt := lt_pc hat
  have hlt' : p < f'.listing.length := by rwa [length_listing]
  have htarget : (f'.listing.length : Int) = p + 1 + (FunctionBuilder.aimed jump p f'.pc).b := by
    have hdisplacement := displacement_eq (Nat.lt_of_lt_of_le hlt hcapacity) hcapacity
    simp only [FunctionBuilder.aimed, length_listing, hdisplacement]
    omega
  -- only the end gets a new way to it, and that way comes from the jump
  have hset : ∀ k r, f'.IsSet k r → (k = f'.pc → f'.IsSet p r) →
      (f'.replaced p (FunctionBuilder.aimed jump p f'.pc)).IsSet k r := by
    intro k r hset hjump
    rw [IsSet, listing_replaced]
    refine SetAt.aim hlt' hop htarget hset fun hk => hjump ?_
    rwa [length_listing] at hk
  have hall : f.Carries (f'.replaced p (FunctionBuilder.aimed jump p f'.pc)) := {
    paramCount := hcarries.paramCount
    listing := by
      obtain ⟨block, hblock⟩ := hcarries.listing
      rw [listing_replaced, ← hblock, List.set_append_right _ _ (by rwa [length_listing])]
      exact List.prefix_append _ _
    set := by
      intro k r hk hsome
      rw [pc_replaced] at hk
      refine hset k r (hcarries.set k r hk hsome) fun hend => ?_
      rw [hend, Nat.min_eq_right hcarries.pc_le] at hsome
      exact hcarries.onward hsome hp (Nat.le_of_lt hlt) }
  refine ⟨hall, ?_, ?_, h'.children, hall.homes h hheads⟩
  · rw [listing_replaced]
    exact h'.closed.aim hlt' hop htarget
  · intro k i hi
    have hk := lt_pc hi
    rw [pc_replaced] at hk
    have hkept : ∀ r, f'.IsSet k r →
        (f'.replaced p (FunctionBuilder.aimed jump p f'.pc)).IsSet k r :=
      fun r hr => hset k r hr fun hend => absurd hend (by omega)
    rw [listing_replaced] at hi
    by_cases hpk : p = k
    · rw [← hpk, List.getElem?_set_self hlt'] at hi
      obtain rfl := Option.some.inj hi
      exact supplies_of_reads (by simp [FunctionBuilder.aimed, hop])
        (by simp [Instruction.Reads, FunctionBuilder.aimed, hop])
    · rw [List.getElem?_set_ne hpk] at hi
      obtain ⟨hreads, hshares⟩ := h'.supplied k i hi
      refine ⟨fun r hr => hkept r (hreads r hr), fun hclosure => ?_⟩
      obtain ⟨child, hchild, hshared⟩ := hshares hclosure
      exact ⟨child, hchild, fun up hup hstack => (hshared up hup hstack).imp_left (hkept _)⟩

theorem aimedAll (h : f.Tracked) {breaks : List Nat} {here : Nat} (hcarries : f.Carries f')
    (h' : f'.Tracked) (hheads : f'.loops.heads = f.loops.heads)
    (hjumps : ∀ p ∈ breaks, f.pc ≤ p ∧ ∃ jump, f'.listing[p]? = some jump ∧ jump.op = .jmp)
    (hrun : (breaks.forM (aim · here)) f' = .ok () f'') (hhere : f'.pc = here)
    (hcapacity : here ≤ capacity) : f.Carries f'' ∧ f''.Tracked := by
  induction breaks generalizing f' with
  | nil =>
    obtain ⟨-, rfl⟩ := pure_eq_ok.mp hrun
    exact ⟨hcarries, h'⟩
  | cons p rest ih =>
    rw [List.forM_eq_forM, List.forM_cons] at hrun
    obtain ⟨_, f₁, haim, hrest⟩ := bind_eq_ok.mp hrun
    obtain ⟨hle, jump, hat, hop⟩ := hjumps p (by simp)
    obtain ⟨-, rfl⟩ := (aim_ensures f' hat (by rw [hop]; rfl)).of_ok haim
    subst hhere
    obtain ⟨hcarries₁, htracked₁⟩ := h.aimed hcarries h' hheads hle hat hop hcapacity
    exact ih hcarries₁ htracked₁ hheads (jumps_replaced hjumps hat hop) hrest (pc_replaced _ _ _)

theorem supplied_of_finish (h : f.Tracked) (hsound : f.Sound) {lastLine : UInt32}
    {main : Prototype} (hfinish : f.finish lastLine = .ok main) {q : Prototype}
    (hwithin : q.Within main) : q.Supplied := by
  obtain ⟨words, hwords, -, rfl⟩ := prototype_of_finish hfinish
  cases hwithin with
  | nested hchild hinner => exact h.children _ hchild q hinner
  | self =>
    obtain ⟨words', hwords', hdecode, -⟩ := Instruction.mapM_encode f.listing hsound.encodes
    obtain rfl : words = words' := Except.ok.inj (hwords.symm.trans hwords')
    refine ⟨_, hdecode, fun k i hat => ?_⟩
    have hkept := hat
    rw [List.getElem?_map] at hkept
    obtain ⟨old, hold, rfl⟩ := Option.map_eq_some_iff.mp hkept
    obtain ⟨hreads, hshares⟩ := h.supplied k old hold
    refine ⟨fun r hr => (hreads r (Instruction.reads_kept.mp hr)).kept, ?_⟩
    rintro _ ⟨j, child, up, hj, hop, hchild, hup, hstack, rfl⟩
    obtain rfl : old.kept = j := Option.some.inj (hat.symm.trans hj)
    rw [Instruction.kept_op] at hop
    obtain ⟨child', hchild', hshared⟩ := hshares hop
    have hsame : old.kept.b = old.b := by
      rw [Instruction.kept, hop]
      rfl
    rw [hsame] at hchild
    obtain rfl : child = child' := Option.some.inj (hchild.symm.trans hchild')
    rw [Instruction.kept_a]
    exact (hshared up hup hstack).imp_left SetAt.kept

end Tracked

end FunctionBuilder

end RegisterCode
