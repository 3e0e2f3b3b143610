import RegisterCode.Proofs.OpenUpvalues

/-! Registers that are written on every way to an instruction. Code that is added goes on
from where it starts, and a jump is aimed where what its own way wrote is enough, so what
was written on every way to the end of the code stays so while the code grows. -/
namespace RegisterCode

/-- Control gets from the first instruction to index `k`, through the instructions at the
indices `before`, the latest first. -/
inductive Arrives (code : List Instruction) : List Nat → Nat → Prop
  | start : Arrives code [] 0
  | step {before : List Nat} {k next : Nat} : Arrives code before k → Successor code k next →
      Arrives code (k :: before) next

/-- Register `r` is a parameter, or every way to index `k` writes it. -/
def SetAt (params : Nat) (code : List Instruction) (k r : Nat) : Prop :=
  ∀ before, Arrives code before k → r < params ∨ ∃ j ∈ before, WritesAt code r j

/-- Control leads nowhere but into the code or right behind it. -/
def Closed (code : List Instruction) : Prop :=
  ∀ k next, Successor code k next → next ≤ code.length

namespace Instruction

variable {i : Instruction} {k next : Nat}

def LeadsTo (i : Instruction) (k next : Nat) : Prop :=
  ∃ code : List Instruction, code[k]? = some i ∧ Successor code k next

def Falls (i : Instruction) : Prop :=
  ∀ k next, i.LeadsTo k next → next = k + 1

theorem LeadsTo.of_jmp (h : i.LeadsTo k next) (hop : i.op = .jmp) :
    (next : Int) = k + 1 + i.b := by
  obtain ⟨code, hat, j, hj, hnext⟩ := h
  obtain rfl : i = j := Option.some.inj (hat.symm.trans hj)
  rwa [hop] at hnext

theorem LeadsTo.of_jump (h : i.LeadsTo k next) (hop : i.op.isJump = true) :
    next = k + 1 ∨ (next : Int) = k + 1 + i.b := by
  obtain ⟨code, hat, j, hj, hnext⟩ := h
  obtain rfl : i = j := Option.some.inj (hat.symm.trans hj)
  rcases Opcode.isJump_cases hop with hi | hi | hi | hi <;> rw [hi] at hnext <;>
    first | exact hnext | exact .inr hnext

theorem LeadsTo.of_test (h : i.LeadsTo k next) (hop : i.op.isTest = true) :
    next = k + 1 ∨ next = k + 2 := by
  obtain ⟨code, hat, j, hj, hnext⟩ := h
  obtain rfl : i = j := Option.some.inj (hat.symm.trans hj)
  cases hi : i.op <;> rw [hi] at hop hnext <;> first | exact hnext | exact absurd hop (by decide)

theorem LeadsTo.of_loadBool (h : i.LeadsTo k next) (hop : i.op = .loadBool) :
    next = if i.c = 0 then k + 1 else k + 2 := by
  obtain ⟨code, hat, j, hj, hnext⟩ := h
  obtain rfl : i = j := Option.some.inj (hat.symm.trans hj)
  rwa [hop] at hnext

theorem LeadsTo.of_loadKX (h : i.LeadsTo k next) (hop : i.op = .loadKX) : next = k + 2 := by
  obtain ⟨code, hat, j, hj, hnext⟩ := h
  obtain rfl : i = j := Option.some.inj (hat.symm.trans hj)
  rwa [hop] at hnext

theorem falls_extraArg (hop : i.op = .extraArg) : i.Falls := by
  rintro k next ⟨code, hat, j, hj, hnext⟩
  obtain rfl : i = j := Option.some.inj (hat.symm.trans hj)
  rwa [hop] at hnext

theorem falls_of_isPlain (h : i.IsPlain) : i.Falls := by
  obtain ⟨hjump, htest, hwide, -, hlist, hskip⟩ := h
  rintro k next ⟨code, hat, j, hj, hnext⟩
  obtain rfl : i = j := Option.some.inj (hat.symm.trans hj)
  cases hi : i.op <;> rw [hi] at hjump htest hwide hskip hlist hnext <;>
    first
      | exact hnext
      | exact hnext.elim
      | exact absurd hjump (by decide)
      | exact absurd htest (by decide)
      | exact absurd rfl hwide
      | exact absurd rfl hlist
      | exact hnext.trans (if_pos (hskip rfl))

theorem LeadsTo.shift {n : Nat} : i.LeadsTo (n + k) (n + next) ↔ i.LeadsTo k next := by
  constructor
  · rintro ⟨code, hat, j, hj, hnext⟩
    obtain rfl : i = j := Option.some.inj (hat.symm.trans hj)
    refine ⟨List.replicate k i ++ [i], by simp, i, by simp, ?_⟩
    cases hi : i.op <;> rw [hi] at hnext <;> dsimp only at hnext ⊢ <;> grind
  · rintro ⟨code, hat, j, hj, hnext⟩
    obtain rfl : i = j := Option.some.inj (hat.symm.trans hj)
    refine ⟨List.replicate (n + k) i ++ [i], by simp, i, by simp, ?_⟩
    cases hi : i.op <;> rw [hi] at hnext <;> dsimp only at hnext ⊢ <;> grind

theorem falls_jmp (hop : i.op = .jmp) (hb : i.b = 0) : i.Falls := by
  intro k next h
  have hnext := h.of_jmp hop
  omega

end Instruction

section Ways

variable {params : Nat} {code block : List Instruction} {k next r p : Nat} {i : Instruction}

theorem successor_iff : Successor code k next ↔ ∃ i, code[k]? = some i ∧ i.LeadsTo k next := by
  constructor
  · intro h
    obtain ⟨i, hat, -⟩ := id h
    exact ⟨i, hat, code, hat, h⟩
  · rintro ⟨i, hat, code', hat', j, hj, hnext⟩
    obtain rfl : i = j := Option.some.inj (hat'.symm.trans hj)
    exact ⟨i, hat, hnext⟩

theorem Successor.lt (h : Successor code k next) : k < code.length := by
  obtain ⟨i, hat, -⟩ := h
  exact (List.getElem?_eq_some_iff.mp hat).1

theorem successor_congr {code' : List Instruction} (hsame : code'[k]? = code[k]?) :
    Successor code' k next ↔ Successor code k next := by
  rw [successor_iff, successor_iff, hsame]

theorem writesAt_congr {code' : List Instruction} (hsame : code'[k]? = code[k]?) :
    WritesAt code' r k ↔ WritesAt code r k := by
  rw [WritesAt, WritesAt, hsame]

theorem Successor.in_block (h : Successor (code ++ block) k next) (hk : code.length ≤ k) :
    ∃ j i, k = code.length + j ∧ block[j]? = some i ∧ i.LeadsTo k next := by
  obtain ⟨i, hat, hleads⟩ := successor_iff.mp h
  rw [List.getElem?_append_right hk] at hat
  exact ⟨k - code.length, i, by omega, hat, hleads⟩

/-- What is true at the start only of parameters, and of no other instruction's successor
unless of the instruction itself or it writes the register, is true only where it is set. -/
theorem setAt_of_invariant (holds : Nat → Prop) (hstart : holds 0 → r < params)
    (hstep : ∀ k next, Successor code k next → holds next → holds k ∨ WritesAt code r k)
    (h : holds k) : SetAt params code k r := by
  intro before harrives
  induction harrives with
  | start => exact .inl (hstart h)
  | @step before k next _ hnext ih =>
    rcases hstep k next hnext h with hk | hwrites
    · rcases ih hk with hparam | ⟨j, hj, hwritten⟩
      · exact .inl hparam
      · exact .inr ⟨j, List.mem_cons_of_mem _ hj, hwritten⟩
    · exact .inr ⟨k, List.mem_cons_self, hwrites⟩

namespace SetAt

theorem at_start (h : SetAt params code 0 r) : r < params := by
  rcases h [] .start with hparam | ⟨j, hj, -⟩
  · exact hparam
  · exact absurd hj List.not_mem_nil

theorem of_params (h : r < params) : SetAt params code k r :=
  fun _ _ => .inl h

theorem before (h : SetAt params code next r) (hnext : Successor code k next) :
    SetAt params code k r ∨ WritesAt code r k := by
  by_cases hwrites : WritesAt code r k
  · exact .inr hwrites
  · refine .inl fun before harrives => ?_
    rcases h _ (harrives.step hnext) with hparam | ⟨j, hj, hwritten⟩
    · exact .inl hparam
    · rcases List.mem_cons.mp hj with rfl | hj
      · exact absurd hwritten hwrites
      · exact .inr ⟨j, hj, hwritten⟩

theorem of_append (h : SetAt params (code ++ block) k r) : SetAt params code k r := by
  refine setAt_of_invariant (SetAt params (code ++ block) · r) at_start ?_ h
  intro k next hnext hset
  have hsame : (code ++ block)[k]? = code[k]? := List.getElem?_append_left hnext.lt
  exact (hset.before ((successor_congr hsame).mpr hnext)).imp_right (writesAt_congr hsame).mp

/-- All ways into new code come from the end of the old, as long as no jump back into the
old code comes along without a register that was set there. -/
theorem append (hclosed : Closed code)
    (hback : ∀ k next, code.length ≤ k → Successor (code ++ block) k next → next ≤ code.length →
      SetAt params code next r → SetAt params code code.length r)
    (h : SetAt params code (min k code.length) r) : SetAt params (code ++ block) k r := by
  refine setAt_of_invariant (fun k => SetAt params code (min k code.length) r) ?_ ?_ h
  · intro hset
    rw [Nat.zero_min] at hset
    exact hset.at_start
  · intro k next hnext hset
    by_cases hk : k < code.length
    · have hsame : (code ++ block)[k]? = code[k]? := List.getElem?_append_left hk
      have hnext' := (successor_congr hsame).mp hnext
      rw [Nat.min_eq_left (hclosed k next hnext')] at hset
      rw [Nat.min_eq_left (Nat.le_of_lt hk), writesAt_congr hsame]
      exact hset.before hnext'
    · rw [Nat.min_eq_right (Nat.le_of_not_lt hk)]
      by_cases hle : next ≤ code.length
      · rw [Nat.min_eq_left hle] at hset
        exact .inl (hback k next (Nat.le_of_not_lt hk) hnext hle hset)
      · rw [Nat.min_eq_right (Nat.le_of_not_le hle)] at hset
        exact .inl hset

theorem aim {jump : Instruction} (hp : p < code.length) (hop : jump.op = .jmp)
    (htarget : (code.length : Int) = p + 1 + jump.b) (h : SetAt params code k r)
    (hjump : k = code.length → SetAt params code p r) : SetAt params (code.set p jump) k r := by
  refine setAt_of_invariant
    (fun k => SetAt params code k r ∧ (k = code.length → SetAt params code p r)) ?_ ?_ ⟨h, hjump⟩
  · exact fun hset => hset.1.at_start
  · rintro k next hnext ⟨hset, hend⟩
    by_cases hk : p = k
    · obtain ⟨i, hat, hleads⟩ := successor_iff.mp hnext
      rw [← hk, List.getElem?_set_self hp] at hat
      obtain rfl : jump = i := Option.some.inj hat
      have hthere := hleads.of_jmp hop
      have hset' := hend (by omega)
      exact .inl ⟨hk ▸ hset', fun _ => hset'⟩
    · have hsame : (code.set p jump)[k]? = code[k]? := List.getElem?_set_ne hk
      have hnext' := (successor_congr hsame).mp hnext
      rw [writesAt_congr hsame]
      refine (hset.before hnext').imp_left fun hset' => ⟨hset', fun hlast => ?_⟩
      exact absurd hnext'.lt (by omega)

end SetAt

/-- Whatever leads on to a place in new code has written the register, or comes from
another such place. -/
theorem setAt_gained (hclosed : Closed code) (gained : Nat → Prop)
    (hbehind : ∀ k, gained k → code.length < k)
    (hstep : ∀ k next, code.length ≤ k → Successor (code ++ block) k next → gained next →
      gained k ∨ WritesAt (code ++ block) r k)
    (h : gained k) : SetAt params (code ++ block) k r := by
  refine setAt_of_invariant gained ?_ ?_ h
  · intro hstart
    exact absurd (hbehind 0 hstart) (by omega)
  · intro k next hnext hgained
    by_cases hk : k < code.length
    · have hsame : (code ++ block)[k]? = code[k]? := List.getElem?_append_left hk
      have hle := hclosed k next ((successor_congr hsame).mp hnext)
      exact absurd (hbehind next hgained) (by omega)
    · exact hstep k next (Nat.le_of_not_lt hk) hnext hgained

/-- What every way through new code writes is written when control gets to its end, since
all ways into it come from the end of the old. -/
theorem SetAt.prepend (hclosed : Closed code) (h : SetAt 0 block k r) :
    SetAt params (code ++ block) (code.length + k) r := by
  refine setAt_gained hclosed (fun j => ∃ m, j = code.length + m ∧ SetAt 0 block m r) ?_ ?_
    ⟨k, rfl, h⟩
  · rintro _ ⟨m, rfl, hset⟩
    rcases m with _ | m
    · exact absurd hset.at_start (Nat.not_lt_zero r)
    · omega
  · rintro k _ hk hnext ⟨m, rfl, hset⟩
    obtain ⟨j, i, rfl, hat, hlead⟩ := hnext.in_block hk
    have hnext' : Successor block j m :=
      successor_iff.mpr ⟨i, hat, Instruction.LeadsTo.shift.mp hlead⟩
    refine (hset.before hnext').imp (fun hset' => ⟨j, rfl, hset'⟩) ?_
    rintro ⟨i', hat', hwrites⟩
    refine ⟨i', ?_, hwrites⟩
    rw [List.getElem?_append_right (Nat.le_add_right _ _), Nat.add_sub_cancel_left, hat']

theorem setAt_length (block : List Instruction) (hblock : block ≠ [])
    (h : ∀ (k : Nat) (i : Instruction), block[k]? = some i → i.LeadsTo k block.length →
      i.Writes r) : SetAt params block block.length r := by
  refine setAt_of_invariant (· = block.length) ?_ ?_ rfl
  · intro hstart
    exact absurd (List.length_eq_zero_iff.mp hstart.symm) hblock
  · rintro k _ hnext rfl
    obtain ⟨i, hat, hlead⟩ := successor_iff.mp hnext
    exact .inr ⟨i, hat, h k i hat hlead⟩

theorem setAt_single (hwrites : i.Writes r) : SetAt params [i] 1 r := by
  refine setAt_length [i] (by simp) ?_
  intro k j hat _
  obtain rfl : i = j := by
    rcases k with _ | k
    · exact Option.some.inj hat
    · simp at hat
  exact hwrites

theorem Flow.leadsTo {base n : Nat} (h : Flow none base code []) (hat : code[k]? = some i)
    (hlead : i.LeadsTo (n + k) next) : ∃ m ≤ code.length, next = n + m := by
  have hlt := (List.getElem?_eq_some_iff.mp hat).1
  have hfalls : next = n + k + 1 → ∃ m ≤ code.length, next = n + m :=
    fun hnext => ⟨k + 1, hlt, hnext⟩
  by_cases hjump : i.op.isJump = true
  · rcases h.jumps k i hat hjump with hwait | ⟨target, htarget, hhead | ⟨m, hm, rfl, -⟩⟩
    · simp at hwait
    · simp at hhead
    · rcases hlead.of_jump hjump with hnext | hnext
      · exact hfalls hnext
      · exact ⟨m, hm, by omega⟩
  by_cases htest : i.op.isTest = true
  · obtain ⟨jump, hnext', -⟩ := h.tests k i hat htest
    have hlt' := (List.getElem?_eq_some_iff.mp hnext').1
    rcases hlead.of_test htest with hnext | hnext
    · exact hfalls hnext
    · exact ⟨k + 2, hlt', hnext⟩
  by_cases hwide : i.op = .loadKX
  · obtain ⟨extra, hnext', -⟩ := h.wide k i hat hwide
    have hlt' := (List.getElem?_eq_some_iff.mp hnext').1
    exact ⟨k + 2, hlt', hlead.of_loadKX hwide⟩
  by_cases hextra : i.op = .extraArg
  · exact hfalls (Instruction.falls_extraArg hextra _ _ hlead)
  by_cases hskip : i.op = .loadBool ∧ i.c ≠ 0
  · have hnext := hlead.of_loadBool hskip.1
    rw [if_neg hskip.2] at hnext
    exact ⟨k + 2, (h.skips k i hat hskip.1 hskip.2).1, hnext⟩
  have hplain : i.IsPlain := ⟨by simpa using hjump, by simpa using htest, hwide, hextra,
    h.lists k i hat, fun hload => by simpa [hload] using hskip⟩
  exact hfalls (Instruction.falls_of_isPlain hplain _ _ hlead)

theorem Flow.closed {base : Nat} (h : Flow none base code []) : Closed code := by
  intro k next hnext
  obtain ⟨i, hat, hlead⟩ := successor_iff.mp hnext
  obtain ⟨m, hm, rfl⟩ := h.leadsTo (n := 0) hat (by rwa [Nat.zero_add])
  omega

theorem SetAt.onward (hclosed : Closed code) (h : SetAt params code code.length r)
    (hk : code.length ≤ k) : SetAt params (code ++ block) k r :=
  .append hclosed (fun _ _ _ _ _ _ => h) (by rwa [Nat.min_eq_right hk])

theorem Closed.append (h : Closed code)
    (hblock : ∀ k next, code.length ≤ k → Successor (code ++ block) k next →
      next ≤ code.length + block.length) : Closed (code ++ block) := by
  intro k next hnext
  rw [List.length_append]
  by_cases hk : k < code.length
  · have hle := h k next ((successor_congr (List.getElem?_append_left hk)).mp hnext)
    omega
  · exact hblock k next (Nat.le_of_not_lt hk) hnext

theorem Closed.aim {jump : Instruction} (h : Closed code) (hp : p < code.length)
    (hop : jump.op = .jmp) (htarget : (code.length : Int) = p + 1 + jump.b) :
    Closed (code.set p jump) := by
  intro k next hnext
  rw [List.length_set]
  by_cases hk : p = k
  · obtain ⟨i, hat, hleads⟩ := successor_iff.mp hnext
    rw [← hk, List.getElem?_set_self hp] at hat
    obtain rfl : jump = i := Option.some.inj hat
    have hthere := hleads.of_jmp hop
    omega
  · exact h k next ((successor_congr (List.getElem?_set_ne hk)).mp hnext)

end Ways

end RegisterCode
