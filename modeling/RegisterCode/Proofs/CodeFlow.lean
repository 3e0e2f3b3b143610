import Mathlib.Tactic.Common
import RegisterCode.Proofs.WordFormat

/-! Where control goes inside a stretch of code. While code is placed, some of its
jumps still wait for a target; the others land inside the stretch, at a place where
no instruction is torn from the one it belongs to. -/
namespace RegisterCode

/-- Control may arrive here: the instruction is not the second word of a wide load,
and not the jump that a test decides about. -/
def Clear (code : List Instruction) (position : Nat) : Prop :=
  (∀ i, code[position]? = some i → i.op ≠ .extraArg) ∧
    ∀ k i, position = k + 1 → code[k]? = some i → i.op.isTest = false

theorem Clear.congr {code code' : List Instruction} {position : Nat}
    (hops : code'.map Instruction.op = code.map Instruction.op) (h : Clear code position) :
    Clear code' position := by
  have hsame : ∀ (k : Nat) (i' : Instruction), code'[k]? = some i' →
      ∃ i : Instruction, code[k]? = some i ∧ i.op = i'.op := by
    intro k i' hi'
    have hk := congrArg (·[k]?) hops
    simp only [List.getElem?_map, hi', Option.map_some] at hk
    obtain ⟨i, hi, hop⟩ := Option.map_eq_some_iff.mp hk.symm
    exact ⟨i, hi, hop⟩
  constructor
  · intro i' hi'
    obtain ⟨i, hi, hop⟩ := hsame _ i' hi'
    rw [← hop]
    exact h.1 i hi
  · intro k i' hk hi'
    obtain ⟨i, hi, hop⟩ := hsame _ i' hi'
    rw [← hop]
    exact h.2 k i hk hi

/-- A target of a jump in code that starts at `base`: the head of the loop around the
code, or a clear place of the code or right behind it. -/
def Lands (head : Option Nat) (base : Nat) (code : List Instruction) (target : Nat) : Prop :=
  head = some target ∨ ∃ k, k ≤ code.length ∧ target = base + k ∧ Clear code k

/-- Code from index `base` on whose jumps land, except for the `pending` ones. -/
structure Flow (head : Option Nat) (base : Nat) (code : List Instruction)
    (pending : List Nat) : Prop where
  jumps : ∀ k i, code[k]? = some i → i.op.isJump = true → base + k ∈ pending ∨
    ∃ target : Nat, (target : Int) = base + k + 1 + i.b ∧ Lands head base code target
  tests : ∀ k i, code[k]? = some i → i.op.isTest = true →
    ∃ jump, code[k + 1]? = some jump ∧ jump.op = .jmp
  skips : ∀ k i, code[k]? = some i → i.op = .loadBool → i.c ≠ 0 →
    k + 2 ≤ code.length ∧ Clear code (k + 2)
  wide : ∀ k i, code[k]? = some i → i.op = .loadKX →
    ∃ extra, code[k + 1]? = some extra ∧ extra.op = .extraArg
  extra : ∀ k i, code[k]? = some i → i.op = .extraArg →
    ∃ j load, k = j + 1 ∧ code[j]? = some load ∧ load.op = .loadKX
  lists : ∀ (k : Nat) (i : Instruction), code[k]? = some i → i.op ≠ .setList
  waiting : ∀ p ∈ pending, ∃ k jump, p = base + k ∧ code[k]? = some jump ∧ jump.op = .jmp

namespace Flow

variable {head : Option Nat} {base : Nat} {code more : List Instruction} {pending : List Nat}

theorem clear_zero (h : Flow head base code pending) : Clear code 0 := by
  constructor
  · intro i hi hop
    obtain ⟨j, _, hj, _⟩ := h.extra 0 i hi hop
    omega
  · intro k _ hk
    omega

theorem clear_length (h : Flow head base code pending) : Clear code code.length := by
  constructor
  · intro i hi
    simp at hi
  · intro k i hk hi
    by_contra htest
    obtain ⟨jump, hjump, -⟩ := h.tests k i hi (by simpa using htest)
    rw [← hk] at hjump
    simp at hjump

theorem clear_append_left {base' : Nat} {pending' : List Nat}
    (hmore : Flow head base' more pending') {k : Nat} (hk : k ≤ code.length)
    (hclear : Clear code k) : Clear (code ++ more) k := by
  constructor
  · intro i hi
    by_cases hlt : k < code.length
    · rw [List.getElem?_append_left hlt] at hi
      exact hclear.1 i hi
    · have heq : k = code.length := by omega
      rw [heq, List.getElem?_append_right (by omega), Nat.sub_self] at hi
      exact hmore.clear_zero.1 i hi
  · intro j i hj hi
    rw [List.getElem?_append_left (by omega)] at hi
    exact hclear.2 j i hj hi

theorem clear_append_right (h : Flow head base code pending) {k : Nat}
    (hclear : Clear more k) : Clear (code ++ more) (code.length + k) := by
  constructor
  · intro i hi
    rw [List.getElem?_append_right (by omega), Nat.add_sub_cancel_left] at hi
    exact hclear.1 i hi
  · intro j i hj hi
    by_cases hlt : j < code.length
    · rw [List.getElem?_append_left hlt] at hi
      exact h.clear_length.2 j i (by omega) hi
    · rw [List.getElem?_append_right (by omega)] at hi
      exact hclear.2 (j - code.length) i (by omega) hi

private theorem append_cases {k : Nat} {i : Instruction} (h : (code ++ more)[k]? = some i) :
    (k < code.length ∧ code[k]? = some i) ∨
      ∃ j, k = code.length + j ∧ more[j]? = some i := by
  by_cases hlt : k < code.length
  · rw [List.getElem?_append_left hlt] at h
    exact .inl ⟨hlt, h⟩
  · rw [List.getElem?_append_right (by omega)] at h
    exact .inr ⟨k - code.length, by omega, h⟩

private theorem getElem?_append_add (j : Nat) : (code ++ more)[code.length + j]? = more[j]? := by
  rw [List.getElem?_append_right (by omega), Nat.add_sub_cancel_left]

private theorem getElem?_append_of_some {k : Nat} {i : Instruction} (h : code[k]? = some i) :
    (code ++ more)[k]? = some i := by
  rw [List.getElem?_append_left (List.getElem?_eq_some_iff.mp h).1, h]

theorem append {pending' : List Nat} (h : Flow head base code pending)
    (hmore : Flow head (base + code.length) more pending') :
    Flow head base (code ++ more) (pending ++ pending') where
  jumps := by
    intro k i hi hjump
    rcases append_cases hi with ⟨hlt, hat⟩ | ⟨j, rfl, hat⟩
    · rcases h.jumps k i hat hjump with hwait | ⟨target, htarget, hland⟩
      · exact .inl (List.mem_append_left _ hwait)
      · refine .inr ⟨target, htarget, ?_⟩
        rcases hland with hhead | ⟨t, ht, rfl, hclear⟩
        · exact .inl hhead
        · exact .inr ⟨t, by simp; omega, rfl, clear_append_left hmore ht hclear⟩
    · rcases hmore.jumps j i hat hjump with hwait | ⟨target, htarget, hland⟩
      · exact .inl (List.mem_append_right _ (by rwa [Nat.add_assoc] at hwait))
      · refine .inr ⟨target, by omega, ?_⟩
        rcases hland with hhead | ⟨t, ht, rfl, hclear⟩
        · exact .inl hhead
        · exact .inr ⟨code.length + t, by simp; omega, by omega, h.clear_append_right hclear⟩
  tests := by
    intro k i hi htest
    rcases append_cases hi with ⟨hlt, hat⟩ | ⟨j, rfl, hat⟩
    · obtain ⟨jump, hjump, hop⟩ := h.tests k i hat htest
      exact ⟨jump, getElem?_append_of_some hjump, hop⟩
    · obtain ⟨jump, hjump, hop⟩ := hmore.tests j i hat htest
      exact ⟨jump, by rw [Nat.add_assoc, getElem?_append_add, hjump], hop⟩
  skips := by
    intro k i hi hop hc
    rcases append_cases hi with ⟨hlt, hat⟩ | ⟨j, rfl, hat⟩
    · obtain ⟨hle, hclear⟩ := h.skips k i hat hop hc
      exact ⟨by simp; omega, clear_append_left hmore hle hclear⟩
    · obtain ⟨hle, hclear⟩ := hmore.skips j i hat hop hc
      rw [Nat.add_assoc]
      exact ⟨by simp; omega, h.clear_append_right hclear⟩
  wide := by
    intro k i hi hop
    rcases append_cases hi with ⟨hlt, hat⟩ | ⟨j, rfl, hat⟩
    · obtain ⟨extra, hextra, hop⟩ := h.wide k i hat hop
      exact ⟨extra, getElem?_append_of_some hextra, hop⟩
    · obtain ⟨extra, hextra, hop⟩ := hmore.wide j i hat hop
      exact ⟨extra, by rw [Nat.add_assoc, getElem?_append_add, hextra], hop⟩
  extra := by
    intro k i hi hop
    rcases append_cases hi with ⟨hlt, hat⟩ | ⟨j, rfl, hat⟩
    · obtain ⟨j, load, rfl, hload, hop⟩ := h.extra k i hat hop
      exact ⟨j, load, rfl, getElem?_append_of_some hload, hop⟩
    · obtain ⟨j, load, rfl, hload, hop⟩ := hmore.extra j i hat hop
      exact ⟨code.length + j, load, by omega, by rw [getElem?_append_add, hload], hop⟩
  lists := by
    intro k i hi
    rcases append_cases hi with ⟨-, hat⟩ | ⟨j, rfl, hat⟩
    · exact h.lists k i hat
    · exact hmore.lists j i hat
  waiting := by
    intro p hp
    rcases List.mem_append.mp hp with hp | hp
    · obtain ⟨k, jump, hk, hjump, hop⟩ := h.waiting p hp
      exact ⟨k, jump, hk, getElem?_append_of_some hjump, hop⟩
    · obtain ⟨k, jump, hk, hjump, hop⟩ := hmore.waiting p hp
      exact ⟨code.length + k, jump, by omega, by rw [getElem?_append_add, hjump], hop⟩

theorem nil : Flow head base [] [] where
  jumps := by simp
  tests := by simp
  skips := by simp
  wide := by simp
  extra := by simp
  lists := by simp
  waiting := by simp

theorem congr {pending' : List Nat} (h : Flow head base code pending)
    (hsame : ∀ p, p ∈ pending ↔ p ∈ pending') : Flow head base code pending' :=
  { h with
    jumps := by
      intro k i hi hjump
      rw [← hsame]
      exact h.jumps k i hi hjump
    waiting := by
      intro p hp
      exact h.waiting p ((hsame p).mpr hp) }

theorem aim {k target : Nat} {jump : Instruction} {pending' : List Nat}
    (h : Flow head base code pending) (hwait : base + k ∈ pending) (hop : jump.op = .jmp)
    (htarget : (target : Int) = base + k + 1 + jump.b) (hland : Lands head base code target)
    (hrest : ∀ p ∈ pending, p = base + k ∨ p ∈ pending')
    (hsub : ∀ p ∈ pending', p ∈ pending) : Flow head base (code.set k jump) pending' := by
  obtain ⟨k', old, hk', hold, holdOp⟩ := h.waiting _ hwait
  obtain rfl : k' = k := by omega
  have hlt : k' < code.length := (List.getElem?_eq_some_iff.mp hold).1
  have hops : (code.set k' jump).map Instruction.op = code.map Instruction.op := by
    apply List.ext_getElem?
    intro j
    rw [List.getElem?_map, List.getElem?_map, List.getElem?_set]
    split
    · next hj =>
      rw [← hj, hold]
      simp [hop, holdOp]
    · rfl
  -- only the instruction at `k'` differs, and it is a jump before and after
  have hat : ∀ (j : Nat) (i : Instruction), (code.set k' jump)[j]? = some i →
      (j = k' ∧ i = jump) ∨ (j ≠ k' ∧ code[j]? = some i) := by
    intro j i hi
    rw [List.getElem?_set] at hi
    split at hi
    · next hj =>
      exact .inl ⟨hj.symm, (Option.some.inj hi).symm⟩
    · next hj => exact .inr ⟨Ne.symm hj, hi⟩
  have hkeep : ∀ (j : Nat) (i : Instruction), code[j]? = some i →
      ∃ i', (code.set k' jump)[j]? = some i' ∧ i'.op = i.op := by
    intro j i hi
    have hj := congrArg (·[j]?) hops
    simp only [List.getElem?_map, hi, Option.map_some] at hj
    exact Option.map_eq_some_iff.mp hj
  have hclear : ∀ j, Clear code j → Clear (code.set k' jump) j :=
    fun j hj => hj.congr hops
  have hlands : ∀ t, Lands head base code t → Lands head base (code.set k' jump) t := by
    rintro t (hhead | ⟨j, hj, rfl, hc⟩)
    · exact .inl hhead
    · exact .inr ⟨j, by simpa using hj, rfl, hclear j hc⟩
  refine ⟨?_, ?_, ?_, ?_, ?_, ?_, ?_⟩
  · intro j i hi hjump
    rcases hat j i hi with ⟨rfl, rfl⟩ | ⟨hne, hi⟩
    · exact .inr ⟨target, htarget, hlands target hland⟩
    · rcases h.jumps j i hi hjump with hp | ⟨t, ht, hl⟩
      · rcases hrest _ hp with heq | hp
        · omega
        · exact .inl hp
      · exact .inr ⟨t, ht, hlands t hl⟩
  · intro j i hi htest
    rcases hat j i hi with ⟨rfl, rfl⟩ | ⟨hne, hi⟩
    · rw [hop] at htest
      exact absurd htest (by decide)
    · obtain ⟨next, hnext, hnextOp⟩ := h.tests j i hi htest
      obtain ⟨next', hnext', hsame⟩ := hkeep _ _ hnext
      exact ⟨next', hnext', hsame.trans hnextOp⟩
  · intro j i hi hload hc
    rcases hat j i hi with ⟨rfl, rfl⟩ | ⟨hne, hi⟩
    · simp [hop] at hload
    · obtain ⟨hle, hcl⟩ := h.skips j i hi hload hc
      exact ⟨by simpa using hle, hclear _ hcl⟩
  · intro j i hi hload
    rcases hat j i hi with ⟨rfl, rfl⟩ | ⟨hne, hi⟩
    · simp [hop] at hload
    · obtain ⟨next, hnext, hnextOp⟩ := h.wide j i hi hload
      obtain ⟨next', hnext', hsame⟩ := hkeep _ _ hnext
      exact ⟨next', hnext', hsame.trans hnextOp⟩
  · intro j i hi hextra
    rcases hat j i hi with ⟨rfl, rfl⟩ | ⟨hne, hi⟩
    · simp [hop] at hextra
    · obtain ⟨m, load, rfl, hload, hloadOp⟩ := h.extra j i hi hextra
      obtain ⟨load', hload', hsame⟩ := hkeep _ _ hload
      exact ⟨m, load', rfl, hload', hsame.trans hloadOp⟩
  · intro j i hi
    rcases hat j i hi with ⟨rfl, rfl⟩ | ⟨hne, hi⟩
    · simp [hop]
    · exact h.lists j i hi
  · intro p hp
    obtain ⟨j, i, hj, hi, hiOp⟩ := h.waiting p (hsub p hp)
    obtain ⟨i', hi', hsame⟩ := hkeep _ _ hi
    exact ⟨j, i', hj, hi', hsame.trans hiOp⟩

/-- Seen from outside a loop, its head is a place of its own code. -/
theorem of_head (h : Flow (some base) base code pending) : Flow head base code pending where
  jumps := by
    intro k i hi hjump
    rcases h.jumps k i hi hjump with hwait | ⟨target, htarget, hland⟩
    · exact .inl hwait
    · refine .inr ⟨target, htarget, ?_⟩
      rcases hland with hhead | hinside
      · injection hhead with hhead
        exact .inr ⟨0, by omega, by omega, h.clear_zero⟩
      · exact .inr hinside
  tests := h.tests
  skips := h.skips
  wide := h.wide
  extra := h.extra
  lists := h.lists
  waiting := h.waiting

/-- Code that never leaves itself may stand in any loop. -/
theorem of_none (h : Flow none base code pending) : Flow head base code pending where
  jumps := by
    intro k i hi hjump
    rcases h.jumps k i hi hjump with hwait | ⟨target, htarget, hland⟩
    · exact .inl hwait
    · refine .inr ⟨target, htarget, ?_⟩
      rcases hland with hhead | hinside
      · simp at hhead
      · exact .inr hinside
  tests := h.tests
  skips := h.skips
  wide := h.wide
  extra := h.extra
  lists := h.lists
  waiting := h.waiting

end Flow

/-- An instruction after which control goes to the next one, and that stands alone. -/
def Instruction.IsPlain (i : Instruction) : Prop :=
  i.op.isJump = false ∧ i.op.isTest = false ∧ i.op ≠ .loadKX ∧ i.op ≠ .extraArg ∧
    i.op ≠ .setList ∧ (i.op = .loadBool → i.c = 0)

def Opcode.isPlain (op : Opcode) : Bool :=
  !op.isJump && !op.isTest && op != .loadKX && op != .extraArg && op != .setList &&
    op != .loadBool

theorem Instruction.isPlain_of_op {i : Instruction} (h : i.op.isPlain = true) : i.IsPlain := by
  simp only [Opcode.isPlain, Bool.and_eq_true, Bool.not_eq_true', bne_iff_ne] at h
  obtain ⟨⟨⟨⟨⟨hjump, htest⟩, hwide⟩, hextra⟩, hlist⟩, hload⟩ := h
  exact ⟨hjump, htest, hwide, hextra, hlist, fun hop => absurd hop hload⟩

namespace Flow

variable {head : Option Nat} {base : Nat}

theorem plain {i : Instruction} (h : i.IsPlain) : Flow head base [i] [] := by
  obtain ⟨hjump, htest, hwide, hextra, hlist, hskip⟩ := h
  refine ⟨?_, ?_, ?_, ?_, ?_, ?_, by simp⟩ <;> intro k j hj <;>
    obtain ⟨rfl, rfl⟩ : k = 0 ∧ j = i := by
      rcases k with _ | k
      · exact ⟨rfl, by simpa using hj.symm⟩
      · simp at hj
  · simp [hjump]
  · simp [htest]
  · intro hop hc
    exact absurd (hskip hop) hc
  · intro hop
    exact absurd hop hwide
  · intro hop
    exact absurd hop hextra
  · exact hlist

private theorem pair_cases {first second i : Instruction} {k : Nat}
    (h : [first, second][k]? = some i) : (k = 0 ∧ i = first) ∨ (k = 1 ∧ i = second) := by
  rcases k with _ | _ | k
  · exact .inl ⟨rfl, by simpa using h.symm⟩
  · exact .inr ⟨rfl, by simpa using h.symm⟩
  · simp at h

theorem wideLoad {load extra : Instruction} (hload : load.op = .loadKX)
    (hextra : extra.op = .extraArg) : Flow head base [load, extra] [] := by
  refine ⟨?_, ?_, ?_, ?_, ?_, ?_, by simp⟩
  · intro k i hi hjump
    rcases pair_cases hi with ⟨rfl, rfl⟩ | ⟨rfl, rfl⟩
    · rw [hload] at hjump
      exact absurd hjump (by decide)
    · rw [hextra] at hjump
      exact absurd hjump (by decide)
  · intro k i hi htest
    rcases pair_cases hi with ⟨rfl, rfl⟩ | ⟨rfl, rfl⟩
    · rw [hload] at htest
      exact absurd htest (by decide)
    · rw [hextra] at htest
      exact absurd htest (by decide)
  · intro k i hi hop
    rcases pair_cases hi with ⟨rfl, rfl⟩ | ⟨rfl, rfl⟩ <;> simp_all
  · intro k i hi hop
    rcases pair_cases hi with ⟨rfl, rfl⟩ | ⟨rfl, rfl⟩
    · exact ⟨extra, rfl, hextra⟩
    · simp [hextra] at hop
  · intro k i hi hop
    rcases pair_cases hi with ⟨rfl, rfl⟩ | ⟨rfl, rfl⟩
    · simp [hload] at hop
    · exact ⟨0, load, rfl, rfl, hload⟩
  · intro k i hi
    rcases pair_cases hi with ⟨-, rfl⟩ | ⟨-, rfl⟩
    · simp [hload]
    · simp [hextra]

theorem jump {i : Instruction} (h : i.op = .jmp) : Flow head base [i] [base] := by
  have hat : ∀ (k : Nat) (j : Instruction), [i][k]? = some j → k = 0 ∧ j = i := by
    rintro (_ | k) j hj
    · exact ⟨rfl, by simpa using hj.symm⟩
    · simp at hj
  refine ⟨?_, ?_, ?_, ?_, ?_, ?_, ?_⟩
  · intro k j hj _
    obtain ⟨rfl, rfl⟩ := hat k j hj
    exact .inl (by simp)
  · intro k j hj htest
    obtain ⟨rfl, rfl⟩ := hat k j hj
    rw [h] at htest
    exact absurd htest (by decide)
  · intro k j hj hop
    obtain ⟨rfl, rfl⟩ := hat k j hj
    simp [h] at hop
  · intro k j hj hop
    obtain ⟨rfl, rfl⟩ := hat k j hj
    simp [h] at hop
  · intro k j hj hop
    obtain ⟨rfl, rfl⟩ := hat k j hj
    simp [h] at hop
  · intro k j hj
    obtain ⟨-, rfl⟩ := hat k j hj
    simp [h]
  · intro p hp
    exact ⟨0, i, by simpa using hp, rfl, h⟩

theorem jumpTo {i : Instruction} {target : Nat} (h : i.op = .jmp)
    (htarget : (target : Int) = base + 1 + i.b) (hhead : head = some target) :
    Flow head base [i] [] := by
  have hplaced : Flow head base [i] [base] := jump h
  have haimed : Flow head base ([i].set 0 i) [] :=
    hplaced.aim (by simp) h (by simpa using htarget) (.inl hhead) (by simp) (by simp)
  exact haimed

theorem testJump {test jump : Instruction} (htest : test.op.isTest = true)
    (hjump : jump.op = .jmp) : Flow head base [test, jump] [base + 1] := by
  have hnoJump : test.op.isJump = false := by
    cases hop : test.op <;> rw [hop] at htest <;> first | rfl | exact absurd htest (by decide)
  refine ⟨?_, ?_, ?_, ?_, ?_, ?_, ?_⟩
  · intro k i hi hisJump
    rcases pair_cases hi with ⟨rfl, rfl⟩ | ⟨rfl, rfl⟩
    · simp [hnoJump] at hisJump
    · exact .inl (by simp)
  · intro k i hi _
    rcases pair_cases hi with ⟨rfl, rfl⟩ | ⟨rfl, rfl⟩
    · exact ⟨jump, rfl, hjump⟩
    · next hisTest =>
      rw [hjump] at hisTest
      exact absurd hisTest (by decide)
  · intro k i hi hop
    rcases pair_cases hi with ⟨rfl, rfl⟩ | ⟨rfl, rfl⟩
    · rw [hop] at htest
      exact absurd htest (by decide)
    · simp [hjump] at hop
  · intro k i hi hop
    rcases pair_cases hi with ⟨rfl, rfl⟩ | ⟨rfl, rfl⟩
    · rw [hop] at htest
      exact absurd htest (by decide)
    · simp [hjump] at hop
  · intro k i hi hop
    rcases pair_cases hi with ⟨rfl, rfl⟩ | ⟨rfl, rfl⟩
    · rw [hop] at htest
      exact absurd htest (by decide)
    · simp [hjump] at hop
  · intro k i hi hop
    rcases pair_cases hi with ⟨rfl, rfl⟩ | ⟨rfl, rfl⟩
    · rw [hop] at htest
      exact absurd htest (by decide)
    · simp [hjump] at hop
  · intro p hp
    exact ⟨1, jump, by simpa using hp, rfl, hjump⟩

private theorem skippingPair {no yes : Instruction} (hno : no.op = .loadBool)
    (hyes : yes.op = .loadBool) (hyesC : yes.c = 0) : Flow head base [no, yes] [] := by
  have hop : ∀ (k : Nat) (i : Instruction), [no, yes][k]? = some i → i.op = .loadBool := by
    intro k i hi
    rcases pair_cases hi with ⟨-, rfl⟩ | ⟨-, rfl⟩
    · exact hno
    · exact hyes
  refine ⟨?_, ?_, ?_, ?_, ?_, ?_, by simp⟩
  · intro k i hi hjump
    rw [hop k i hi] at hjump
    exact absurd hjump (by decide)
  · intro k i hi htest
    rw [hop k i hi] at htest
    exact absurd htest (by decide)
  · intro k i hi _ hc
    rcases pair_cases hi with ⟨rfl, rfl⟩ | ⟨rfl, rfl⟩
    · refine ⟨by simp, by simp, ?_⟩
      intro j i hj hi
      obtain rfl : j = 1 := by omega
      rw [hop 1 i hi]
      decide
    · exact absurd hyesC hc
  · intro k i hi hwide
    simp [hop k i hi] at hwide
  · intro k i hi hextra
    simp [hop k i hi] at hextra
  · intro k i hi
    simp [hop k i hi]

theorem compare {test jump no yes : Instruction} (htest : test.op.isTest = true)
    (hjump : jump.op = .jmp) (hskip : jump.b = 1) (hno : no.op = .loadBool)
    (hyes : yes.op = .loadBool) (hyesC : yes.c = 0) :
    Flow head base [test, jump, no, yes] [] := by
  have hplaced : Flow head base ([test, jump] ++ [no, yes]) ([base + 1] ++ []) :=
    (testJump htest hjump).append (skippingPair hno hyes hyesC)
  have hclear : Clear [test, jump, no, yes] 3 := by
    constructor
    · intro i hi
      obtain rfl : yes = i := by simpa using hi
      simp [hyes]
    · intro k i hk hi
      obtain rfl : k = 2 := by omega
      obtain rfl : no = i := by simpa using hi
      rw [hno]
      decide
  have haimed : Flow head base (([test, jump] ++ [no, yes]).set 1 jump) [] := by
    apply hplaced.aim (by simp) hjump _ (.inr ⟨3, by simp, rfl, hclear⟩) (by simp) (by simp)
    rw [hskip]
    omega
  exact haimed

end Flow

/-- Finished code: it ends by returning nothing, every jump and every skip arrives at
an instruction that stands on its own, and no instruction misses the one it needs. -/
structure ControlFlow (code : List Instruction) : Prop where
  last : code.getLast? = some { op := .ret, a := 0, b := 1 }
  jumps : ∀ (k : Nat) (i : Instruction), code[k]? = some i → i.op.isJump = true →
    ∃ target : Nat, (target : Int) = k + 1 + i.b ∧ target < code.length ∧ Clear code target
  tests : ∀ k i, code[k]? = some i → i.op.isTest = true →
    ∃ jump, code[k + 1]? = some jump ∧ jump.op = .jmp
  skips : ∀ k i, code[k]? = some i → i.op = .loadBool → i.c ≠ 0 →
    k + 2 < code.length ∧ Clear code (k + 2)
  wide : ∀ k i, code[k]? = some i → i.op = .loadKX →
    ∃ extra, code[k + 1]? = some extra ∧ extra.op = .extraArg
  extra : ∀ k i, code[k]? = some i → i.op = .extraArg →
    ∃ j load, k = j + 1 ∧ code[j]? = some load ∧ load.op = .loadKX

theorem Flow.kept {head : Option Nat} {base : Nat} {code : List Instruction}
    {pending : List Nat} (h : Flow head base code pending) :
    Flow head base (code.map Instruction.kept) pending := by
  have hops : (code.map Instruction.kept).map Instruction.op = code.map Instruction.op := by
    rw [List.map_map]
    exact List.map_congr_left fun i _ => i.kept_op
  have hat : ∀ (k : Nat) (i : Instruction), (code.map Instruction.kept)[k]? = some i →
      ∃ old, code[k]? = some old ∧ i = old.kept := by
    intro k i hi
    rw [List.getElem?_map] at hi
    obtain ⟨old, hold, rfl⟩ := Option.map_eq_some_iff.mp hi
    exact ⟨old, hold, rfl⟩
  have hkeep : ∀ (k : Nat) (i : Instruction), code[k]? = some i →
      (code.map Instruction.kept)[k]? = some i.kept := by
    intro k i hi
    rw [List.getElem?_map, hi, Option.map_some]
  refine ⟨?_, ?_, ?_, ?_, ?_, ?_, ?_⟩
  · intro k i hi hjump
    obtain ⟨old, hold, rfl⟩ := hat k i hi
    rw [Instruction.kept_op] at hjump
    have hlayout : old.op.layout = .asbx := by simpa [Opcode.isJump] using hjump
    rcases h.jumps k old hold hjump with hwait | ⟨target, htarget, hland⟩
    · exact .inl hwait
    · refine .inr ⟨target, by simpa [Instruction.kept, hlayout] using htarget, ?_⟩
      rcases hland with hhead | ⟨t, ht, rfl, hclear⟩
      · exact .inl hhead
      · exact .inr ⟨t, by simpa using ht, rfl, hclear.congr hops⟩
  · intro k i hi htest
    obtain ⟨old, hold, rfl⟩ := hat k i hi
    obtain ⟨jump, hjump, hop⟩ := h.tests k old hold (by simpa using htest)
    exact ⟨jump.kept, hkeep _ _ hjump, by simpa using hop⟩
  · intro k i hi hop hc
    obtain ⟨old, hold, rfl⟩ := hat k i hi
    rw [Instruction.kept_op] at hop
    have hlayout : old.op.layout = .abc := by rw [hop]; rfl
    obtain ⟨hle, hclear⟩ := h.skips k old hold hop (by simpa [Instruction.kept, hlayout] using hc)
    exact ⟨by simpa using hle, hclear.congr hops⟩
  · intro k i hi hop
    obtain ⟨old, hold, rfl⟩ := hat k i hi
    obtain ⟨extra, hextra, hop⟩ := h.wide k old hold (by simpa using hop)
    exact ⟨extra.kept, hkeep _ _ hextra, by simpa using hop⟩
  · intro k i hi hop
    obtain ⟨old, hold, rfl⟩ := hat k i hi
    obtain ⟨j, load, rfl, hload, hop⟩ := h.extra k old hold (by simpa using hop)
    exact ⟨j, load.kept, rfl, hkeep _ _ hload, by simpa using hop⟩
  · intro k i hi
    obtain ⟨old, hold, rfl⟩ := hat k i hi
    rw [Instruction.kept_op]
    exact h.lists k old hold
  · intro p hp
    obtain ⟨k, jump, hk, hjump, hop⟩ := h.waiting p hp
    exact ⟨k, jump.kept, hk, hkeep _ _ hjump, by simpa using hop⟩

theorem Flow.controlFlow {code : List Instruction} (h : Flow none 0 code []) :
    ControlFlow (code ++ [{ op := .ret, a := 0, b := 1 }]) := by
  have hret : Flow none (0 + code.length) [{ op := .ret, a := 0, b := 1 }] [] :=
    plain ⟨by decide, by decide, by decide, by decide, by decide, by simp⟩
  have hall := h.append hret
  refine ⟨by simp, ?_, hall.tests, ?_, hall.wide, hall.extra⟩
  -- targets are sought in the code before the return, so none is behind it
  · intro k i hi hjump
    rcases append_cases hi with ⟨-, hat⟩ | ⟨j, rfl, hat⟩
    · rcases h.jumps k i hat hjump with hwait | ⟨target, htarget, hland⟩
      · simp at hwait
      · rcases hland with hhead | ⟨t, ht, rfl, hclear⟩
        · simp at hhead
        · refine ⟨0 + t, by omega, by simp; omega, ?_⟩
          rw [Nat.zero_add]
          exact clear_append_left hret ht hclear
    · rcases j with _ | j
      · obtain rfl : _ = i := by simpa using hat
        exact absurd hjump (by decide)
      · simp at hat
  · intro k i hi hop hc
    rcases append_cases hi with ⟨-, hat⟩ | ⟨j, rfl, hat⟩
    · obtain ⟨hle, hclear⟩ := h.skips k i hat hop hc
      exact ⟨by simp; omega, clear_append_left hret hle hclear⟩
    · rcases j with _ | j
      · obtain rfl : _ = i := by simpa using hat
        simp at hop
      · simp at hat

end RegisterCode
