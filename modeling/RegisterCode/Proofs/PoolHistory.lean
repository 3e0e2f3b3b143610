import Mathlib.Algebra.Group.Nat.Defs
import Mathlib.Data.List.Induction
import Mathlib.Data.List.Nodup
import RegisterCode.Constant.Pool

/-! A pool of constants along its calls. It lists the constants that were added, each where
it came first, and the slot that a constant was given is its own for good. -/
namespace RegisterCode

namespace Pool

inductive Call
  | intern (c : Constant)
  | find (c : Constant)
  | get (slot : UInt32)

inductive Answer
  | given (slot : UInt32)
  | found (slot : Option UInt32)
  | held (c : Option Constant)

namespace Call

def answer (pool : Pool) : Call → Answer
  | .intern c => .given (pool.intern c).1
  | .find c => .found (pool.find? c)
  | .get slot => .held (pool.get? slot)

def next (pool : Pool) : Call → Pool
  | .intern c => (pool.intern c).2
  | .find _ | .get _ => pool

def added? : Call → Option Constant
  | .intern c => some c
  | .find _ | .get _ => none

end Call

def history (calls : List Call) : Pool :=
  calls.foldl Call.next empty

/-- The constants that calls add, with repetitions, in the order of the calls. -/
def additions (calls : List Call) : List Constant :=
  calls.filterMap Call.added?

variable {pool : Pool} {c : Constant} {slot : UInt32} {calls later : List Call} {call : Call}

theorem history_concat : history (calls ++ [call]) = call.next (history calls) := by
  simp [history]

theorem additions_append : additions (calls ++ later) = additions calls ++ additions later :=
  List.filterMap_append

theorem getElem?_toList_eq_some_iff {position : Nat} :
    pool.toList[position]? = some c ↔ c ∈ pool.toList ∧ pool.toList.idxOf c = position := by
  constructor
  · intro hat
    obtain ⟨hlt, rfl⟩ := List.getElem?_eq_some_iff.mp hat
    exact ⟨List.getElem_mem hlt, pool.nodup_toList.idxOf_getElem position hlt⟩
  · rintro ⟨hmem, rfl⟩
    exact List.getElem?_idxOf hmem

theorem get?_eq_some_iff :
    pool.get? slot = some c ↔ c ∈ pool.toList ∧ pool.toList.idxOf c = slot.toNat := by
  rw [← getElem?_toList_eq_some_iff, get?, toList, Array.getElem?_toList]

theorem find?_eq_some_iff :
    pool.find? c = some slot ↔ c ∈ pool.toList ∧ .ofNat (pool.toList.idxOf c) = slot := by
  simp only [find?, Option.map_eq_some_iff, position?_eq_some_iff, ← Array.getElem?_toList]
  constructor
  · rintro ⟨position, hat, rfl⟩
    obtain ⟨hmem, rfl⟩ := getElem?_toList_eq_some_iff.mp hat
    exact ⟨hmem, rfl⟩
  · rintro ⟨hmem, rfl⟩
    exact ⟨_, List.getElem?_idxOf hmem, rfl⟩

theorem intern_eq_idxOf (pool : Pool) (c : Constant) :
    (pool.intern c).1 = .ofNat ((pool.intern c).2.toList.idxOf c) := by
  obtain ⟨position, hslot, hat⟩ := pool.intern_eq_position c
  rw [← Array.getElem?_toList] at hat
  rw [hslot, (getElem?_toList_eq_some_iff.mp hat).2]

theorem eraseDups_concat (constants : List Constant) (c : Constant) :
    (constants ++ [c]).eraseDups =
      if c ∈ constants then constants.eraseDups else constants.eraseDups ++ [c] := by
  rw [List.eraseDups_append]
  by_cases hmem : c ∈ constants <;> simp [List.removeAll, List.eraseDups_cons, hmem]

theorem toList_next (constants : List Constant) (hpool : pool.toList = constants.eraseDups) :
    (call.next pool).toList = (constants ++ call.added?.toList).eraseDups := by
  cases call with
  | intern c =>
    have hmem : c ∈ pool.toList ↔ c ∈ constants := by rw [hpool, List.mem_eraseDups]
    simp only [Call.next, Call.added?, Option.toList_some, toList_intern, eraseDups_concat, hmem]
    rw [hpool]
  | find c => simpa [Call.next, Call.added?] using hpool
  | get slot => simpa [Call.next, Call.added?] using hpool

theorem toList_history (calls : List Call) :
    (history calls).toList = (additions calls).eraseDups := by
  induction calls using List.reverseRecOn with
  | nil => simp [history, additions, empty, toList]
  | append_singleton calls call ih =>
    rw [history_concat, toList_next _ ih, additions_append]
    cases call <;> rfl

theorem mem_history : c ∈ (history calls).toList ↔ c ∈ additions calls := by
  rw [toList_history, List.mem_eraseDups]

theorem history_prefix (calls later : List Call) :
    (history calls).toList <+: (history (calls ++ later)).toList := by
  rw [toList_history, toList_history, additions_append, List.eraseDups_append]
  exact List.prefix_append _ _

theorem idxOf_history_append (h : c ∈ (history calls).toList) :
    (history (calls ++ later)).toList.idxOf c = (history calls).toList.idxOf c := by
  obtain ⟨rest, hrest⟩ := history_prefix calls later
  rw [← hrest, List.idxOf_append_of_mem h]

theorem mem_history_intern (calls later : List Call) (c : Constant) :
    c ∈ (history (calls ++ .intern c :: later)).toList := by
  rw [mem_history, additions_append]
  exact List.mem_append_right _ (List.mem_filterMap.mpr ⟨.intern c, List.mem_cons_self, rfl⟩)

theorem intern_eq_idxOf_history (calls later : List Call) (c : Constant) :
    ((history calls).intern c).1 =
      .ofNat ((history (calls ++ .intern c :: later)).toList.idxOf c) := by
  have hmem : c ∈ (history (calls ++ [.intern c])).toList := mem_history_intern calls [] c
  rw [intern_eq_idxOf, List.append_cons, idxOf_history_append hmem, history_concat]
  rfl

theorem toNat_ofNat_idxOf (hfew : (additions calls).eraseDups.length < 2 ^ 32)
    (hmem : c ∈ (history calls).toList) :
    (UInt32.ofNat ((history calls).toList.idxOf c)).toNat = (history calls).toList.idxOf c := by
  have hlt := List.idxOf_lt_length_of_mem hmem
  rw [toList_history] at hlt ⊢
  rw [UInt32.toNat_ofNat']
  exact Nat.mod_eq_of_lt (Nat.lt_trans hlt hfew)

/-- After any calls the pool lists the added constants without later repetitions. An added
constant is given its place in that list and is held there for good, and it is found
exactly if it was added. Numbers are told apart by their bits, and from integers. -/
theorem slots_stable (calls : List Call) (hfew : (additions calls).eraseDups.length < 2 ^ 32) :
    (history calls).toList = (additions calls).eraseDups ∧
    (∀ (earlier later : List Call) (c : Constant), calls = earlier ++ .intern c :: later →
      ∃ slot, (Call.intern c).answer (history earlier) = .given slot ∧
        (history calls).toList.idxOf c = slot.toNat ∧
        (Call.get slot).answer (history calls) = .held (some c)) ∧
    (∀ (c : Constant) (slot : UInt32),
      (Call.find c).answer (history calls) = .found (some slot) ↔
        c ∈ additions calls ∧ (history calls).toList.idxOf c = slot.toNat) ∧
    (∀ x y : Binary64, Constant.number x = .number y ↔ x.bits = y.bits) ∧
    ∀ (n : Int64) (x : Binary64), Constant.integer n ≠ .number x := by
  refine ⟨toList_history calls, ?_, fun c slot => ?_, fun x y => ?_, by simp⟩
  · rintro earlier later c rfl
    have hmem := mem_history_intern earlier later c
    have hplace := toNat_ofNat_idxOf hfew hmem
    rw [← intern_eq_idxOf_history] at hplace
    exact ⟨_, rfl, hplace.symm, congrArg Answer.held (get?_eq_some_iff.mpr ⟨hmem, hplace.symm⟩)⟩
  · rw [← mem_history]
    simp only [Call.answer, Answer.found.injEq, find?_eq_some_iff]
    refine and_congr_right fun hmem => ?_
    have hplace := toNat_ofNat_idxOf hfew hmem
    constructor
    · rintro rfl
      exact hplace.symm
    · exact fun h => UInt32.toNat_inj.mp (hplace.trans h)
  · rw [Constant.number.injEq, Binary64.mk.injEq]

/-- Calls that come before and after positive zero is added. Negative zero and the integer are
other constants. -/
def beforeZero : List Call :=
  [.intern (.integer 0), .find .nil, .intern (.number ⟨0x8000000000000000⟩)]

def afterZero : List Call :=
  [.intern (.integer 0), .get 7, .find (.number ⟨0⟩), .intern .nil]

theorem slots_stable_zeros :
    ∃ slot, (Call.intern (.number ⟨0⟩)).answer (history beforeZero) = .given slot ∧
      (history (beforeZero ++ .intern (.number ⟨0⟩) :: afterZero)).toList =
        [.integer 0, .number ⟨0x8000000000000000⟩, .number ⟨0⟩, .nil] ∧ slot.toNat = 2 := by
  obtain ⟨hlist, hgiven, -⟩ :=
    slots_stable (beforeZero ++ .intern (.number ⟨0⟩) :: afterZero) (by decide)
  obtain ⟨slot, hslot, hplace, -⟩ := hgiven beforeZero afterZero (.number ⟨0⟩) rfl
  have hfinal : (history (beforeZero ++ .intern (.number ⟨0⟩) :: afterZero)).toList =
      [.integer 0, .number ⟨0x8000000000000000⟩, .number ⟨0⟩, .nil] := hlist.trans (by decide)
  rw [hfinal] at hplace
  exact ⟨slot, hslot, hfinal, hplace.symm.trans (by decide)⟩

end Pool

end RegisterCode
