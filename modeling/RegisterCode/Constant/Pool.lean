import Std.Data.HashMap.Lemmas
import RegisterCode.Constant

/-! The constants of one function, each stored once in the order of first use. The
index from constants to slots is proof-carrying: it is the inverse of the list. -/
namespace RegisterCode

structure Pool where
  slots : Std.HashMap Constant Nat := ∅
  items : Array Constant := #[]
  slots_iff : ∀ (c : Constant) (i : Nat), slots[c]? = some i ↔ items[i]? = some c := by simp

namespace Pool

def empty : Pool := {}

def size (pool : Pool) : Nat :=
  pool.items.size

def toList (pool : Pool) : List Constant :=
  pool.items.toList

def get? (pool : Pool) (slot : UInt32) : Option Constant :=
  pool.items[slot.toNat]?

def position? (pool : Pool) (c : Constant) : Option Nat :=
  pool.slots[c]?

def find? (pool : Pool) (c : Constant) : Option UInt32 :=
  (pool.position? c).map .ofNat

theorem position?_eq_some_iff {pool : Pool} {c : Constant} {i : Nat} :
    pool.position? c = some i ↔ pool.items[i]? = some c :=
  pool.slots_iff c i

theorem position?_eq_none_iff {pool : Pool} {c : Constant} :
    pool.position? c = none ↔ c ∉ pool.items := by
  rw [Option.eq_none_iff_forall_ne_some, Array.mem_iff_getElem?, not_exists]
  exact forall_congr' fun i => not_congr position?_eq_some_iff

def push (pool : Pool) (c : Constant) (absent : pool.position? c = none) : Pool where
  slots := pool.slots.insert c pool.items.size
  items := pool.items.push c
  slots_iff := by
    intro d i
    have fresh : ∀ j, pool.items[j]? ≠ some c := fun j h => by
      have := (pool.slots_iff c j).mpr h
      simp_all [position?]
    have old := pool.slots_iff d i
    rw [Std.HashMap.getElem?_insert, Array.getElem?_push]
    by_cases hd : c = d
    · subst hd
      by_cases hi : i = pool.items.size
      · simp [hi]
      · simp [hi, fresh i, Ne.symm hi]
    · by_cases hi : i = pool.items.size
      · subst hi
        simp_all
      · simpa [hd, hi] using old

/-- The slot of a constant and the pool that has it. A slot is a word of 32 bits. -/
def intern (pool : Pool) (c : Constant) : UInt32 × Pool :=
  match h : pool.position? c with
  | some position => (.ofNat position, pool)
  | none => (.ofNat pool.size, pool.push c h)

theorem intern_eq_position (pool : Pool) (c : Constant) :
    ∃ position, (pool.intern c).1 = .ofNat position ∧
      (pool.intern c).2.items[position]? = some c := by
  unfold intern
  split
  next position h => exact ⟨position, rfl, position?_eq_some_iff.mp h⟩
  next h => exact ⟨pool.size, rfl, by simp [push, size]⟩

theorem toList_intern (pool : Pool) (c : Constant) :
    (pool.intern c).2.toList = if c ∈ pool.toList then pool.toList else pool.toList ++ [c] := by
  unfold intern
  split
  next position h =>
    have : c ∈ pool.items := Array.mem_iff_getElem?.mpr ⟨position, position?_eq_some_iff.mp h⟩
    simp [toList, this]
  next h =>
    have : c ∉ pool.items := position?_eq_none_iff.mp h
    simp [toList, push, this]

theorem nodup_toList (pool : Pool) : pool.toList.Nodup := by
  rw [List.nodup_iff_pairwise_ne, List.pairwise_iff_getElem]
  intro i j hi hj hlt heq
  have left := (pool.slots_iff pool.toList[i] i).mpr (by simp [toList])
  have right := (pool.slots_iff pool.toList[i] j).mpr (by rw [heq]; simp [toList])
  have := Option.some.inj (left.symm.trans right)
  omega

end Pool

end RegisterCode
