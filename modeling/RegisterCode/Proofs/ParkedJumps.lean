import Mathlib.Data.List.Induction
import RegisterCode.Proofs.ClosedFunctions
import RegisterCode.Proofs.LoopEffects

/-! Parked jumps along a run. A loop remembers exactly the jumps that left it, still stand
in the code and have no target yet, so that closing it aims these and no others. -/
namespace RegisterCode

open Action

namespace Loops

@[simp] theorem parked_cons (loop : Loop) (outer : List Loop) :
    (⟨loop :: outer⟩ : Loops).parked = (⟨outer⟩ : Loops).parked ++ loop.parked := by
  simp [parked]

theorem eq_of_stack {loops : Loops} {stack : List Loop} (h : loops.stack = stack) :
    loops = ⟨stack⟩ := by
  rw [← h]

end Loops

namespace FunctionBuilder

variable {f f' : FunctionBuilder} {operation statement : Operation} {goes : Nat → Nat → Prop}

/-- Parked jumps are left alone, and no continue target is out of a jump's reach. -/
def Careful (f : FunctionBuilder) : Operation → Prop
  | .replace index _ => index ∉ f.loops.parked
  | .openLoop target => ∀ goal ∈ target, goal < 2147483648
  | .aimContinue target => target < 2147483648
  | _ => True

def opAt? (f : FunctionBuilder) (index : Nat) : Option Opcode :=
  f.listing[index]?.map Instruction.op

theorem opAt?_eq_some {index : Nat} {op : Opcode} :
    f.opAt? index = some op ↔ ∃ i, f.listing[index]? = some i ∧ i.op = op := by
  simp [opAt?]

theorem lt_pc_of_opAt? {index : Nat} {op : Opcode} (h : f.opAt? index = some op) :
    index < f.pc := by
  obtain ⟨i, hat, -⟩ := opAt?_eq_some.mp h
  rw [← length_listing]
  exact (List.getElem?_eq_some_iff.mp hat).1

theorem Aims.opAt? (h : Aims goes f f') (index : Nat) : f'.opAt? index = f.opAt? index := by
  unfold FunctionBuilder.opAt?
  rcases h.code index with hkept | ⟨jump, target, -, ⟨hat, -⟩, haimed⟩
  · rw [hkept]
  · rw [hat, haimed]
    rfl

theorem Aims.loops (h : Aims goes f f') : f'.loops = f.loops := by
  obtain ⟨instructions, rfl⟩ := h.only
  rfl

structure Parking (f : FunctionBuilder) : Prop where
  distinct : f.loops.parked.Nodup
  jumps : ∀ p ∈ f.loops.parked, f.opAt? p = some .jmp
  targets : ∀ loop ∈ f.loops.stack, ∀ target ∈ loop.continueTarget, target < 2147483648

theorem IsInitial.loops_eq (h : IsInitial f) : f.loops = {} := by
  cases h <;> rfl

theorem IsInitial.parking (h : IsInitial f) : f.Parking := by
  constructor
  · simp [h.loops_eq, Loops.parked]
  · simp [h.loops_eq, Loops.parked]
  · simp [h.loops_eq]

theorem Parking.lt_pc (h : f.Parking) {p : Nat} (hp : p ∈ f.loops.parked) : p < f.pc :=
  lt_pc_of_opAt? (h.jumps p hp)

theorem Parking.of_same_loops (h : f.Parking) (hloops : f'.loops = f.loops)
    (hop : ∀ p ∈ f.loops.parked, f'.opAt? p = f.opAt? p) : f'.Parking := by
  refine ⟨hloops ▸ h.distinct, ?_, hloops ▸ h.targets⟩
  intro p hp
  rw [hloops] at hp
  rw [hop p hp]
  exact h.jumps p hp

theorem opAt?_of_append {added : List Instruction} (hlisting : f'.listing = f.listing ++ added)
    {p : Nat} (hp : p < f.pc) : f'.opAt? p = f.opAt? p := by
  rw [← length_listing] at hp
  rw [opAt?, opAt?, hlisting, List.getElem?_append_left hp]

theorem opAt?_of_take {size : Nat} (hlisting : f'.listing = f.listing.take size) {p : Nat}
    (hp : p < size) : f'.opAt? p = f.opAt? p := by
  rw [opAt?, opAt?, hlisting, List.getElem?_take_of_lt hp]

theorem Parking.effect (h : f.Parking) (hcareful : f.Careful operation)
    (heffect : Effect f operation f') : f'.Parking := by
  cases heffect with
  | extend added hlisting hloops =>
    exact h.of_same_loops hloops fun p hp => opAt?_of_append hlisting (h.lt_pc hp)
  | replace index i i' hlisting hloops =>
    refine h.of_same_loops hloops fun p hp => ?_
    have hne : index ≠ p := by
      rintro rfl
      exact hcareful hp
    rw [opAt?, opAt?, hlisting, List.getElem?_set_ne hne]
  | aim haims => exact h.of_same_loops haims.loops fun p _ => haims.opAt? p
  | drop hpos hfree hlisting hloops =>
    refine h.of_same_loops hloops fun p hp => opAt?_of_take hlisting ?_
    have hlt := h.lt_pc hp
    have hne : p ≠ f.pc - 1 := by
      rintro rfl
      exact hfree hp
    omega
  | discard start hlisting hloops =>
    have hparked : f'.loops.parked = f.loops.parked.filter (· < start) := by
      rw [hloops, Loops.parked_keepBelow]
    refine ⟨hparked ▸ h.distinct.filter _, ?_, ?_⟩
    · intro p hp
      rw [hparked, List.mem_filter] at hp
      rw [opAt?_of_take hlisting (by simpa using hp.2)]
      exact h.jumps p hp.1
    · intro loop hloop target htarget
      rw [hloops, Loops.keepBelow, List.mem_map] at hloop
      obtain ⟨whole, hwhole, rfl⟩ := hloop
      exact h.targets whole hwhole target htarget
  | openLoop target hlisting hloops =>
    have hparked : f'.loops.parked = f.loops.parked := by
      rw [hloops, Loops.openLoop, Loops.parked_cons]
      exact List.append_nil _
    refine ⟨hparked ▸ h.distinct, ?_, ?_⟩
    · intro p hp
      rw [opAt?, hlisting]
      exact h.jumps p (hparked ▸ hp)
    · intro loop hloop goal hgoal
      rw [hloops, Loops.openLoop, List.mem_cons] at hloop
      rcases hloop with rfl | hloop
      · exact hcareful goal hgoal
      · exact h.targets loop hloop goal hgoal
  | @aimContinue _ target loop outer hstack hlisting hloops =>
    have hwhole := Loops.eq_of_stack hstack
    have hparked : f'.loops.parked = f.loops.parked := by
      rw [hloops, hwhole, Loops.parked_cons, Loops.parked_cons]
      rfl
    refine ⟨hparked ▸ h.distinct, ?_, ?_⟩
    · intro p hp
      rw [opAt?, hlisting]
      exact h.jumps p (hparked ▸ hp)
    · intro changed hchanged goal hgoal
      rw [hloops, List.mem_cons] at hchanged
      rcases hchanged with rfl | houter
      · cases hgoal
        exact hcareful
      · exact h.targets changed (hstack ▸ List.mem_cons_of_mem loop houter) goal hgoal
  | @closeLoop _ loop outer hstack haims =>
    have hloops : f'.loops = ⟨outer⟩ := haims.loops
    have hparked : f.loops.parked = f'.loops.parked ++ loop.parked := by
      rw [Loops.eq_of_stack hstack, hloops, Loops.parked_cons]
    refine ⟨(List.nodup_append.mp (hparked ▸ h.distinct)).1, ?_, ?_⟩
    · intro p hp
      rw [haims.opAt? p]
      exact h.jumps p (hparked ▸ List.mem_append_left _ hp)
    · intro other hother
      rw [hloops] at hother
      exact h.targets other (hstack ▸ List.mem_cons_of_mem loop hother)

theorem Parking.parksJump (h : f.Parking) (hparks : ParksJump f operation f') : f'.Parking := by
  obtain ⟨hstack, hgains, hjump, hlisting, hloops⟩ := hparks
  rename_i loop loop' outer jump
  have hwhole := Loops.eq_of_stack hstack
  have hparked : f'.loops.parked.Perm (f.pc :: f.loops.parked) := by
    rw [hloops, hwhole, Loops.parked_cons, Loops.parked_cons]
    exact (hgains.parked.append_left _).trans List.perm_middle
  refine ⟨?_, ?_, ?_⟩
  · rw [hparked.nodup_iff, List.nodup_cons]
    exact ⟨fun hp => Nat.lt_irrefl _ (h.lt_pc hp), h.distinct⟩
  · intro p hp
    rcases List.mem_cons.mp (hparked.mem_iff.mp hp) with rfl | hp
    · rw [opAt?_eq_some, hlisting]
      exact ⟨jump, by simp [← length_listing], hjump⟩
    · rw [opAt?_of_append hlisting (h.lt_pc hp)]
      exact h.jumps p hp
  · intro changed hchanged goal hgoal
    rw [hloops, List.mem_cons] at hchanged
    rcases hchanged with rfl | houter
    · rw [hgains.target] at hgoal
      exact h.targets loop (hstack ▸ List.mem_cons_self) goal hgoal
    · exact h.targets changed (hstack ▸ List.mem_cons_of_mem loop houter) goal hgoal

theorem Parking.after (h : f.Parking) (hcareful : f.Careful operation) :
    (operation.after f).Parking := by
  rcases operation.effect f with ⟨-, hparks⟩ | ⟨-, heffect⟩
  · exact h.parksJump hparks
  · exact h.effect hcareful heffect

/-- A jump of one kind waits in an open loop; the loops are counted from the outermost. -/
def Awaits (f : FunctionBuilder) (statement : Operation) (level index : Nat) : Prop :=
  ∃ loop, f.loops.stack.reverse[level]? = some loop ∧ index ∈ statement.parkedIn loop

theorem Operation.mem_parked_of_parkedIn {loop : Loop} {index : Nat}
    (h : index ∈ statement.parkedIn loop) : index ∈ loop.parked := by
  unfold Operation.parkedIn at h
  split at h
  · exact List.mem_append_left _ h
  · exact List.mem_append_right _ h
  · simp at h

variable {level index : Nat}

theorem Awaits.mem_parked (h : f.Awaits statement level index) : index ∈ f.loops.parked := by
  obtain ⟨loop, hloop, hindex⟩ := h
  exact List.mem_flatMap.mpr
    ⟨loop, List.mem_of_getElem? hloop, Operation.mem_parked_of_parkedIn hindex⟩

theorem Awaits.lt_depth (h : f.Awaits statement level index) : level < f.loops.depth := by
  obtain ⟨loop, hloop, -⟩ := h
  have hlt := (List.getElem?_eq_some_iff.mp hloop).1
  simpa [Loops.depth] using hlt

theorem awaits_cons {loop : Loop} {outer : List Loop} (hstack : f.loops.stack = loop :: outer) :
    f.Awaits statement level index ↔
      level = outer.length ∧ index ∈ statement.parkedIn loop ∨
        level < outer.length ∧ ∃ other, outer.reverse[level]? = some other ∧
          index ∈ statement.parkedIn other := by
  unfold Awaits
  rw [hstack, List.reverse_cons]
  rcases Nat.lt_trichotomy level outer.length with hlt | heq | hgt
  · rw [List.getElem?_append_left (by simpa using hlt)]
    simp [hlt, Nat.ne_of_lt hlt]
  · subst heq
    simp
  · have hnone : (outer.reverse ++ [loop])[level]? = none := by
      rw [List.getElem?_eq_none_iff]
      simpa using Nat.succ_le_of_lt hgt
    simp [hnone, Nat.ne_of_gt hgt, Nat.lt_asymm hgt]

theorem awaits_of_same (hsame : f'.Awaits statement level index ↔ f.Awaits statement level index)
    (hlt : f.Awaits statement level index → index < f'.pc) :
    f'.Awaits statement level index ↔
      f.Awaits statement level index ∧ index < f'.pc ∧ level < f'.loops.depth := by
  constructor
  · intro hawaits
    have hbefore := hsame.mp hawaits
    exact ⟨hbefore, hlt hbefore, hawaits.lt_depth⟩
  · intro hbefore
    exact hsame.mpr hbefore.1

theorem awaits_of_same_loops (hloops : f'.loops = f.loops)
    (hlt : f.Awaits statement level index → index < f'.pc) :
    f'.Awaits statement level index ↔
      f.Awaits statement level index ∧ index < f'.pc ∧ level < f'.loops.depth :=
  awaits_of_same (by rw [Awaits, Awaits, hloops]) hlt

theorem Operation.parkedIn_keepBelow (statement : Operation) (start : Nat) (loop : Loop) :
    statement.parkedIn (loop.keepBelow start) = (statement.parkedIn loop).filter (· < start) := by
  cases statement <;> rfl

/-- An operation that parks nothing loses the jumps that it cuts off, and those of the
loop that it closes. -/
theorem awaits_effect (h : f.Parking) (heffect : Effect f operation f') :
    f'.Awaits statement level index ↔
      f.Awaits statement level index ∧ index < f'.pc ∧ level < f'.loops.depth := by
  cases heffect with
  | extend added hlisting hloops =>
    refine awaits_of_same_loops hloops fun hawaits => ?_
    have hlt := h.lt_pc hawaits.mem_parked
    rw [← length_listing] at hlt ⊢
    rw [hlisting, List.length_append]
    omega
  | replace index' i i' hlisting hloops =>
    refine awaits_of_same_loops hloops fun hawaits => ?_
    have hlt := h.lt_pc hawaits.mem_parked
    rwa [← length_listing, hlisting, List.length_set, length_listing]
  | aim haims =>
    refine awaits_of_same_loops haims.loops fun hawaits => ?_
    rw [haims.pc]
    exact h.lt_pc hawaits.mem_parked
  | drop hpos hfree hlisting hloops =>
    refine awaits_of_same_loops hloops fun hawaits => ?_
    have hlt := h.lt_pc hawaits.mem_parked
    have hne : index ≠ f.pc - 1 := by
      rintro rfl
      exact hfree hawaits.mem_parked
    rw [← length_listing, hlisting, List.length_take, length_listing]
    omega
  | discard start hlisting hloops =>
    have hpc : f'.pc = min start f.pc := by
      rw [← length_listing, hlisting, List.length_take, length_listing]
    have hcut : f'.Awaits statement level index ↔
        f.Awaits statement level index ∧ index < start := by
      unfold Awaits
      rw [hloops, Loops.keepBelow, ← List.map_reverse, List.getElem?_map]
      cases f.loops.stack.reverse[level]? with
      | none => simp
      | some loop => simp [Operation.parkedIn_keepBelow]
    have hdepth : f'.loops.depth = f.loops.depth := by
      simp [hloops, Loops.keepBelow, Loops.depth]
    rw [hcut, hpc, hdepth]
    constructor
    · rintro ⟨hawaits, hlt⟩
      exact ⟨hawaits, Nat.lt_min.mpr ⟨hlt, h.lt_pc hawaits.mem_parked⟩, hawaits.lt_depth⟩
    · rintro ⟨hawaits, hlt, -⟩
      exact ⟨hawaits, (Nat.lt_min.mp hlt).1⟩
  | openLoop target hlisting hloops =>
    have hsame : f'.Awaits statement level index ↔ f.Awaits statement level index := by
      rw [awaits_cons (congrArg Loops.stack hloops)]
      constructor
      · rintro (⟨-, hnew⟩ | ⟨-, hawaits⟩)
        · cases statement <;> simp [Operation.parkedIn] at hnew
        · exact hawaits
      · intro hawaits
        exact .inr ⟨hawaits.lt_depth, hawaits⟩
    have hpc : f'.pc = f.pc := by rw [← length_listing, hlisting, length_listing]
    exact awaits_of_same hsame fun hawaits => hpc ▸ h.lt_pc hawaits.mem_parked
  | @aimContinue _ target loop outer hstack hlisting hloops =>
    have hsame : f'.Awaits statement level index ↔ f.Awaits statement level index := by
      rw [awaits_cons (congrArg Loops.stack hloops), awaits_cons hstack]
      cases statement <;> rfl
    have hpc : f'.pc = f.pc := by rw [← length_listing, hlisting, length_listing]
    exact awaits_of_same hsame fun hawaits => hpc ▸ h.lt_pc hawaits.mem_parked
  | @closeLoop _ loop outer hstack haims =>
    have hloops : f'.loops = ⟨outer⟩ := haims.loops
    have hdepth : f'.loops.depth = outer.length := by rw [hloops, Loops.depth]
    have hpc : f'.pc = f.pc := haims.pc
    rw [awaits_cons hstack, hpc, hdepth]
    constructor
    · intro hawaits
      have hlevel := hawaits.lt_depth
      rw [hdepth] at hlevel
      have houter : ∃ other, outer.reverse[level]? = some other ∧
          index ∈ statement.parkedIn other := by
        rwa [Awaits, hloops] at hawaits
      have hbefore : f.Awaits statement level index :=
        (awaits_cons hstack).mpr (.inr ⟨hlevel, houter⟩)
      exact ⟨.inr ⟨hlevel, houter⟩, h.lt_pc hbefore.mem_parked, hlevel⟩
    · rintro ⟨⟨hlevel, -⟩ | ⟨-, houter⟩, -, hlt⟩
      · omega
      · rwa [Awaits, hloops]

theorem awaits_parksJump (h : f.Parking) (hparks : ParksJump f operation f') :
    f'.Awaits statement level index ↔
      (f.Awaits statement level index ∧ index < f'.pc ∧ level < f'.loops.depth) ∨
        operation = statement ∧ f.loops.depth = level + 1 ∧ index = f.pc := by
  obtain ⟨hstack, hgains, -, hlisting, hloops⟩ := hparks
  rename_i loop loop' outer jump
  have hpc : f'.pc = f.pc + 1 := by
    rw [← length_listing, hlisting, List.length_append, length_listing]
    rfl
  have hdepth : f'.loops.depth = f.loops.depth := by
    simp [hloops, Loops.depth, hstack]
  have hlevel : f.loops.depth = outer.length + 1 := by simp [Loops.depth, hstack]
  have hsame : (f.Awaits statement level index ∧ index < f'.pc ∧ level < f'.loops.depth) ↔
      f.Awaits statement level index := by
    rw [hpc, hdepth]
    refine ⟨fun hawaits => hawaits.1, fun hawaits => ⟨hawaits, ?_, hawaits.lt_depth⟩⟩
    exact Nat.lt_succ_of_lt (h.lt_pc hawaits.mem_parked)
  rw [hsame, awaits_cons (congrArg Loops.stack hloops), awaits_cons hstack, hlevel]
  by_cases hkind : statement = operation
  · subst hkind
    rw [hgains.same, List.mem_append, List.mem_singleton]
    constructor
    · rintro (⟨rfl, hold | rfl⟩ | houter)
      · exact .inl (.inl ⟨rfl, hold⟩)
      · exact .inr ⟨rfl, rfl, rfl⟩
      · exact .inl (.inr houter)
    · rintro ((⟨rfl, hold⟩ | houter) | ⟨-, hlast, rfl⟩)
      · exact .inl ⟨rfl, .inl hold⟩
      · exact .inr houter
      · exact .inl ⟨by omega, .inr rfl⟩
  · rw [hgains.other statement hkind]
    exact ⟨.inl, fun hold => hold.resolve_right fun hnew => hkind hnew.1.symm⟩

/-- What waits after an operation: what waited before and is neither cut off nor left with
its loop, and the jump that the operation parks itself. -/
theorem awaits_after (h : f.Parking) :
    (operation.after f).Awaits statement level index ↔
      (f.Awaits statement level index ∧ index < (operation.after f).pc ∧
        level < (operation.after f).loops.depth) ∨
        operation = statement ∧ f.Parks statement ∧ f.loops.depth = level + 1 ∧ index = f.pc := by
  rcases operation.effect f with ⟨hparks, hjump⟩ | ⟨hnone, heffect⟩
  · rw [awaits_parksJump h hjump]
    constructor
    · rintro (hold | ⟨rfl, hnew⟩)
      · exact .inl hold
      · exact .inr ⟨rfl, hparks, hnew⟩
    · rintro (hold | ⟨rfl, -, hnew⟩)
      · exact .inl hold
      · exact .inr ⟨rfl, hnew⟩
  · rw [awaits_effect h heffect]
    constructor
    · exact .inl
    · rintro (hold | ⟨rfl, hparks, -⟩)
      · exact hold
      · exact absurd hparks hnone

def replay (operations : List Operation) (f : FunctionBuilder) : FunctionBuilder :=
  operations.foldl (fun f operation => operation.after f) f

def Heeds : List Operation → FunctionBuilder → Prop
  | [], _ => True
  | operation :: rest, f => f.Careful operation ∧ Heeds rest (operation.after f)

variable {operations : List Operation} {initial : FunctionBuilder}

theorem replay_concat (operations : List Operation) (operation : Operation) (f : FunctionBuilder) :
    replay (operations ++ [operation]) f = operation.after (replay operations f) := by
  simp [replay]

theorem replay_reachable (hinitial : IsInitial initial) (operations : List Operation) :
    (replay operations initial).Reachable fun _ _ => True :=
  ⟨initial, hinitial, runs_foldl operations (fun _ _ _ => trivial) initial⟩

theorem heeds_concat :
    Heeds (operations ++ [operation]) f ↔
      Heeds operations f ∧ (replay operations f).Careful operation := by
  induction operations generalizing f with
  | nil => simp [Heeds, replay]
  | cons first rest ih => simp [Heeds, replay, ih, and_assoc]

theorem Parking.replay (h : f.Parking) (hheeds : Heeds operations f) :
    (replay operations f).Parking := by
  induction operations generalizing f with
  | nil => exact h
  | cons operation rest ih => exact ih (h.after hheeds.1) hheeds.2

/-- One of the operations was a statement that parked the jump at an index, in the loop of
a level. Ever since the code has reached beyond the jump, and the loop has been open. -/
def KeepsWaiting (initial : FunctionBuilder) (operations : List Operation) (statement : Operation)
    (level index : Nat) : Prop :=
  ∃ earlier later, operations = earlier ++ statement :: later ∧
    (replay earlier initial).Parks statement ∧
    (replay earlier initial).loops.depth = level + 1 ∧ index = (replay earlier initial).pc ∧
    ∀ since, since <+: later →
      index < (replay (earlier ++ statement :: since) initial).pc ∧
        level < (replay (earlier ++ statement :: since) initial).loops.depth

theorem Parks.after (h : f.Parks statement) :
    (statement.after f).pc = f.pc + 1 ∧ (statement.after f).loops.depth = f.loops.depth := by
  rcases statement.effect f with ⟨-, hparks⟩ | ⟨hnone, -⟩
  · obtain ⟨hstack, -, -, hlisting, hloops⟩ := hparks
    refine ⟨?_, by simp [hloops, Loops.depth, hstack]⟩
    rw [← length_listing, hlisting, List.length_append, length_listing]
    rfl
  · exact absurd h hnone

theorem keepsWaiting_concat :
    KeepsWaiting initial (operations ++ [operation]) statement level index ↔
      (KeepsWaiting initial operations statement level index ∧
        index < (replay (operations ++ [operation]) initial).pc ∧
        level < (replay (operations ++ [operation]) initial).loops.depth) ∨
        operation = statement ∧ (replay operations initial).Parks statement ∧
          (replay operations initial).loops.depth = level + 1 ∧
          index = (replay operations initial).pc := by
  constructor
  · rintro ⟨earlier, later, hsplit, hparks, hdepth, hindex, hsince⟩
    rcases List.eq_nil_or_concat' later with rfl | ⟨middle, last, rfl⟩
    · obtain ⟨rfl, hlast⟩ := List.append_inj' hsplit rfl
      cases hlast
      exact .inr ⟨rfl, hparks, hdepth, hindex⟩
    · rw [← List.cons_append, ← List.append_assoc] at hsplit
      obtain ⟨rfl, hlast⟩ := List.append_inj' hsplit rfl
      cases hlast
      have hend := hsince _ List.prefix_rfl
      rw [← List.cons_append, ← List.append_assoc] at hend
      refine .inl ⟨⟨earlier, middle, rfl, hparks, hdepth, hindex, ?_⟩, hend⟩
      intro since hbegins
      exact hsince since (hbegins.trans (List.prefix_append middle _))
  · rintro (⟨⟨earlier, later, rfl, hparks, hdepth, hindex, hsince⟩, hend⟩ |
      ⟨rfl, hparks, hdepth, hindex⟩)
    · refine ⟨earlier, later ++ [operation], by simp, hparks, hdepth, hindex, ?_⟩
      intro since hbegins
      rcases List.prefix_concat_iff.mp hbegins with rfl | hbegins
      · simpa using hend
      · exact hsince since hbegins
    · refine ⟨operations, [], rfl, hparks, hdepth, hindex, ?_⟩
      intro since hbegins
      rw [List.prefix_nil.mp hbegins, replay_concat]
      obtain ⟨hpc, hsame⟩ := hparks.after
      omega

theorem awaits_replay_iff (hinitial : IsInitial initial) (hheeds : Heeds operations initial) :
    (replay operations initial).Awaits statement level index ↔
      KeepsWaiting initial operations statement level index := by
  -- on the last operation: the step lemma and `keepsWaiting_concat` have the same shape
  induction operations using List.reverseRecOn with
  | nil =>
    have hnone : ¬ (replay [] initial).Awaits statement level index := by
      rintro ⟨loop, hloop, -⟩
      simp [replay, hinitial.loops_eq] at hloop
    refine iff_of_false hnone ?_
    rintro ⟨earlier, later, hsplit, -⟩
    simp at hsplit
  | append_singleton operations operation ih =>
    obtain ⟨hbefore, -⟩ := heeds_concat.mp hheeds
    rw [keepsWaiting_concat, replay_concat, awaits_after (hinitial.parking.replay hbefore),
      ih hbefore]

end FunctionBuilder

end RegisterCode
