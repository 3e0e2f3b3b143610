import Mathlib.Data.List.Infix
import RegisterCode.Proofs.ParkedJumps

/-! Closing a loop at the end of any run. The jumps that wait in it get their targets, and
no other instruction changes, however loops, sections and failures were mixed before. -/
namespace RegisterCode

open Action

def Code.Reaches (index target : Nat) : Prop :=
  -131071 ≤ (target : Int) - (index + 1) ∧ (target : Int) - (index + 1) ≤ 131072

theorem Code.displacement_of_lt {index target : Nat} (hindex : index < 2147483648)
    (htarget : target < 2147483648) : displacement index target = target - (index + 1) :=
  Int.bmod_eq_of_le (by omega) (by omega)

theorem Loop.mem_parked_of_sends {loop : Loop} {here index target : Nat}
    (h : loop.Sends here index target) : index ∈ loop.parked := by
  rcases h with ⟨hbreak, -⟩ | ⟨hcontinue, -⟩
  · exact List.mem_append_left _ hbreak
  · exact List.mem_append_right _ hcontinue

theorem Instruction.accept_jmp_eq_error {i : Instruction} (hop : i.op = .jmp)
    (ha : 0 ≤ i.a ∧ i.a ≤ 255) {tables : Tables} {previous : Option Instruction} {error : Error}
    (h : i.accept tables previous = .error error) :
    ¬ (-131071 ≤ i.b ∧ i.b ≤ 131072) ∧ error = i.fault .sbx i.b (-131071) 131072 := by
  have hlayout : i.op.layout = .asbx := by rw [hop]; rfl
  have hentry : i.checkEntry tables previous = .ok () := by rw [checkEntry, hop]
  have hencode : i.encode = .error error := by
    rw [accept_eq (by simp [hlayout]), hentry] at h
    cases hword : i.encode with
    | ok word => simp [hword, bind, Except.bind] at h
    | error error' => simpa [hword, bind, Except.bind] using h
  obtain ⟨slot, hfault, rfl⟩ := encode_eq_error_iff.mp hencode
  obtain ⟨hout, hslot⟩ : ¬ slot.InRange ∧ slot ∈ i.slots := by
    unfold firstFault? at hfault
    exact ⟨by simpa using List.find?_some hfault, List.mem_of_find?_eq_some hfault⟩
  simp only [slots, hlayout, List.mem_cons, List.not_mem_nil, or_false] at hslot
  rcases hslot with rfl | rfl
  · exact absurd ha hout
  · exact ⟨hout, rfl⟩

namespace FunctionBuilder

variable {f f' f'' initial : FunctionBuilder} {goes : Nat → Nat → Prop} {index target : Nat}
  {operations : List Operation}

def JumpsTo (f : FunctionBuilder) (index target : Nat) : Prop :=
  ∃ jump, f.listing[index]? = some jump ∧ jump.op = .jmp ∧ (index : Int) + 1 + jump.b = target

theorem AimedAt.jumpsTo (h : AimedAt f f' index target) (hop : f.opAt? index = some .jmp)
    (hindex : index < 2147483648) (htarget : target < 2147483648) : f'.JumpsTo index target := by
  obtain ⟨jump, ⟨hat, -⟩, haimed⟩ := h
  obtain ⟨jump', hat', hjump⟩ := opAt?_eq_some.mp hop
  obtain rfl : jump' = jump := Option.some.inj (hat'.symm.trans hat)
  refine ⟨_, haimed, hjump, ?_⟩
  simp only [aimed, Code.displacement_of_lt hindex htarget]
  omega

theorem Aims.encodes_a (h : Aims goes f f')
    (hencodes : ∀ i ∈ f.listing, ∃ word, i.encode = .ok word) {jump : Instruction}
    (hat : f'.listing[index]? = some jump) (hop : jump.op = .jmp) :
    0 ≤ jump.a ∧ jump.a ≤ 255 := by
  -- aiming a jump does not touch the field
  obtain ⟨i, hi, ha, hi'⟩ : ∃ i, f.listing[index]? = some i ∧ i.a = jump.a ∧ i.op = .jmp := by
    rcases h.code index with hkept | ⟨i, target, -, ⟨hi, -⟩, haimed⟩
    · exact ⟨jump, hkept ▸ hat, rfl, hop⟩
    · obtain rfl : jump = aimed i index target := Option.some.inj (hat.symm.trans haimed)
      exact ⟨i, hi, rfl, hop⟩
  have hslots := Instruction.encode_isOk_iff.mp (hencodes i (List.mem_of_getElem? hi))
  have hslot : (⟨.a, 0, 255, i.a⟩ : Instruction.Slot).InRange :=
    hslots _ (by simp [Instruction.slots, hi', Opcode.layout, Opcode.traits])
  exact ha ▸ hslot

theorem Aims.aim_eq_error (h : Aims goes f f') (hop : f.opAt? index = some .jmp)
    (hencodes : ∀ i ∈ f.listing, ∃ word, i.encode = .ok word) (hindex : index < 2147483648)
    (htarget : target < 2147483648) {error : Error}
    (hrun : aim index target f' = .error error f'') :
    ¬ Code.Reaches index target ∧ ∃ line, error =
      .outOfRange ⟨"JMP", .sbx, (target : Int) - (index + 1), -131071, 131072, line⟩ := by
  obtain ⟨jump, hat, hjump⟩ := opAt?_eq_some.mp ((h.opAt? index).trans hop)
  have hjumpAt : f'.JumpAt index jump := ⟨hat, by rw [hjump]; rfl⟩
  rcases aim_cases index target f' with ⟨_, -, hok⟩ | ⟨error', herror, hrefused⟩
  · simp [hok] at hrun
  · rw [herror] at hrun
    cases hrun
    have ha := h.encodes_a hencodes hat hjump
    obtain ⟨hfar, rfl⟩ := Instruction.accept_jmp_eq_error (i := aimed jump index target) hjump ha
      (hrefused jump hjumpAt)
    simp only [aimed, Code.displacement_of_lt hindex htarget] at hfar
    refine ⟨hfar, jump.line, ?_⟩
    simp only [Instruction.fault, aimed, hjump, Code.displacement_of_lt hindex htarget]
    rfl

theorem Parking.sends_lt (h : f.Parking) (hpc : f.pc < 2147483648) {loop : Loop}
    (hloop : loop ∈ f.loops.stack) (hsends : loop.Sends f.pc index target) :
    target < 2147483648 := by
  rcases hsends with ⟨-, rfl⟩ | ⟨-, htarget⟩
  · exact hpc
  · exact h.targets loop hloop target htarget

theorem mem_parkedIn_iff_waits (hinitial : IsInitial initial) (hheeds : Heeds operations initial)
    (hreplay : replay operations initial = f) {loop : Loop} {outer : List Loop}
    (hstack : f.loops.stack = loop :: outer) (statement : Operation) :
    index ∈ statement.parkedIn loop ↔
      KeepsWaiting initial operations statement outer.length index := by
  rw [← awaits_replay_iff hinitial hheeds, hreplay, awaits_cons hstack]
  simp

theorem mem_parked_iff_waits (hinitial : IsInitial initial) (hheeds : Heeds operations initial)
    (hreplay : replay operations initial = f) :
    index ∈ f.loops.parked ↔
      ∃ statement level, KeepsWaiting initial operations statement level index := by
  simp only [← awaits_replay_iff hinitial hheeds, hreplay]
  constructor
  · intro hparked
    obtain ⟨loop, hloop, hindex⟩ := List.mem_flatMap.mp hparked
    obtain ⟨level, hlevel⟩ := List.getElem?_of_mem hloop
    rcases List.mem_append.mp hindex with hbreak | hcontinue
    · exact ⟨.breakLoop, level, loop, hlevel, hbreak⟩
    · exact ⟨.continueLoop, level, loop, hlevel, hcontinue⟩
  · rintro ⟨statement, level, hawaits⟩
    exact hawaits.mem_parked

theorem Parking.not_mem_inner (h : f.Parking) {loop : Loop} {outer : List Loop}
    (hstack : f.loops.stack = loop :: outer) (houter : index ∈ (⟨outer⟩ : Loops).parked) :
    index ∉ loop.parked := by
  intro hinner
  have hdistinct := h.distinct
  rw [Loops.eq_of_stack hstack, Loops.parked_cons, List.nodup_append] at hdistinct
  exact hdistinct.2.2 index houter index hinner rfl

theorem Parking.not_mem_continues (h : f.Parking) {loop : Loop} {outer : List Loop}
    (hstack : f.loops.stack = loop :: outer) (hbreak : index ∈ loop.breaks) :
    index ∉ loop.continues := by
  intro hcontinue
  have hdistinct := h.distinct
  rw [Loops.eq_of_stack hstack, Loops.parked_cons, List.nodup_append] at hdistinct
  exact (List.nodup_append.mp hdistinct.2.1).2.2 index hbreak index hcontinue rfl

theorem Parking.opAt?_of_inner (h : f.Parking) {loop : Loop} {outer : List Loop}
    (hstack : f.loops.stack = loop :: outer) (hinner : index ∈ loop.parked) :
    f.opAt? index = some .jmp := by
  apply h.jumps
  rw [Loops.eq_of_stack hstack, Loops.parked_cons]
  exact List.mem_append_right _ hinner

theorem Parking.closeLoop_eq_error (h : f.Parking) (hreferenced : f.Referenced)
    (hpc : f.pc < 2147483648) {loop : Loop} {outer : List Loop}
    (hstack : f.loops.stack = loop :: outer) {error : Error}
    (hrun : closeLoop f = .error error f') :
    (∃ p target line, loop.Sends f.pc p target ∧ ¬ Code.Reaches p target ∧ error =
      .outOfRange ⟨"JMP", .sbx, (target : Int) - (p + 1), -131071, 131072, line⟩) ∨
      loop.continueTarget = none ∧ (∃ p, p ∈ loop.continues) ∧
        error = .discipline (.continuesUnplaced loop.continues.length) := by
  rcases closeLoop_cases hstack with ⟨_, hok, -⟩ | ⟨error', _, herror, haims, hcause⟩
  · simp [hok] at hrun
  · rw [herror] at hrun
    cases hrun
    rcases hcause with ⟨p, target, hsends, haim⟩ | ⟨hnone, hcontinues, rfl⟩
    · have hop := h.opAt?_of_inner hstack (Loop.mem_parked_of_sends hsends)
      have htarget := h.sends_lt hpc (hstack ▸ List.mem_cons_self) hsends
      have hp := lt_pc_of_opAt? hop
      obtain ⟨hfar, line, rfl⟩ :=
        haims.aim_eq_error hop hreferenced.encodes (by omega) htarget haim
      exact .inl ⟨p, target, line, hsends, hfar, rfl⟩
    · exact .inr ⟨hnone, List.exists_mem_of_ne_nil _ hcontinues, rfl⟩

theorem Parking.closeLoop_eq_ok (h : f.Parking) (hpc : f.pc < 2147483648) {loop : Loop}
    {outer : List Loop} (hstack : f.loops.stack = loop :: outer)
    (hrun : closeLoop f = .ok () f') :
    f'.loops = ⟨outer⟩ ∧ (∀ p ∈ loop.breaks, f'.JumpsTo p f.pc) ∧
      (∀ p ∈ loop.continues, ∃ target, loop.continueTarget = some target ∧ f'.JumpsTo p target) ∧
      ∀ p, p ∉ loop.parked → f'.listing[p]? = f.listing[p]? := by
  rcases closeLoop_cases hstack with ⟨_, hok, haims, hbreaks, hcontinues⟩ | ⟨_, _, herror, -⟩
  · rw [hok] at hrun
    cases hrun
    refine ⟨haims.loops, ?_, ?_, ?_⟩
    · intro p hp
      have hop := h.opAt?_of_inner hstack (List.mem_append_left _ hp)
      have hlt := lt_pc_of_opAt? hop
      exact (hbreaks p hp (h.not_mem_continues hstack hp)).jumpsTo hop (by omega) hpc
    · intro p hp
      have hop := h.opAt?_of_inner hstack (List.mem_append_right _ hp)
      have hlt := lt_pc_of_opAt? hop
      obtain ⟨target, htarget, haimed⟩ := hcontinues p hp
      have hreach := h.targets loop (hstack ▸ List.mem_cons_self) target htarget
      exact ⟨target, htarget, haimed.jumpsTo hop (by omega) hreach⟩
    · intro p hp
      rcases haims.code p with hkept | ⟨_, target, hsends, -⟩
      · exact hkept
      · exact absurd (Loop.mem_parked_of_sends hsends) hp
  · simp [herror] at hrun

/-- Parked jumps are never lost, duplicated or misdirected. After any run that leaves them
alone, the open loops remember exactly the jumps that wait, each once and each a jump of the
code. Closing a loop fails only for a jump that is too far from its target or for a missing
target; otherwise each jump that waits in the loop goes where it should, and every other
instruction, in particular what waits in the loops around, is as it was. -/
theorem closeLoop_aims_waiting_jumps (hinitial : IsInitial initial)
    (hheeds : Heeds operations initial) (hreplay : replay operations initial = f)
    (hpc : f.pc < 2147483648) :
    f.loops.parked.Nodup ∧
      (∀ p, p ∈ f.loops.parked ↔
        ∃ statement level, KeepsWaiting initial operations statement level p) ∧
      (∀ p ∈ f.loops.parked, p < f.pc ∧ ∃ jump, f.listing[p]? = some jump ∧ jump.op = .jmp) ∧
      ∀ loop outer, f.loops.stack = loop :: outer →
        (∀ error f', closeLoop f = .error error f' →
          (∃ p target line,
            (KeepsWaiting initial operations .breakLoop outer.length p ∧ target = f.pc ∨
              KeepsWaiting initial operations .continueLoop outer.length p ∧
                loop.continueTarget = some target) ∧ ¬ Code.Reaches p target ∧ error =
            .outOfRange ⟨"JMP", .sbx, (target : Int) - (p + 1), -131071, 131072, line⟩) ∨
            loop.continueTarget = none ∧
              (∃ p, KeepsWaiting initial operations .continueLoop outer.length p) ∧
              error = .discipline (.continuesUnplaced loop.continues.length)) ∧
        ∀ f', closeLoop f = .ok () f' →
          (∀ p, KeepsWaiting initial operations .breakLoop outer.length p → f'.JumpsTo p f.pc) ∧
          (∀ p, KeepsWaiting initial operations .continueLoop outer.length p →
            ∃ target, loop.continueTarget = some target ∧ f'.JumpsTo p target) ∧
          (∀ p, ¬ KeepsWaiting initial operations .breakLoop outer.length p →
            ¬ KeepsWaiting initial operations .continueLoop outer.length p →
            f'.listing[p]? = f.listing[p]?) ∧
          f'.loops.stack = outer ∧ ∀ p ∈ f'.loops.parked, f'.listing[p]? = f.listing[p]? := by
  have hparking : f.Parking := hreplay ▸ hinitial.parking.replay hheeds
  have hreferenced : f.Referenced := hreplay ▸ (replay_reachable hinitial operations).referenced
  refine ⟨hparking.distinct, fun p => mem_parked_iff_waits hinitial hheeds hreplay, ?_, ?_⟩
  · intro p hp
    exact ⟨hparking.lt_pc hp, opAt?_eq_some.mp (hparking.jumps p hp)⟩
  intro loop outer hstack
  have hbreak : ∀ p, p ∈ loop.breaks ↔ KeepsWaiting initial operations .breakLoop outer.length p :=
    fun p => mem_parkedIn_iff_waits hinitial hheeds hreplay hstack .breakLoop
  have hcontinue : ∀ p, p ∈ loop.continues ↔
      KeepsWaiting initial operations .continueLoop outer.length p :=
    fun p => mem_parkedIn_iff_waits hinitial hheeds hreplay hstack .continueLoop
  simp only [← hbreak, ← hcontinue]
  refine ⟨?_, ?_⟩
  · intro error f' hrun
    exact hparking.closeLoop_eq_error hreferenced hpc hstack hrun
  · intro f' hrun
    obtain ⟨hloops, hbreaks, hcontinues, hothers⟩ := hparking.closeLoop_eq_ok hpc hstack hrun
    refine ⟨hbreaks, hcontinues, ?_, congrArg Loops.stack hloops, ?_⟩
    · intro p hnobreak hnocontinue
      refine hothers p fun hp => ?_
      exact (List.mem_append.mp hp).elim hnobreak hnocontinue
    · intro p hp
      exact hothers p (hparking.not_mem_inner hstack (hloops ▸ hp))

/-- Jumps out of two loops, one of them discarded with its section, and failures between
them. -/
def tangled : List Operation :=
  [.openLoop none, .breakLoop, .continueLoop, .openSection, .breakLoop, .discardSection,
    .openLoop (some 0), .breakLoop, .popTemporary, .closeLoop, .emit { op := .move },
    .replace 3 { op := .move, a := 1 }, .closeScope, .closeScope, .aimContinue 1]

theorem closeLoop_aims_waiting_jumps_tangled :
    ∃ f', closeLoop (replay tangled (start "f" none 1)) = .ok () f' ∧ f'.JumpsTo 0 4 ∧
      f'.JumpsTo 1 1 ∧ f'.loops.stack = [] := by
  have hinitial : IsInitial (start "f" none 1) := .start "f" none 1
  have hheeds : Heeds tangled (start "f" none 1) := by
    have hfree : 3 ∉ (replay (tangled.take 11) (start "f" none 1)).loops.parked := by
      decide +kernel
    simp only [tangled, Heeds, Careful, Option.mem_def, reduceCtorEq, false_implies, implies_true,
      true_and, and_true]
    exact ⟨by simp, hfree, by decide⟩
  have hbreak : KeepsWaiting (start "f" none 1) tangled .breakLoop 0 0 := by
    have hparks : (replay (tangled.take 1) (start "f" none 1)).loops.stack ≠ [] := by
      decide +kernel
    refine ⟨tangled.take 1, tangled.drop 2, rfl, hparks, by decide +kernel, by decide +kernel, ?_⟩
    intro since hbegins
    rw [← List.mem_inits] at hbegins
    revert since
    decide +kernel
  have hcontinue : KeepsWaiting (start "f" none 1) tangled .continueLoop 0 1 := by
    have hparks : ∃ loop ∈ (replay (tangled.take 2) (start "f" none 1)).loops.stack.head?,
        loop.continueTarget = none := ⟨{ breaks := [0] }, by decide +kernel, rfl⟩
    refine ⟨tangled.take 2, tangled.drop 3, rfl, hparks, by decide +kernel, by decide +kernel, ?_⟩
    intro since hbegins
    rw [← List.mem_inits] at hbegins
    revert since
    decide +kernel
  have hpc : (replay tangled (start "f" none 1)).pc = 4 := by decide +kernel
  have hstack : (replay tangled (start "f" none 1)).loops.stack =
      [{ continueTarget := some 1, breaks := [0], continues := [1] }] := by decide +kernel
  have hclosed : closeLoop.value? (replay tangled (start "f" none 1)) = some () := by
    decide +kernel
  have hrun := value?_eq_some hclosed
  obtain ⟨-, -, -, hloop⟩ :=
    closeLoop_aims_waiting_jumps hinitial hheeds rfl (by rw [hpc]; decide)
  obtain ⟨hbreaks, hcontinues, -, hgone, -⟩ := (hloop _ _ hstack).2 _ hrun
  obtain ⟨target, htarget, hjumps⟩ := hcontinues 1 hcontinue
  cases htarget
  exact ⟨_, hrun, hpc ▸ hbreaks 0 hbreak, hjumps, hgone⟩

end FunctionBuilder

end RegisterCode
