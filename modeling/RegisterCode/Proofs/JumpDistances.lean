import RegisterCode.Proofs.ClosedLoops
import RegisterCode.Proofs.RegisterUse

/-! How far jumps go. The distance from behind a jump to its target is cut down to a word of
32 bits before it is checked. So a distance is exact or refused, unless it is so far off that
the word which is left of it looks near. -/
namespace RegisterCode

open Action Relation

namespace Code

variable {code code' : Code} {tables : Tables} {index target : Nat} {i jump : Instruction}

inductive Operation
  | setLine (line : UInt32)
  | append (tables : Tables) (i : Instruction)
  | pop
  | replace (tables : Tables) (index : Nat) (i : Instruction)
  | jump (tables : Tables)
  | jumpTo (tables : Tables) (target : Nat)
  | aim (tables : Tables) (index target : Nat)
  | aimHere (tables : Tables) (index : Nat)
  | openSection
  | keepSection
  | discardSection (pending : List Nat)

def Operation.after : Operation → Code → Code
  | .setLine line, code => { code with line }
  | .append tables i, code => (Code.append tables i).after code
  | .pop, code => Code.pop.after code
  | .replace tables index i, code => (Code.replace tables index i).after code
  | .jump tables, code => (Code.jump tables).after code
  | .jumpTo tables target, code => (Code.jumpTo tables target).after code
  | .aim tables index target, code => (Code.aim tables index target).after code
  | .aimHere tables index, code => (Code.aimHere tables index).after code
  | .openSection, code => code.openSection
  | .keepSection, code => Code.keepSection.after code
  | .discardSection pending, code => (Code.discardSection pending).after code

def Reachable : Code → Prop :=
  ReflTransGen (fun code code' => ∃ operation : Operation, code' = operation.after code) {}

theorem append_cases (tables : Tables) (i : Instruction) (code : Code) :
    (∃ word, Instruction.accept { i with line := code.line } tables code.instructions.back? =
        .ok word ∧
      append tables i code = .ok code.size
        { code with instructions := code.instructions.push { i with line := code.line } }) ∨
      ∃ error, Instruction.accept { i with line := code.line } tables code.instructions.back? =
          .error error ∧
        append tables i code = .error error code := by
  unfold append
  dsimp only
  cases Instruction.accept { i with line := code.line } tables code.instructions.back? with
  | ok word => exact .inl ⟨word, rfl, rfl⟩
  | error error => exact .inr ⟨error, rfl, rfl⟩

theorem replace_cases (tables : Tables) (index : Nat) (i : Instruction) (code : Code) :
    (∃ (old : Instruction) (word : UInt32),
      Instruction.accept { i with line := old.line } tables (code.before? index) = .ok word ∧
      (replace tables index i).after code =
        { code with
          instructions := code.instructions.setIfInBounds index { i with line := old.line } }) ∨
      (replace tables index i).after code = code := by
  unfold Action.after replace
  cases code.get? index with
  | none => exact .inr rfl
  | some old =>
    dsimp only
    cases haccept : Instruction.accept { i with line := old.line } tables (code.before? index) with
    | ok word => exact .inl ⟨old, word, haccept, rfl⟩
    | error error => exact .inr rfl

theorem aim_eq (tables : Tables) (target : Nat) (hat : code.get? index = some jump)
    (hjump : jump.op.isJump = true) :
    aim tables index target code =
      match (FunctionBuilder.aimed jump index target).accept tables (code.before? index) with
      | .error error => .error error code
      | .ok _ => .ok ()
        { code with instructions :=
            code.instructions.setIfInBounds index (FunctionBuilder.aimed jump index target) } := by
  unfold aim replace
  simp only [hat, hjump, ↓reduceIte]
  rfl

def Encodes (code : Code) : Prop :=
  ∀ i ∈ code.instructions.toList, ∃ word, i.encode = .ok word

theorem Encodes.append (h : code.Encodes) (tables : Tables) (i : Instruction) :
    ((append tables i).after code).Encodes := by
  rcases append_cases tables i code with ⟨word, haccept, hrun⟩ | ⟨error, -, hrun⟩
  · rw [after_of_ok hrun]
    intro j hj
    rcases List.mem_append.mp (Array.toList_push ▸ hj) with hj | hj
    · exact h j hj
    · rw [List.mem_singleton.mp hj]
      exact ⟨word, Instruction.encode_of_accept haccept⟩
  · rwa [after_of_error hrun]

theorem Encodes.replace (h : code.Encodes) (tables : Tables) (index : Nat) (i : Instruction) :
    ((replace tables index i).after code).Encodes := by
  rcases replace_cases tables index i code with ⟨old, word, haccept, hafter⟩ | hafter
  · rw [hafter]
    intro j hj
    rcases List.mem_or_eq_of_mem_set (Array.toList_setIfInBounds ▸ hj) with hj | rfl
    · exact h j hj
    · exact ⟨word, Instruction.encode_of_accept haccept⟩
  · rwa [hafter]

theorem Encodes.aim (h : code.Encodes) (tables : Tables) (index target : Nat) :
    ((aim tables index target).after code).Encodes := by
  unfold Action.after Code.aim
  cases code.get? index with
  | none => exact h
  | some jump =>
    dsimp only
    by_cases hjump : jump.op.isJump = true
    · rw [if_pos hjump]
      exact h.replace tables index _
    · rwa [if_neg hjump]

theorem Encodes.discardSection (h : code.Encodes) (pending : List Nat) :
    ((discardSection pending).after code).Encodes := by
  unfold Action.after Code.discardSection
  cases code.sections with
  | nil => exact h
  | cons start outer =>
    dsimp only
    cases pending.find? (start ≤ ·) with
    | some label => exact h
    | none =>
      intro i hi
      exact h i (List.mem_of_mem_take (i := start) (by simpa using hi))

theorem Encodes.after (h : code.Encodes) (operation : Operation) :
    (operation.after code).Encodes := by
  cases operation with
  | setLine line => exact h
  | append tables i => exact h.append tables i
  | pop =>
    intro i hi
    exact h i (List.mem_of_mem_dropLast (Array.toList_pop ▸ hi))
  | replace tables index i => exact h.replace tables index i
  | jump tables => exact h.append tables _
  | jumpTo tables target => exact h.append tables _
  | aim tables index target => exact h.aim tables index target
  | aimHere tables index => exact h.aim tables index code.size
  | openSection => exact h
  | keepSection =>
    cases hsections : code.sections <;>
      simp only [Operation.after, Action.after, Code.keepSection, hsections] <;> exact h
  | discardSection pending => exact h.discardSection pending

theorem Reachable.encodes (h : code.Reachable) : code.Encodes := by
  induction h with
  | refl =>
    intro i hi
    simp at hi
  | tail _ hstep ih =>
    obtain ⟨operation, rfl⟩ := hstep
    exact ih.after operation

def distance (index target : Nat) : Int :=
  (target : Int) - (index + 1)

def InReach (distance : Int) : Prop :=
  -131071 ≤ distance ∧ distance ≤ 131072

instance (distance : Int) : Decidable (InReach distance) :=
  inferInstanceAs (Decidable (_ ∧ _))

/-- The distance is out of reach and yet in reach once it is cut down to a word. -/
def Wraps (distance : Int) : Prop :=
  ¬ InReach distance ∧ InReach (distance.bmod 4294967296)

theorem not_wraps_of_lt {distance : Int} (h : distance.natAbs < 4294836224) :
    ¬ Wraps distance := by
  rintro ⟨hfar, hnear⟩
  have hword := Int.bmod_add_bdiv distance 4294967296
  unfold InReach at hfar hnear
  omega

/-- A distance in reach is accepted as it is, any other one refused. -/
def ExactOr (accepted : Int → Prop) (refused : Prop) (distance : Int) : Prop :=
  if InReach distance then accepted distance else refused

theorem exactOr_iff_not_wraps {accepted : Int → Prop} {refused : Prop} {distance : Int}
    (hword : ExactOr accepted refused (distance.bmod 4294967296))
    (hone : ∀ d, accepted d → ¬ refused) :
    ExactOr accepted refused distance ↔ ¬ Wraps distance := by
  unfold ExactOr at hword ⊢
  by_cases hreach : InReach distance
  · have hsame : distance.bmod 4294967296 = distance := by
      unfold InReach at hreach
      exact Int.bmod_eq_of_le (by omega) (by omega)
    rw [hsame] at hword
    exact ⟨fun _ hwraps => hwraps.1 hreach, fun _ => hword⟩
  · rw [if_neg hreach]
    by_cases hnear : InReach (distance.bmod 4294967296)
    · rw [if_pos hnear] at hword
      exact ⟨fun hrefused => absurd hrefused (hone _ hword), fun h => absurd ⟨hreach, hnear⟩ h⟩
    · rw [if_neg hnear] at hword
      exact ⟨fun _ hwraps => hnear hwraps.2, fun _ => hword⟩

def Carries (distance : Int) (i : Instruction) : Prop :=
  i.b = distance ∧ ∃ word j, i.encode = .ok word ∧ Instruction.decode word = .ok j ∧
    j.b = distance

def Refuses {α : Type} (action : Action Code α) (code : Code) : Prop :=
  ∃ fault, action code = .error (.outOfRange fault) code

/-- Aiming succeeds. The jump gets the distance and keeps the rest, and all other
instructions are as they were. -/
def Aims (tables : Tables) (index target : Nat) (code : Code) (distance : Int) : Prop :=
  ∃ code' jump jump', aim tables index target code = .ok () code' ∧
    code.get? index = some jump ∧ code'.get? index = some jump' ∧ jump'.op = jump.op ∧
    jump'.a = jump.a ∧ jump'.line = jump.line ∧ Carries distance jump' ∧
    code'.size = code.size ∧ ∀ k, k ≠ index → code'.get? k = code.get? k

def Places (tables : Tables) (target : Nat) (code : Code) (distance : Int) : Prop :=
  ∃ jump, jumpTo tables target code =
      .ok code.size { code with instructions := code.instructions.push jump } ∧
    jump.op = .jmp ∧ jump.line = code.line ∧ Carries distance jump

def AimsExactly (tables : Tables) (index target : Nat) (code : Code) (distance : Int) : Prop :=
  ExactOr (Aims tables index target code) (Refuses (aim tables index target) code) distance

def PlacesExactly (tables : Tables) (target : Nat) (code : Code) (distance : Int) : Prop :=
  ExactOr (Places tables target code) (Refuses (jumpTo tables target) code) distance

end Code

namespace Instruction

variable {i : Instruction}

theorem accept_of_isJump (hjump : i.op.isJump = true) (tables : Tables)
    (previous : Option Instruction) : i.accept tables previous = i.encode := by
  have hlayout : i.op.layout ≠ .abc := by
    rcases Opcode.isJump_cases hjump with hop | hop | hop | hop <;> rw [hop] <;> decide
  have hentry : i.checkEntry tables previous = .ok () := by
    rcases Opcode.isJump_cases hjump with hop | hop | hop | hop <;> rw [checkEntry, hop]
  rw [accept_eq hlayout, hentry]
  cases i.encode <;> rfl

theorem slots_of_isJump (hjump : i.op.isJump = true) :
    i.slots = [⟨.a, 0, 255, i.a⟩, ⟨.sbx, -131071, 131072, i.b⟩] := by
  have hlayout : i.op.layout = .asbx := by simpa [Opcode.isJump] using hjump
  simp only [slots, hlayout]

theorem encode_of_isJump (hjump : i.op.isJump = true) (ha : 0 ≤ i.a ∧ i.a ≤ 255) :
    (∃ word, i.encode = .ok word) ↔ Code.InReach i.b := by
  rw [encode_isOk_iff, slots_of_isJump hjump]
  simp only [List.mem_cons, List.not_mem_nil, or_false, forall_eq_or_imp, forall_eq, Slot.InRange,
    ha, and_self, true_and]
  exact Iff.rfl

theorem carries_of_encode {word : UInt32} (hjump : i.op.isJump = true)
    (h : i.encode = .ok word) : Code.Carries i.b i := by
  have hlayout : i.op.layout = .asbx := by simpa [Opcode.isJump] using hjump
  refine ⟨rfl, word, i.kept, h, decode_encode h, ?_⟩
  simp only [kept, hlayout]

end Instruction

namespace Code

variable {code : Code} {tables : Tables} {index target : Nat} {jump : Instruction}

theorem Encodes.jump_a (h : code.Encodes) (hat : code.get? index = some jump)
    (hjump : jump.op.isJump = true) : 0 ≤ jump.a ∧ jump.a ≤ 255 := by
  have hslots := Instruction.encode_isOk_iff.mp (h jump (Array.mem_of_getElem? hat).val)
  rw [Instruction.slots_of_isJump hjump] at hslots
  exact hslots ⟨.a, 0, 255, jump.a⟩ (by simp)

theorem Encodes.aimsExactly_word (h : code.Encodes) (tables : Tables) (target : Nat)
    (hat : code.get? index = some jump) (hjump : jump.op.isJump = true) :
    AimsExactly tables index target code (displacement index target) := by
  have haimed : (FunctionBuilder.aimed jump index target).op.isJump = true := hjump
  have ha := h.jump_a hat hjump
  have hencode := Instruction.encode_of_isJump haimed ha
  have hrun := aim_eq tables target hat hjump
  rw [Instruction.accept_of_isJump haimed] at hrun
  unfold AimsExactly ExactOr
  cases hword : (FunctionBuilder.aimed jump index target).encode with
  | ok word =>
    have hreach : InReach (displacement index target) := hencode.mp ⟨word, hword⟩
    rw [hword] at hrun
    rw [if_pos hreach]
    have hlt : index < code.instructions.size := (Array.getElem?_eq_some_iff.mp hat).1
    refine ⟨_, jump, _, hrun, hat, Array.getElem?_setIfInBounds_self_of_lt hlt, rfl, rfl, rfl,
      Instruction.carries_of_encode haimed hword, Array.size_setIfInBounds, ?_⟩
    intro k hk
    exact Array.getElem?_setIfInBounds_ne (Ne.symm hk)
  | error error =>
    have hfar : ¬ InReach (displacement index target) := by
      intro hreach
      obtain ⟨word, hok⟩ := hencode.mpr hreach
      simp [hword] at hok
    obtain ⟨fault, rfl⟩ := Instruction.encode_eq_error hword
    rw [hword] at hrun
    rw [if_neg hfar]
    exact ⟨fault, hrun⟩

theorem placesExactly_word (tables : Tables) (target : Nat) (code : Code) :
    PlacesExactly tables target code (displacement code.size target) := by
  have hencode := Instruction.encode_of_isJump
    (i := { op := .jmp, b := displacement code.size target, line := code.line }) rfl
    ⟨Int.le_refl 0, show (0 : Int) ≤ 255 by decide⟩
  unfold PlacesExactly ExactOr
  rcases append_cases tables { op := .jmp, b := displacement code.size target } code with
    ⟨word, haccept, hrun⟩ | ⟨error, hrefused, hrun⟩
  · rw [Instruction.accept_of_isJump rfl] at haccept
    have hreach : InReach (displacement code.size target) := hencode.mp ⟨word, haccept⟩
    rw [if_pos hreach]
    exact ⟨_, hrun, rfl, rfl, Instruction.carries_of_encode rfl haccept⟩
  · rw [Instruction.accept_of_isJump rfl] at hrefused
    have hfar : ¬ InReach (displacement code.size target) := by
      intro hreach
      obtain ⟨word, hok⟩ := hencode.mpr hreach
      simp [hrefused] at hok
    obtain ⟨fault, rfl⟩ := Instruction.encode_eq_error hrefused
    rw [if_neg hfar]
    exact ⟨fault, hrun⟩

theorem Aims.not_refuses {distance : Int} (h : Aims tables index target code distance) :
    ¬ Refuses (aim tables index target) code := by
  rintro ⟨fault, hrefused⟩
  obtain ⟨code', _, _, hrun, -⟩ := h
  simp [hrun] at hrefused

theorem Places.not_refuses {distance : Int} (h : Places tables target code distance) :
    ¬ Refuses (jumpTo tables target) code := by
  rintro ⟨fault, hrefused⟩
  obtain ⟨jump, hrun, -⟩ := h
  simp [hrun] at hrefused

/-- However code came about, aiming one of its jumps and jumping to a target obey the distance
as a word. So they are exact or refused for all distances but those that wrap, and what wraps
is off by almost a whole word. -/
theorem Reachable.exact_unless_wrapped (h : code.Reachable) (tables : Tables)
    (index target : Nat) :
    (∀ jump, code.get? index = some jump → jump.op.isJump = true →
      AimsExactly tables index target code (displacement index target) ∧
      (AimsExactly tables index target code (distance index target) ↔
        ¬ Wraps (distance index target))) ∧
    PlacesExactly tables target code (displacement code.size target) ∧
    (PlacesExactly tables target code (distance code.size target) ↔
      ¬ Wraps (distance code.size target)) ∧
    ∀ d : Int, d.natAbs < 4294836224 → ¬ Wraps d := by
  refine ⟨?_, placesExactly_word tables target code, ?_, fun _ => not_wraps_of_lt⟩
  · intro jump hat hjump
    have hword := h.encodes.aimsExactly_word tables target hat hjump
    exact ⟨hword, exactOr_iff_not_wraps hword fun _ => Aims.not_refuses⟩
  · exact exactOr_iff_not_wraps (placesExactly_word tables target code) fun _ =>
      Places.not_refuses

def waiting : Code :=
  (Code.jump {}).after {}

theorem reachable_waiting : waiting.Reachable :=
  .single ⟨.jump {}, rfl⟩

theorem Reachable.exact_unless_wrapped_ends :
    waiting.Reachable ∧ AimsExactly {} 0 131073 waiting 131072 ∧
      AimsExactly {} 0 131074 waiting 131073 ∧ PlacesExactly {} 0 waiting (-2) ∧
      Refuses (aim {} 0 131074) waiting := by
  have hat : waiting.get? 0 = some { op := .jmp } := rfl
  have hnear := reachable_waiting.exact_unless_wrapped {} 0 131073
  have hfar := reachable_waiting.exact_unless_wrapped {} 0 131074
  have hback := reachable_waiting.exact_unless_wrapped {} 0 0
  have hrefused : AimsExactly {} 0 131074 waiting 131073 :=
    (hfar.1 _ hat rfl).2.mpr (hfar.2.2.2 _ (by decide))
  refine ⟨reachable_waiting, (hnear.1 _ hat rfl).2.mpr (hnear.2.2.2 _ (by decide)), hrefused,
    hback.2.2.1.mpr (hback.2.2.2 _ (by decide)), ?_⟩
  rwa [AimsExactly, ExactOr, if_neg (by decide)] at hrefused

/-- A target beyond the reach of every jump is taken for the next instruction. -/
theorem not_aimsExactly_farTarget :
    waiting.Reachable ∧ distance 0 4294967297 = 4294967296 ∧
      (aim {} 0 4294967297).after waiting = waiting ∧
      (aim {} 0 4294967297).value? waiting = some () ∧
      ¬ AimsExactly {} 0 4294967297 waiting (distance 0 4294967297) := by
  have hrun : aim {} 0 4294967297 waiting = .ok () waiting := rfl
  refine ⟨reachable_waiting, rfl, after_of_ok hrun, rfl, ?_⟩
  rw [AimsExactly, ExactOr, if_neg (by decide)]
  rintro ⟨fault, hrefused⟩
  rw [hrun] at hrefused
  cases hrefused

end Code

end RegisterCode
