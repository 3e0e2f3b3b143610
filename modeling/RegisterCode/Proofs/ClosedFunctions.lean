import RegisterCode.Proofs.RegisterDiscipline
import RegisterCode.Proofs.TableReferences

/-! Finishing a function, whatever was done to it before. Only what is still open can
prevent it, and the words that come out stand for the instructions that went in. -/
namespace RegisterCode

open Action

namespace Instruction

def restored (i : Instruction) : Instruction :=
  { i.kept with line := i.line }

theorem ofNumber?_of_decode {word : UInt32} {i : Instruction} (h : decode word = .ok i) :
    Opcode.ofNumber? (word.toNat % 64) = some i.op := by
  unfold decode at h
  dsimp only at h
  split at h
  · simp at h
  · next op hop =>
    injection h with h
    rw [hop, ← h]
    cases op.layout <;> rfl

theorem filterMap_of_mapM_encode {β : Type} {read : UInt32 → Option β}
    {shown : Instruction → Option β}
    (hread : ∀ (i : Instruction) word, i.encode = .ok word → read word = shown i)
    {code : List Instruction} {words : List UInt32} (h : code.mapM encode = .ok words) :
    words.filterMap read = code.filterMap shown := by
  induction code generalizing words with
  | nil =>
    cases h
    rfl
  | cons i rest ih =>
    rw [List.mapM_cons] at h
    obtain ⟨word, hword, h⟩ := except_bind_eq_ok.mp h
    obtain ⟨others, hothers, h⟩ := except_bind_eq_ok.mp h
    cases h
    rw [List.filterMap_cons, List.filterMap_cons, hread i word hword, ih hothers]

end Instruction

namespace Prototype

variable {code : List Instruction} {words : List UInt32}

theorem opcodes_of_mapM_encode (h : code.mapM Instruction.encode = .ok words) {p : Prototype}
    (hcode : p.code = words) : p.opcodes = code.map Instruction.op := by
  unfold opcodes
  rw [hcode, ← List.filterMap_eq_map]
  refine Instruction.filterMap_of_mapM_encode (fun i word hword => ?_) h
  have hop := Instruction.ofNumber?_of_decode (Instruction.decode_encode hword)
  rwa [Instruction.kept_op] at hop

theorem instructions_of_mapM_encode (h : code.mapM Instruction.encode = .ok words) {p : Prototype}
    (hcode : p.code = words) (hlines : p.lines = code.map Instruction.line) :
    p.instructions = .ok (code.map Instruction.restored) ∧ p.code.length = code.length := by
  unfold instructions
  rw [hcode, hlines]
  clear hcode hlines
  induction code generalizing words with
  | nil =>
    cases h
    exact ⟨rfl, rfl⟩
  | cons i rest ih =>
    rw [List.mapM_cons] at h
    obtain ⟨word, hword, h⟩ := except_bind_eq_ok.mp h
    obtain ⟨others, hothers, h⟩ := except_bind_eq_ok.mp h
    cases h
    obtain ⟨hinstructions, hlength⟩ := ih hothers
    refine ⟨?_, by simp [hlength]⟩
    rw [List.map_cons, List.zip_cons_cons, List.mapM_cons, hinstructions]
    dsimp only
    rw [Instruction.decode_encode hword]
    rfl

end Prototype

namespace FunctionBuilder

variable {f : FunctionBuilder}

/-- Nothing of the function is open any more, but perhaps its own scope. -/
structure AllClosed (f : FunctionBuilder) : Prop where
  scopes : f.scopes.depth ≤ 1
  sections : f.code.sections = []
  loops : f.loops.stack = []
  temporaries : f.temporaries = []

theorem unfinished?_eq_none_iff : f.unfinished? = none ↔ f.AllClosed := by
  unfold unfinished?
  constructor
  · intro h
    split at h
    · simp at h
    next hscopes =>
    split at h
    · simp at h
    next hsections =>
    split at h
    · simp at h
    next hloops =>
    split at h
    · simp at h
    next htemporaries =>
    exact ⟨by omega, by simpa using hsections, by simpa [Loops.anyOpen] using hloops,
      by simpa using htemporaries⟩
  · rintro ⟨hscopes, hsections, hloops, htemporaries⟩
    simp [Loops.anyOpen, hscopes, hsections, hloops, htemporaries]

theorem finish_of_closed (h : f.AllClosed) {words : List UInt32}
    (hwords : f.listing.mapM Instruction.encode = .ok words) (hhigh : f.highWater < 256)
    (lastLine : UInt32) : f.finish lastLine = .ok (f.prototype words lastLine) := by
  have hcode : f.code.words = .ok words := hwords
  rw [finish_eq, unfinished?_eq_none_iff.mpr h]
  simp only [hcode, except_bind_eq_ok, hhigh, ↓reduceIte]
  exact ⟨words, rfl, rfl⟩

variable {permits : FunctionBuilder → Operation → Prop}

theorem Reachable.referenced (h : f.Reachable permits) : f.Referenced := by
  obtain ⟨initial, hinitial, hrun⟩ := h
  exact hrun.induction (fun g operation _ => operation.respects_anything g)
    (fun _ _ hchange hreferenced => hreferenced.change hchange) hinitial.referenced

/-- In every state that a run can reach, all instructions have words and the registers
fit a byte, so that the refusal of an open function is the only one. -/
theorem Reachable.finish_cases (h : f.Reachable permits) (lastLine : UInt32) :
    (∃ violation, f.unfinished? = some violation ∧
      f.finish lastLine = .error (.discipline violation)) ∨
      f.AllClosed ∧ ∃ words, f.listing.mapM Instruction.encode = .ok words ∧
        f.finish lastLine = .ok (f.prototype words lastLine) := by
  cases hunfinished : f.unfinished? with
  | some violation =>
    refine .inl ⟨violation, rfl, ?_⟩
    rw [finish, hunfinished]
  | none =>
    have hclosed := unfinished?_eq_none_iff.mp hunfinished
    obtain ⟨words, hwords, -⟩ := Instruction.mapM_encode f.listing h.referenced.encodes
    have hhigh : f.highWater < 256 := Nat.lt_succ_of_le h.disciplined.highWater_le
    exact .inr ⟨hclosed, words, hwords, finish_of_closed hclosed hwords hhigh lastLine⟩

/-- Whatever was done to a function, it can be finished exactly if nothing of it is open.
What is refused is refused for what is open; and what comes out has the instructions that
were placed, with their lines and in their order, and the tables as they were filled. -/
theorem Reachable.finish_iff_closed (h : f.Reachable permits) (lastLine : UInt32) :
    ((∃ p, f.finish lastLine = .ok p) ↔ f.AllClosed) ∧
      (∀ error, f.finish lastLine = .error error →
        ∃ violation, f.unfinished? = some violation ∧ error = .discipline violation) ∧
      ∀ p, f.finish lastLine = .ok p →
        p.instructions = .ok (f.listing.map Instruction.restored) ∧
        p.opcodes = f.listing.map Instruction.op ∧ p.code.length = p.lines.length ∧
        p.stackSize.toNat = f.highWater ∧ p.constants = f.constants.toList ∧
        p.upvalues = f.upvalues ∧ p.children = f.children.toList := by
  rcases h.finish_cases lastLine with ⟨violation, hunfinished, hfinish⟩ | hfinished
  · have hopen : ¬ f.AllClosed := by
      rw [← unfinished?_eq_none_iff, hunfinished]
      simp
    rw [hfinish]
    refine ⟨by simp [hopen], ?_, by simp⟩
    rintro _ ⟨⟩
    exact ⟨violation, hunfinished, rfl⟩
  · obtain ⟨hclosed, words, hwords, hfinish⟩ := hfinished
    rw [hfinish]
    refine ⟨⟨fun _ => hclosed, fun _ => ⟨_, rfl⟩⟩, by simp, ?_⟩
    rintro _ ⟨⟩
    obtain ⟨hinstructions, hlength⟩ :=
      Prototype.instructions_of_mapM_encode hwords (p := f.prototype words lastLine) rfl rfl
    have hopcodes :=
      Prototype.opcodes_of_mapM_encode hwords (p := f.prototype words lastLine) rfl
    have hhigh : f.highWater ≤ 255 := h.disciplined.highWater_le
    refine ⟨hinstructions, hopcodes, ?_, ?_, rfl, rfl, rfl⟩
    · rw [hlength]
      simp [prototype, Code.lines, listing]
    · simp only [prototype, UInt8.toNat_ofNat']
      omega

/-- A load with a field that its word does not have, a section that is discarded, a loop that
is left by one jump, a temporary, and a jump out of no loop. -/
def tidied : FunctionBuilder :=
  [Operation.setLine 7, .intern .nil, .emit { op := .loadK, a := 1, c := 9 }, .openSection, .jump,
    .emit { op := .move }, .discardSection, .openLoop none, .breakLoop, .closeLoop, .pushTemporary,
    .popTemporary, .breakLoop].foldl (fun f operation => operation.after f) (start "f" (some 0) 1)

theorem Reachable.finish_iff_closed_tidied :
    tidied.AllClosed ∧ ∃ p, tidied.finish 9 = .ok p ∧
      p.instructions = .ok [{ op := .loadK, a := 1, line := 7 }, { op := .jmp, line := 7 }] ∧
      p.opcodes = [.loadK, .jmp] ∧ p.stackSize.toNat = 1 := by
  have hreachable : tidied.Reachable (fun _ _ => True) :=
    ⟨_, .start "f" (some 0) 1, runs_foldl _ (fun _ _ _ => trivial) _⟩
  have hclosed : tidied.AllClosed :=
    ⟨by decide +kernel, by decide +kernel, by decide +kernel, by decide +kernel⟩
  have hlisting : tidied.listing =
      [{ op := .loadK, a := 1, c := 9, line := 7 }, { op := .jmp, line := 7 }] := by decide +kernel
  have hhigh : tidied.highWater = 1 := by decide +kernel
  obtain ⟨hiff, -, hresult⟩ := hreachable.finish_iff_closed 9
  obtain ⟨p, hfinish⟩ := hiff.mpr hclosed
  obtain ⟨hinstructions, hopcodes, -, hstack, -⟩ := hresult p hfinish
  rw [hlisting] at hinstructions hopcodes
  exact ⟨hclosed, p, hfinish, hinstructions, hopcodes, hstack.trans hhigh⟩

end FunctionBuilder

end RegisterCode
