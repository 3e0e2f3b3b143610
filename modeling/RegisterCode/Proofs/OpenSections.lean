import RegisterCode.Proofs.JumpDistances

/-! The starts of open sections. They stay in order and inside the code whatever is done to it,
so that discarding a section counts exactly what it takes away. And unless something in front
of a section is touched while it is open, discarding it brings back the code that it was
opened on. -/
namespace RegisterCode

open Action Relation

namespace Code

variable {code code' base : Code} {touched : Option Nat} {start : Nat} {outer : List Nat}
  {operations : List Operation}

/-- The instruction that an operation takes off the end, overwrites or aims. One that fails
touches none, and neither does discarding a section: that this spares what lies in front of the
sections further out follows from their order. -/
def Operation.touched? : Operation → Code → Option Nat
  | .pop, code => code.instructions.back?.map fun _ => code.size - 1
  | .replace tables index i, code =>
    ((Code.replace tables index i).value? code).map fun _ => index
  | .aim tables index target, code =>
    ((Code.aim tables index target).value? code).map fun _ => index
  | .aimHere tables index, code => ((Code.aimHere tables index).value? code).map fun _ => index
  | .setLine _, _ | .append .., _ | .jump _, _ | .jumpTo .., _ | .openSection, _
  | .keepSection, _ | .discardSection _, _ => none

inductive Edit (code : Code) : Option Nat → Code → Prop
  | idle (line : UInt32) : Edit code none { code with line }
  | placed (i : Instruction) :
    Edit code none { code with instructions := code.instructions.push i }
  | popped :
    Edit code (code.instructions.back?.map fun _ => code.size - 1)
      { code with
        instructions := code.instructions.pop
        sections := code.sections.map (min · code.instructions.pop.size) }
  | replaced (index : Nat) (i : Instruction) :
    Edit code (some index) { code with instructions := code.instructions.setIfInBounds index i }
  | opened : Edit code none code.openSection
  | kept {start : Nat} {outer : List Nat} (h : code.sections = start :: outer) :
    Edit code none { code with sections := outer }
  | discarded {start : Nat} {outer : List Nat} (h : code.sections = start :: outer) :
    Edit code none { code with instructions := code.instructions.take start, sections := outer }

theorem edit_append (tables : Tables) (i : Instruction) (code : Code) :
    Edit code none ((append tables i).after code) := by
  rcases append_cases tables i code with ⟨word, -, hrun⟩ | ⟨error, -, hrun⟩
  · rw [after_of_ok hrun]
    exact .placed _
  · rw [after_of_error hrun]
    exact .idle code.line

theorem edit_replace (tables : Tables) (index : Nat) (i : Instruction) (code : Code) :
    Edit code (((replace tables index i).value? code).map fun _ => index)
      ((replace tables index i).after code) := by
  unfold Action.value? Action.after replace
  cases code.get? index with
  | none => exact .idle code.line
  | some old =>
    dsimp only
    cases Instruction.accept { i with line := old.line } tables (code.before? index) with
    | ok word => exact .replaced index _
    | error error => exact .idle code.line

theorem edit_aim (tables : Tables) (index target : Nat) (code : Code) :
    Edit code (((aim tables index target).value? code).map fun _ => index)
      ((aim tables index target).after code) := by
  unfold Action.value? Action.after aim
  cases code.get? index with
  | none => exact .idle code.line
  | some jump =>
    dsimp only
    by_cases hjump : jump.op.isJump = true
    · rw [if_pos hjump]
      exact edit_replace tables index _ code
    · rw [if_neg hjump]
      exact .idle code.line

theorem edit_keepSection (code : Code) : Edit code none (keepSection.after code) := by
  unfold Action.after keepSection
  cases hsections : code.sections with
  | nil => exact .idle code.line
  | cons start outer => exact .kept hsections

theorem edit_discardSection (pending : List Nat) (code : Code) :
    Edit code none ((discardSection pending).after code) := by
  unfold Action.after discardSection
  cases hsections : code.sections with
  | nil => exact .idle code.line
  | cons start outer =>
    dsimp only
    cases pending.find? (start ≤ ·) with
    | some label => exact .idle code.line
    | none => exact .discarded hsections

theorem Operation.edit (operation : Operation) (code : Code) :
    Edit code (operation.touched? code) (operation.after code) := by
  cases operation with
  | setLine line => exact .idle line
  | append tables i => exact edit_append tables i code
  | pop => exact .popped
  | replace tables index i => exact edit_replace tables index i code
  | jump tables => exact edit_append tables { op := .jmp } code
  | jumpTo tables target => exact edit_append tables _ code
  | aim tables index target => exact edit_aim tables index target code
  | aimHere tables index => exact edit_aim tables index code.size code
  | openSection => exact .opened
  | keepSection => exact edit_keepSection code
  | discardSection pending => exact edit_discardSection pending code

structure InOrder (code : Code) : Prop where
  ordered : code.sections.Pairwise (· ≥ ·)
  inside : ∀ start ∈ code.sections, start ≤ code.size

theorem InOrder.innermost (h : code.InOrder) (hsections : code.sections = start :: outer) :
    start ≤ code.size ∧ (∀ further ∈ outer, further ≤ start) ∧ outer.Pairwise (· ≥ ·) := by
  have hordered := h.ordered
  rw [hsections, List.pairwise_cons] at hordered
  exact ⟨h.inside start (hsections ▸ List.mem_cons_self), hordered⟩

theorem InOrder.edit (h : code.InOrder) (hedit : Edit code touched code') : code'.InOrder := by
  cases hedit with
  | idle line => exact ⟨h.ordered, h.inside⟩
  | placed i =>
    refine ⟨h.ordered, fun start hstart => (h.inside start hstart).trans ?_⟩
    simp [size]
  | popped =>
    -- All starts that would lie behind the new end become the new end, so they stay in order.
    refine ⟨h.ordered.map _ fun inner outer hle => ?_, fun start hstart => ?_⟩
    · exact Nat.le_min.mpr ⟨(Nat.min_le_left _ _).trans hle, Nat.min_le_right _ _⟩
    · obtain ⟨start, -, rfl⟩ := List.mem_map.mp hstart
      exact Nat.min_le_right _ _
  | replaced index i =>
    refine ⟨h.ordered, fun start hstart => (h.inside start hstart).trans ?_⟩
    simp [size]
  | opened =>
    exact ⟨List.pairwise_cons.mpr ⟨h.inside, h.ordered⟩,
      List.forall_mem_cons.mpr ⟨Nat.le_refl _, h.inside⟩⟩
  | kept hsections =>
    obtain ⟨hstart, hfurther, hordered⟩ := h.innermost hsections
    exact ⟨hordered, fun further hmem => (hfurther further hmem).trans hstart⟩
  | @discarded start outer hsections =>
    obtain ⟨hstart, hfurther, hordered⟩ := h.innermost hsections
    refine ⟨hordered, fun further hmem => (hfurther further hmem).trans ?_⟩
    simpa [size] using Nat.le_min.mpr ⟨Nat.le_refl start, hstart⟩

theorem Reachable.inOrder (h : code.Reachable) : code.InOrder := by
  induction h with
  | refl => exact ⟨.nil, by simp⟩
  | tail _ hstep ih =>
    obtain ⟨operation, rfl⟩ := hstep
    exact ih.edit (operation.edit _)

def afterAll : Code → List Operation → Code
  | code, [] => code
  | code, operation :: rest => (operation.after code).afterAll rest

theorem Reachable.afterAll (h : code.Reachable) (operations : List Operation) :
    (code.afterAll operations).Reachable := by
  induction operations generalizing code with
  | nil => exact h
  | cons operation rest ih => exact ih (h.tail ⟨operation, rfl⟩)

/-- Along the operations the section that was opened on `base` stays open, and no instruction
in front of it is touched. -/
def StaysOpen (base : Code) : List Operation → Code → Prop
  | [], _ => True
  | operation :: rest, code =>
    -- The section was opened on top of those of `base`, so it is open while there are more.
    base.sections.length < (operation.after code).sections.length ∧
    (∀ index ∈ operation.touched? code, base.size ≤ index) ∧
    StaysOpen base rest (operation.after code)

instance decidableStaysOpen (base : Code) :
    (operations : List Operation) → (code : Code) → Decidable (base.StaysOpen operations code)
  | [], _ => inferInstanceAs (Decidable True)
  | operation :: rest, code =>
    have := decidableStaysOpen base rest (operation.after code)
    inferInstanceAs (Decidable (_ ∧ _ ∧ _))

/-- The code begins with that of `base`, and below the sections further in there is the one
that was opened on `base`, with its start. -/
structure StandsOn (code base : Code) : Prop where
  sections : base.size :: base.sections <:+ code.sections
  instructions : base.instructions.toList <+: code.instructions.toList

theorem standsOn_openSection (base : Code) : base.openSection.StandsOn base :=
  ⟨List.suffix_rfl, List.prefix_rfl⟩

theorem StandsOn.size_le (h : code.StandsOn base) : base.size ≤ code.size :=
  h.instructions.length_le

theorem map_min_eq_self {starts : List Nat} {bound : Nat} (h : ∀ start ∈ starts, start ≤ bound) :
    starts.map (min · bound) = starts :=
  (List.map_congr_left fun start hstart => Nat.min_eq_left (h start hstart)).trans
    (List.map_id _)

theorem StandsOn.size_le_pop (h : code.StandsOn base)
    (hspared : ∀ index ∈ code.instructions.back?.map fun _ => code.size - 1,
      base.size ≤ index) :
    base.size ≤ code.instructions.pop.size := by
  rw [Array.size_pop]
  cases hback : code.instructions.back? with
  | none =>
    have hempty : code.size = 0 := by simpa [size] using hback
    exact (hempty ▸ h.size_le).trans (Nat.zero_le _)
  | some last => exact hspared _ (by simp [hback, size])

theorem StandsOn.suffix_outer (h : code.StandsOn base) (hsections : code.sections = start :: outer)
    (hopen : base.sections.length < outer.length) : base.size :: base.sections <:+ outer :=
  List.suffix_of_suffix_length_le (hsections ▸ h.sections) (List.suffix_cons start outer) hopen

theorem StandsOn.edit (h : code.StandsOn base) (hbase : base.InOrder) (hcode : code.InOrder)
    (hedit : Edit code touched code') (hopen : base.sections.length < code'.sections.length)
    (hspared : ∀ index ∈ touched, base.size ≤ index) : code'.StandsOn base := by
  cases hedit with
  | idle line => exact ⟨h.sections, h.instructions⟩
  | placed i =>
    refine ⟨h.sections, h.instructions.trans ?_⟩
    rw [Array.toList_push]
    exact List.prefix_append _ _
  | popped =>
    have hroom := h.size_le_pop hspared
    constructor
    · -- Only starts of sections further in can lie behind the new end.
      have hkept : (base.size :: base.sections).map (min · code.instructions.pop.size) =
          base.size :: base.sections :=
        map_min_eq_self (List.forall_mem_cons.mpr
          ⟨hroom, fun start hstart => (hbase.inside start hstart).trans hroom⟩)
      rw [← hkept]
      exact h.sections.map _
    · have hrest : code.instructions.pop.toList <+: code.instructions.toList := by
        rw [Array.toList_pop]
        exact List.dropLast_prefix _
      exact List.prefix_of_prefix_length_le h.instructions hrest hroom
  | replaced index i =>
    refine ⟨h.sections, ?_⟩
    obtain ⟨rest, hrest⟩ := h.instructions
    rw [Array.toList_setIfInBounds, ← hrest, List.set_append_right _ _ (hspared index rfl)]
    exact List.prefix_append _ _
  | opened => exact ⟨h.sections.trans (List.suffix_cons _ _), h.instructions⟩
  | kept hsections => exact ⟨h.suffix_outer hsections hopen, h.instructions⟩
  | discarded hsections =>
    have houter := h.suffix_outer hsections hopen
    -- The section that goes starts behind `base`, since the one opened on `base` is further out.
    have hbehind := (hcode.innermost hsections).2.1 base.size (houter.subset List.mem_cons_self)
    refine ⟨houter, ?_⟩
    simpa using List.prefix_take_iff.mpr ⟨h.instructions, hbehind⟩

theorem StandsOn.afterAll (h : code.StandsOn base) (hbase : base.InOrder) (hcode : code.InOrder)
    (hopen : base.StaysOpen operations code) : (code.afterAll operations).StandsOn base := by
  induction operations generalizing code with
  | nil => exact h
  | cons operation rest ih =>
    obtain ⟨hdepth, hspared, hrest⟩ := hopen
    have hedit := operation.edit code
    exact ih (h.edit hbase hcode hedit hdepth hspared) (hcode.edit hedit) hrest

theorem StandsOn.eq_base (h : code.StandsOn base)
    (hinnermost : code.sections.length = base.sections.length + 1) :
    code.sections = base.size :: base.sections ∧
      code.instructions.take base.size = base.instructions := by
  refine ⟨(h.sections.eq_of_length hinnermost.symm).symm, ?_⟩
  rw [← Array.toList_inj]
  simpa [size] using (List.prefix_iff_eq_take.mp h.instructions).symm

/-- Discarding the innermost section, which starts at `start`. It is refused and changes
nothing if a pending jump lies in the section. Otherwise it leaves `left` and gives the number
of the instructions that are gone, which is what the code has behind the start. -/
def DiscardsTo (pending : List Nat) (start : Nat) (code left : Code) : Prop :=
  if ∀ label ∈ pending, label < start then
    ∃ discarded, discardSection pending code = .ok discarded.length left ∧
      code.instructions.toList = left.instructions.toList ++ discarded ∧
      start + discarded.length = code.size
  else ∃ error, discardSection pending code = .error error code

theorem InOrder.discardsTo (h : code.InOrder) (hsections : code.sections = start :: outer)
    (pending : List Nat) :
    DiscardsTo pending start code
      { code with instructions := code.instructions.take start, sections := outer } := by
  have hstart := (h.innermost hsections).1
  unfold DiscardsTo discardSection
  rw [hsections]
  dsimp only
  by_cases hfree : ∀ label ∈ pending, label < start
  · have hnone : pending.find? (start ≤ ·) = none :=
      List.find?_eq_none.mpr (by simpa using hfree)
    have hcount : (code.instructions.toList.drop start).length = code.size - start := by
      simp [size]
    rw [if_pos hfree, hnone]
    refine ⟨code.instructions.toList.drop start, by rw [hcount], by simp, ?_⟩
    rw [hcount, Nat.add_sub_cancel' hstart]
  · obtain ⟨label, hlabel⟩ : ∃ label, pending.find? (start ≤ ·) = some label := by
      simpa [← Option.isSome_iff_exists] using hfree
    rw [if_neg hfree, hlabel]
    exact ⟨_, rfl⟩

/-- However code came about, its sections start inside of it and in order, so that discarding
the innermost one counts exactly what it takes away. A section that is opened on the code keeps
its start as long as nothing in front of it is touched, whatever becomes of sections further in.
Discarding it then brings back the code that it was opened on. -/
theorem Reachable.sections_consistent (h : code.Reachable) (pending : List Nat) :
    code.InOrder ∧
    (∀ start outer, code.sections = start :: outer →
      DiscardsTo pending start code
        { code with instructions := code.instructions.take start, sections := outer }) ∧
    ∀ operations code', code' = code.openSection.afterAll operations →
      code.StaysOpen operations code.openSection →
      code'.StandsOn code ∧
      (code'.sections.length = code.sections.length + 1 →
        DiscardsTo pending code.size code' { code with line := code'.line }) := by
  refine ⟨h.inOrder, fun start outer hsections => h.inOrder.discardsTo hsections pending, ?_⟩
  rintro operations code' rfl hopen
  have hopened : code.openSection.Reachable := h.tail ⟨.openSection, rfl⟩
  have hstands := (standsOn_openSection code).afterAll h.inOrder hopened.inOrder hopen
  refine ⟨hstands, fun hinnermost => ?_⟩
  obtain ⟨hsections, hinstructions⟩ := hstands.eq_base hinnermost
  have hdiscards := (hopened.afterAll operations).inOrder.discardsTo hsections pending
  rwa [hinstructions] at hdiscards

def sheltered : Code :=
  (Code.jump {}).after waiting.openSection

theorem reachable_sheltered : sheltered.Reachable :=
  (reachable_waiting.tail ⟨.openSection, rfl⟩).tail ⟨.jump {}, rfl⟩

/-- A section is emptied beyond its start, filled again and discarded at the second attempt.
The first instruction of all is overwritten in vain. -/
def churning : List Operation :=
  [.jump {}, .openSection, .jump {}, .pop, .pop, .replace {} 0 { op := .move, a := 256 }, .jump {},
    .aim {} 2 0, .discardSection [2], .discardSection [0, 1], .jump {}]

theorem Reachable.sections_consistent_churning :
    sheltered.Reachable ∧ sheltered.StaysOpen churning sheltered.openSection ∧
      (sheltered.openSection.afterAll churning).sections = [2, 1] ∧
      (discardSection [0, 1]).value? (sheltered.openSection.afterAll churning) = some 1 ∧
      DiscardsTo [0, 1] 2 (sheltered.openSection.afterAll churning) sheltered := by
  have hopen : sheltered.StaysOpen churning sheltered.openSection := by decide +kernel
  have hsections : (sheltered.openSection.afterAll churning).sections = [2, 1] := by decide +kernel
  have hsheltered := Reachable.sections_consistent reachable_sheltered [0, 1]
  have hdiscards := (hsheltered.2.2 churning _ rfl hopen).2 (by rw [hsections]; rfl)
  exact ⟨reachable_sheltered, hopen, hsections, by decide +kernel, hdiscards⟩

end Code

end RegisterCode
