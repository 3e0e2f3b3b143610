import RegisterCode.Proofs.EmissionOutcomes

/-! Leaving a loop. Its parked jumps are aimed one after the other, and a failure stops
between two of them. -/
namespace RegisterCode

open Action

/-- Where a parked jump goes when its loop is left at `here`. -/
def Loop.Sends (loop : Loop) (here index target : Nat) : Prop :=
  index ∈ loop.breaks ∧ target = here ∨
    index ∈ loop.continues ∧ loop.continueTarget = some target

namespace FunctionBuilder

variable {goes wider : Nat → Nat → Prop} {f f' f'' : FunctionBuilder} {jump : Instruction}
  {index target : Nat}

def JumpAt (f : FunctionBuilder) (index : Nat) (jump : Instruction) : Prop :=
  f.listing[index]? = some jump ∧ jump.op.isJump = true

/-- Some jumps got a target that they may go to, and nothing else is different. -/
structure Aims (goes : Nat → Nat → Prop) (f f' : FunctionBuilder) : Prop where
  only : ∃ instructions, f' = { f with code := { f.code with instructions } }
  pc : f'.pc = f.pc
  code : ∀ k, f'.listing[k]? = f.listing[k]? ∨ ∃ jump target, goes k target ∧ f.JumpAt k jump ∧
    f'.listing[k]? = some (aimed jump k target)

theorem Aims.refl (f : FunctionBuilder) : Aims goes f f :=
  ⟨⟨_, rfl⟩, rfl, fun _ => .inl rfl⟩

theorem aimed_aimed (jump : Instruction) (index first second : Nat) :
    aimed (aimed jump index first) index second = aimed jump index second :=
  rfl

theorem Aims.trans (h : Aims goes f f') (h' : Aims goes f' f'') : Aims goes f f'' := by
  obtain ⟨instructions, hsame⟩ := h.only
  obtain ⟨instructions', hsame'⟩ := h'.only
  refine ⟨⟨instructions', by rw [hsame', hsame]⟩, h'.pc.trans h.pc, ?_⟩
  intro k
  rcases h'.code k with hkept | ⟨jump', target', hgoes', ⟨hat', hjump'⟩, haimed'⟩
  · rw [hkept]
    exact h.code k
  · refine .inr ?_
    rcases h.code k with hkept | ⟨jump, target, -, hat, haimed⟩
    · exact ⟨jump', target', hgoes', ⟨hkept ▸ hat', hjump'⟩, haimed'⟩
    · -- aimed twice: the operation and the line are still those of the first jump
      have hfirst : jump' = aimed jump k target := Option.some.inj (hat'.symm.trans haimed)
      refine ⟨jump, target', hgoes', hat, ?_⟩
      rw [haimed', hfirst, aimed_aimed]

theorem Aims.mono (h : Aims goes f f') (hwider : ∀ k target, goes k target → wider k target) :
    Aims wider f f' := by
  refine ⟨h.only, h.pc, ?_⟩
  intro k
  rcases h.code k with hkept | ⟨jump, target, hgoes, hrest⟩
  · exact .inl hkept
  · exact .inr ⟨jump, target, hwider k target hgoes, hrest⟩

theorem aims_replaced (hat : f.JumpAt index jump) :
    Aims (fun k goal => k = index ∧ goal = target) f
      (f.replaced index (aimed jump index target)) := by
  refine ⟨⟨_, rfl⟩, pc_replaced _ _ _, ?_⟩
  intro k
  rw [listing_replaced]
  by_cases hk : index = k
  · subst hk
    have hlt := (List.getElem?_eq_some_iff.mp hat.1).1
    exact .inr ⟨jump, target, ⟨rfl, rfl⟩, hat, List.getElem?_set_self hlt⟩
  · exact .inl (List.getElem?_set_ne hk)

theorem aim_cases (index target : Nat) (f : FunctionBuilder) :
    (∃ jump, f.JumpAt index jump ∧
      aim index target f = .ok () (f.replaced index (aimed jump index target))) ∨
      ∃ error, aim index target f = .error error f ∧ ∀ jump, f.JumpAt index jump →
        (aimed jump index target).accept f.tables (f.code.before? index) = .error error := by
  have hget : f.code.get? index = f.listing[index]? := by simp [listing, Code.get?]
  unfold aim JumpAt
  rw [onCode_apply]
  unfold Code.aim
  rw [hget]
  cases hat : f.listing[index]? with
  | none => exact .inr ⟨_, rfl, by simp⟩
  | some jump =>
    dsimp only
    by_cases hjump : jump.op.isJump = true
    · rw [if_pos hjump]
      unfold Code.replace
      rw [hget, hat]
      dsimp only
      cases haccept : (aimed jump index target).accept f.tables (f.code.before? index) with
      | error error =>
        refine .inr ⟨error, ?_, ?_⟩
        · simp only [aimed] at haccept
          simp only [haccept]
        · rintro _ ⟨⟨⟩, -⟩
          exact haccept
      | ok word =>
        refine .inl ⟨jump, ⟨rfl, hjump⟩, ?_⟩
        simp only [aimed] at haccept
        simp only [haccept]
        rfl
    · rw [if_neg hjump]
      refine .inr ⟨_, rfl, ?_⟩
      rintro _ ⟨⟨⟩, hjump'⟩
      exact absurd hjump' hjump

def AimedAt (f f' : FunctionBuilder) (index target : Nat) : Prop :=
  ∃ jump, f.JumpAt index jump ∧ f'.listing[index]? = some (aimed jump index target)

theorem aimedAt_replaced (hat : f.JumpAt index jump) :
    AimedAt f (f.replaced index (aimed jump index target)) index target := by
  refine ⟨jump, hat, ?_⟩
  rw [listing_replaced]
  exact List.getElem?_set_self (List.getElem?_eq_some_iff.mp hat.1).1

theorem AimedAt.of_aims (h : Aims goes f f') (h' : AimedAt f' f'' index target) :
    AimedAt f f'' index target := by
  obtain ⟨jump', ⟨hat', hjump'⟩, haimed'⟩ := h'
  rcases h.code index with hkept | ⟨jump, target', -, hat, haimed⟩
  · exact ⟨jump', ⟨hkept ▸ hat', hjump'⟩, haimed'⟩
  · have hfirst : jump' = aimed jump index target' := Option.some.inj (hat'.symm.trans haimed)
    exact ⟨jump, hat, by rw [haimed', hfirst, aimed_aimed]⟩

theorem AimedAt.aims (h : AimedAt f f' index target) (h' : Aims goes f' f'')
    (honly : ∀ goal, goes index goal → goal = target) : AimedAt f f'' index target := by
  obtain ⟨jump, hat, haimed⟩ := h
  refine ⟨jump, hat, ?_⟩
  rcases h'.code index with hkept | ⟨jump', goal, hgoes, ⟨hat', -⟩, haimed'⟩
  · rw [hkept, haimed]
  · have hfirst : jump' = aimed jump index target := Option.some.inj (hat'.symm.trans haimed)
    rw [haimed', hfirst, aimed_aimed, honly goal hgoes]

theorem aimAll_cases (labels : List Nat) (target : Nat) (f : FunctionBuilder) :
    (∃ f', labels.forM (aim · target) f = .ok () f' ∧
      Aims (fun k goal => k ∈ labels ∧ goal = target) f f' ∧
      ∀ p ∈ labels, AimedAt f f' p target) ∨
      ∃ error f' p, labels.forM (aim · target) f = .error error f' ∧
        Aims (fun k goal => k ∈ labels ∧ goal = target) f f' ∧
        p ∈ labels ∧ aim p target f' = .error error f' := by
  induction labels generalizing f with
  | nil => exact .inl ⟨f, rfl, .refl f, by simp⟩
  | cons label rest ih =>
    rw [List.forM_eq_forM, List.forM_cons, bind_apply]
    rcases aim_cases label target f with ⟨jump, hat, haim⟩ | ⟨error, haim, -⟩
    · rw [haim]
      dsimp only
      have hfirst : Aims _ f (f.replaced label (aimed jump label target)) := aims_replaced hat
      have hlabel : AimedAt f (f.replaced label (aimed jump label target)) label target :=
        aimedAt_replaced hat
      generalize f.replaced label (aimed jump label target) = g at hfirst hlabel
      have hstep : Aims (fun k goal => k ∈ label :: rest ∧ goal = target) f g :=
        hfirst.mono fun k goal hgoes => ⟨by simp [hgoes.1], hgoes.2⟩
      have hwider : ∀ k goal, k ∈ rest ∧ goal = target → k ∈ label :: rest ∧ goal = target :=
        fun k goal hgoes => ⟨List.mem_cons_of_mem label hgoes.1, hgoes.2⟩
      rcases ih g with ⟨f', hrun, haims, hall⟩ | ⟨error, f', p, hrun, haims, hp, herror⟩
      · refine .inl ⟨f', hrun, hstep.trans (haims.mono hwider), ?_⟩
        intro p hp
        rcases List.mem_cons.mp hp with rfl | hp
        · exact hlabel.aims haims fun goal hgoes => hgoes.2
        · exact (hall p hp).of_aims hfirst
      · exact .inr ⟨error, f', p, hrun, hstep.trans (haims.mono hwider),
          List.mem_cons_of_mem label hp, herror⟩
    · rw [haim]
      exact .inr ⟨error, f, label, rfl, .refl f, List.mem_cons_self, haim⟩

theorem closeLoop_eq_error (h : f.loops.stack = []) :
    closeLoop f = .error (.discipline .noLoopToClose) f := by
  unfold closeLoop
  rw [bind_apply, onLoops_apply]
  simp only [Loops.closeLoop, h]

/-- What closing a loop can come to. On failure the loop is gone, some of its jumps are
aimed, and either one of them could not be or the continues have no target. -/
theorem closeLoop_cases {loop : Loop} {outer : List Loop} (hstack : f.loops.stack = loop :: outer) :
    (∃ f', closeLoop f = .ok () f' ∧ Aims (loop.Sends f.pc) { f with loops := ⟨outer⟩ } f' ∧
      (∀ p ∈ loop.breaks, p ∉ loop.continues → AimedAt f f' p f.pc) ∧
      ∀ p ∈ loop.continues, ∃ target, loop.continueTarget = some target ∧
        AimedAt f f' p target) ∨
      ∃ error f', closeLoop f = .error error f' ∧
        Aims (loop.Sends f.pc) { f with loops := ⟨outer⟩ } f' ∧
        ((∃ p target, loop.Sends f.pc p target ∧ aim p target f' = .error error f') ∨
          loop.continueTarget = none ∧ loop.continues ≠ [] ∧
            error = .discipline (.continuesUnplaced loop.continues.length)) := by
  have hpopped : onLoops Loops.closeLoop f = .ok loop { f with loops := ⟨outer⟩ } := by
    rw [onLoops_apply]
    simp only [Loops.closeLoop, hstack]
  unfold closeLoop
  rw [bind_apply, hpopped]
  dsimp only
  have hpc : FunctionBuilder.pc { f with loops := ⟨outer⟩ } = f.pc := rfl
  rw [get_bind_apply, bind_apply, hpc]
  have hbreak : ∀ k goal, k ∈ loop.breaks ∧ goal = f.pc → loop.Sends f.pc k goal :=
    fun _ _ hgoes => .inl hgoes
  rcases aimAll_cases loop.breaks f.pc { f with loops := ⟨outer⟩ } with
    ⟨g, hrun, haims, hall⟩ | ⟨error, g, p, hrun, haims, hp, herror⟩
  · rw [hrun]
    cases htarget : loop.continueTarget with
    | none =>
      dsimp only
      by_cases hcontinues : loop.continues = []
      · rw [if_neg (by simp [hcontinues])]
        exact .inl ⟨g, rfl, haims.mono hbreak, fun p hp _ => hall p hp, by simp [hcontinues]⟩
      · rw [if_pos (by simp [hcontinues])]
        exact .inr ⟨_, g, rfl, haims.mono hbreak, .inr ⟨rfl, hcontinues, rfl⟩⟩
    | some target =>
      have hcontinue : ∀ k goal, k ∈ loop.continues ∧ goal = target → loop.Sends f.pc k goal :=
        fun _ _ hgoes => .inr ⟨hgoes.1, by rw [htarget, hgoes.2]⟩
      rcases aimAll_cases loop.continues target g with
        ⟨f', hrun', haims', hall'⟩ | ⟨error, f', p, hrun', haims', hp, herror⟩
      · refine .inl ⟨f', hrun', (haims.mono hbreak).trans (haims'.mono hcontinue), ?_, ?_⟩
        · intro p hp hother
          exact AimedAt.aims (hall p hp) haims' fun goal hgoes => absurd hgoes.1 hother
        · intro p hp
          have haimed : AimedAt { f with loops := ⟨outer⟩ } f' p target :=
            (hall' p hp).of_aims haims
          exact ⟨target, rfl, haimed⟩
      · exact .inr ⟨error, f', hrun', (haims.mono hbreak).trans (haims'.mono hcontinue),
          .inl ⟨p, target, .inr ⟨hp, htarget⟩, herror⟩⟩
  · rw [hrun]
    exact .inr ⟨error, g, rfl, haims.mono hbreak, .inl ⟨p, f.pc, .inl ⟨hp, rfl⟩, herror⟩⟩

end FunctionBuilder

end RegisterCode
