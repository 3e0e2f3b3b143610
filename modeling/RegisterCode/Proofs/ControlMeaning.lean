import RegisterCode.Proofs.StatementMeaning

/-! Branches and loops at run time. A jump over code is aimed once the code is placed, and
the jumps that leave a loop are aimed when it is closed; until then the machine's code is
known but for them. -/
namespace RegisterCode

open Action

namespace FunctionBuilder

variable {f f' : FunctionBuilder} {p : Nat}

/-- A jump stands at an index and waits there, but not with a loop. -/
def Waits (p : Nat) (f : FunctionBuilder) : Prop :=
  p ∉ f.loops.breaks ∧ ∃ jump, f.listing[p]? = some jump ∧ jump.op = .jmp

theorem Extends.waiting {head : Option Nat} {pending : List Nat} {weight : Nat}
    (h : f.Extends head pending weight f') (hp : p ∈ pending) :
    f.pc ≤ p ∧ ∃ jump, f'.listing[p]? = some jump ∧ jump.op = .jmp := by
  obtain ⟨code, hcode, hflow⟩ := h.code
  obtain ⟨k, jump, rfl, hjump, hop⟩ := hflow.waiting p hp
  refine ⟨Nat.le_add_right _ _, jump, ?_, hop⟩
  rw [hcode, List.getElem?_append_right (by simp), length_listing, Nat.add_sub_cancel_left, hjump]

theorem Waits.lt (h : f.Waits p) : p < f.pc := by
  obtain ⟨-, jump, hat, -⟩ := h
  rw [← length_listing]
  exact (List.getElem?_eq_some_iff.mp hat).1

theorem Waits.advances {pending : List Nat} {weight : Nat} (h : f.Waits p)
    (hadvances : f.Advances pending weight f') : f'.Waits p := by
  have hlt := h.lt
  obtain ⟨hbreaks, jump, hat, hop⟩ := h
  obtain ⟨more, hmore, hge⟩ := hadvances.breaks
  obtain ⟨code, hcode⟩ := hadvances.appends.listing
  refine ⟨?_, jump, ?_, hop⟩
  · rw [hmore, List.mem_append, not_or]
    refine ⟨hbreaks, fun hp => ?_⟩
    have := hge p hp
    omega
  · rw [← hcode, List.getElem?_append_left (by simpa using hlt), hat]

theorem Waits.replaced {q : Nat} {i : Instruction} (h : f.Waits p) (hother : q ≠ p) :
    (f.replaced q i).Waits p := by
  obtain ⟨hbreaks, jump, hat, hop⟩ := h
  refine ⟨hbreaks, jump, ?_, hop⟩
  rw [listing_replaced, List.getElem?_set_ne hother, hat]

theorem jumps_replaced {lo target : Nat} {rest : List Nat} {jump : Instruction}
    (hjumps : ∀ q ∈ p :: rest, lo ≤ q ∧ ∃ i, f.listing[q]? = some i ∧ i.op = .jmp)
    (hat : f.listing[p]? = some jump) (hop : jump.op = .jmp) :
    ∀ q ∈ rest, lo ≤ q ∧ ∃ i, (f.replaced p (aimed jump p target)).listing[q]? = some i ∧
      i.op = .jmp := by
  intro q hq
  obtain ⟨hlo, other, hother, hop'⟩ := hjumps q (by simp [hq])
  refine ⟨hlo, ?_⟩
  rw [listing_replaced]
  by_cases hsame : p = q
  · rw [← hsame, List.getElem?_set_self (List.getElem?_eq_some_iff.mp hat).1]
    exact ⟨_, rfl, hop⟩
  · rw [List.getElem?_set_ne hsame]
    exact ⟨other, hother, hop'⟩

theorem closeLoop_aims {f'' : FunctionBuilder} {breaks : List Nat}
    (hloops : f'.loops = (f.openLoop (some f.pc)).loops.withBreaks breaks)
    (hrun : closeLoop f' = .ok () f'') :
    (breaks.forM (aim · f'.pc)) { f' with loops := f.loops } = .ok () f'' := by
  have hpop : onLoops Loops.closeLoop f' =
      .ok { continueTarget := some f.pc, breaks } { f' with loops := f.loops } := by
    rw [onLoops_apply, hloops]
    rfl
  unfold closeLoop at hrun
  rw [bind_apply, hpop] at hrun
  obtain ⟨_, _, hget, hrun⟩ := bind_eq_ok.mp hrun
  obtain ⟨rfl, rfl⟩ := get_eq_ok.mp hget
  obtain ⟨_, f₁, haim, hreturn⟩ := bind_eq_ok.mp hrun
  obtain ⟨-, rfl⟩ := pure_eq_ok.mp hreturn
  exact haim

end FunctionBuilder

theorem ChunkBuilder.Awaits.waits {b b' : ChunkBuilder} {jump weight : Nat}
    (h : b.Awaits jump weight b') (hsound : b.current.Sound) :
    b.current.pc ≤ jump ∧ b'.current.Waits jump := by
  obtain ⟨hle, hat⟩ := h.current.waiting (List.mem_singleton_self jump)
  refine ⟨hle, ?_, hat⟩
  intro hparked
  rw [h.loops] at hparked
  have := hsound.parked jump (Loops.parked_of_breaks hparked)
  omega

namespace Lower
open ChunkBuilder

variable {Value Fault : Type} {M : Machine Value Fault} {registers : Nat → Value}
  {env : Environment Value} {outcome : Outcome Value Fault} {result : Except Fault Value}
  {b b' : ChunkBuilder} {exit lo weight weight' : Nat} {pending : List Nat} {body rest : Lower Unit}
  {name : String} {condition : Expr}

theorem jumpUnless_gives {skip : Nat} (h : Computes M condition env result)
    (hready : b.Ready) (hroom : b.current.Room (16 * condition.nodes))
    (hrun : jumpUnless (expr condition none) b = .ok skip b')
    (hcovers : M.Covers b.current.pc [skip] b'.current)
    (hview : b.current.scopes.view registers = env) :
    M.Gives ⟨b.current.pc, registers⟩ result fun v s =>
      s.pc = (if M.meaning.truthy v then b'.current.pc else skip) ∧
        b'.current.scopes.view s.registers = env := by
  rw [jumpUnless_eq] at hrun
  obtain ⟨operand, b₁, hvalue, hrun⟩ := bind_eq_ok.mp hrun
  obtain ⟨register, b₂, hregister, hrun⟩ := bind_eq_ok.mp hrun
  obtain ⟨_, b₃, htest, hrun⟩ := bind_eq_ok.mp hrun
  obtain ⟨skip, b₄, hjump, hrun⟩ := bind_eq_ok.mp hrun
  obtain ⟨_, b₅, hfree, hreturn⟩ := bind_eq_ok.mp hrun
  obtain ⟨rfl, rfl⟩ := pure_eq_ok.mp hreturn
  have hheld := toRegister_held hready hroom hvalue hregister
  have htested := (test_jump_awaits (hheld.ready hready) register _).of_ok
    (bind_eq_ok.mpr ⟨_, _, htest, hjump⟩)
  obtain ⟨hskip, -, happends, -⟩ := test_jump_covered htest hjump
  obtain ⟨next, rfl⟩ := free_eq hfree
  have hpc₂ := hheld.current.pc_ge
  have hcovers₄ : M.Covers b.current.pc [skip] b₄.current := ⟨hcovers.code, hcovers.constants⟩
  have hcovers₂ : M.Covers b.current.pc [] b₂.current :=
    hcovers₄.before (Nat.le_refl _) happends.listing happends.constants (by simp; omega)
  have hcount := hready.sound.count_le
  apply (toRegister_gives hready hroom hvalue hregister h hcovers₂ (Nat.le_refl _) hview).onward
  rintro v ⟨pc, registers₂⟩ ⟨rfl, hat, hkept⟩
  have hview₂ : b₄.current.scopes.view registers₂ = env := by
    rw [htested.scopes, hheld.scopes, ← hview]
    exact hready.sound.view_eq fun r hr => hkept r (by omega)
  refine ⟨_, test_jump_reaches htest hjump hcovers₄ hpc₂ registers₂, ?_, hview₂⟩
  obtain rfl : registers₂ register.toNat = v := hat
  cases M.meaning.truthy (registers₂ register.toNat) <;> rfl

theorem jumpUnless_follows {skip : Nat} {f f' : FunctionBuilder}
    (hcondition : Computes M condition env result)
    (hready : b.Ready) (hroom : b.current.Room (16 * condition.nodes))
    (hrun : jumpUnless (expr condition none) b = .ok skip b')
    (hcovers : M.Covers b.current.pc [skip] b'.current)
    (hview : b.current.scopes.view registers = env)
    (hraised : ∀ fault, result = .error fault → outcome = .ended (.raised fault))
    (htrue : ∀ v registers', result = .ok v → M.meaning.truthy v = true →
      b'.current.scopes.view registers' = env →
      M.Follows exit f f' ⟨b'.current.pc, registers'⟩ outcome)
    (hfalse : ∀ v registers', result = .ok v → M.meaning.truthy v = false →
      b'.current.scopes.view registers' = env → M.Follows exit f f' ⟨skip, registers'⟩ outcome) :
    M.Follows exit f f' ⟨b.current.pc, registers⟩ outcome := by
  have hgives := jumpUnless_gives hcondition hready hroom hrun hcovers hview
  cases result with
  | error fault =>
    rw [hraised fault rfl]
    exact hgives
  | ok v =>
    obtain ⟨⟨pc, registers'⟩, hreaches, hpc, hview'⟩ := hgives
    apply hreaches.follows
    cases htruth : M.meaning.truthy v with
    | true =>
      rw [htruth, if_pos rfl] at hpc
      obtain rfl : pc = b'.current.pc := hpc
      exact htrue v registers' rfl htruth hview'
    | false =>
      rw [htruth, if_neg Bool.false_ne_true] at hpc
      obtain rfl : pc = skip := hpc
      exact hfalse v registers' rfl htruth hview'

theorem aimHere_eq {p : Nat} (h : b.current.Waits p) (hrun : aimHere p b = .ok () b') :
    ∃ jump, jump.op = .jmp ∧ b' = { b with
      current := b.current.replaced p (FunctionBuilder.aimed jump p b.current.pc) } := by
  obtain ⟨-, jump, hat, hop⟩ := h
  obtain ⟨-, hstate⟩ := (aimHere_ensures hat (by rw [hop]; rfl)).of_ok hrun
  exact ⟨jump, hop, hstate⟩

theorem aimHere_settled {p : Nat} (h : b.current.Waits p) (hrun : aimHere p b = .ok () b')
    (hsettled : M.Settled exit lo pending b'.current) (hlo : lo ≤ p) (hpending : p ∉ pending)
    (hroom : b.current.Room 0) :
    M.Settled exit lo (p :: pending) b.current ∧ M.JumpsTo p b.current.pc := by
  have hlt := h.lt
  have hapart : p ∉ pending ++ b.current.loops.breaks := by
    rw [List.mem_append, not_or]
    exact ⟨hpending, h.1⟩
  obtain ⟨jump, hop, rfl⟩ := aimHere_eq h hrun
  exact ⟨hsettled.of_replaced, hsettled.covers.jumpsTo hlo hlt hapart hop hroom.1⟩

structure Guarded (condition : Expr) (name : String) (body : Lower Unit) (weight skip : Nat)
    (b b₁ b₂ : ChunkBuilder) : Prop where
  ready : b.Ready
  room : b.current.Room (16 * condition.nodes)
  test : jumpUnless (expr condition none) b = .ok skip b₁
  awaits : b.Awaits skip (16 * condition.nodes + 6) b₁
  tested : b.Advances [skip] (16 * condition.nodes + 6) b₁
  inside : inScope name body b₁ = .ok () b₂
  roomInside : b₁.current.Room weight
  block : b₁.Advances [] weight b₂
  stack : b₂.current.scopes.stack = b₁.current.scopes.stack

section Guarded

variable {skip : Nat} {b₁ b₂ : ChunkBuilder}

theorem guarded (hbody : Advancing weight body) (hready : b.Ready) (hrest : b.current.AtRest)
    (hroom : b.current.Room (16 * condition.nodes + weight + 6))
    (htest : jumpUnless (expr condition none) b = .ok skip b₁)
    (hinside : inScope name body b₁ = .ok () b₂) :
    Guarded condition name body weight skip b b₁ b₂ := by
  have hroom₀ : b.current.Room (16 * condition.nodes) := hroom.weaken (by omega)
  have hawaits := (jumpUnless_awaits (lowerable condition none) hready hroom₀).of_ok htest
  have htested := hawaits.advances hrest
  have hroom₁ : b₁.current.Room weight := htested.current.room hroom (by omega)
  obtain ⟨hscoped, hstack⟩ := (inScope_ensures hbody name (htested.ready hready)
    htested.current.atRest hroom₁).of_ok hinside
  exact ⟨hready, hroom₀, htest, hawaits, htested, hinside, hroom₁, hscoped, hstack⟩

namespace Guarded

variable (h : Guarded condition name body weight skip b b₁ b₂)
include h

theorem advances : b.Advances [skip] (16 * condition.nodes + 6 + weight) b₂ :=
  h.tested.trans h.block

theorem waits : b.current.pc ≤ skip ∧ skip < b₁.current.pc ∧ b₂.current.Waits skip := by
  obtain ⟨hle, hwaits⟩ := h.awaits.waits h.ready.sound
  exact ⟨hle, hwaits.lt, hwaits.advances h.block.current⟩

theorem covers (hsettled : M.Settled exit b.current.pc [skip] b₂.current) :
    M.Covers b.current.pc [skip] b₁.current :=
  (hsettled.before h.block.current).inside h.ready.sound h.awaits.loops (Nat.le_refl _)

theorem entered (hsettled : M.Settled exit b.current.pc [skip] b₂.current)
    (hview : b₁.current.scopes.view registers = env) :
    Entered M (inScope name body) weight env exit b₁ b₂ registers := by
  obtain ⟨-, hlt, -⟩ := h.waits
  exact ⟨h.tested.ready h.ready, h.tested.current.atRest, h.roomInside, h.inside,
    hsettled.later h.tested.current.pc_ge (by simp; omega), hview⟩

theorem follows {f : FunctionBuilder} (hcondition : Computes M condition env result)
    (hsettled : M.Settled exit b.current.pc [skip] b₂.current)
    (hview : b.current.scopes.view registers = env)
    (hraised : ∀ fault, result = .error fault → outcome = .ended (.raised fault))
    (htrue : ∀ v, result = .ok v → M.meaning.truthy v = true →
      Simulates M (inScope name body) weight env outcome)
    (honward : (∀ registers', M.Reaches ⟨b₂.current.pc, registers'⟩ ⟨f.pc, registers'⟩) ∧
      f.scopes.stack = b₂.current.scopes.stack)
    (hfalse : ∀ v registers', result = .ok v → M.meaning.truthy v = false →
      b₁.current.scopes.view registers' = env →
      M.Follows exit b.current f ⟨skip, registers'⟩ outcome) :
    M.Follows exit b.current f ⟨b.current.pc, registers⟩ outcome := by
  refine jumpUnless_follows hcondition h.ready h.room h.test (h.covers hsettled) hview hraised ?_
    hfalse
  intro v registers₁ hv htruth hview₁
  have hfollows := (htrue v hv htruth).follows (h.entered hsettled hview₁)
  exact (hfollows.of_advances h.tested.current).onward fun _ => honward

end Guarded

end Guarded

theorem simulates_branch (hcondition : Computes M condition env result)
    (hbody : Advancing weight body)
    (hraised : ∀ fault, result = .error fault → outcome = .ended (.raised fault))
    (htrue : ∀ v, result = .ok v → M.meaning.truthy v = true →
      Simulates M (inScope "if" body) weight env outcome)
    (hfalse : ∀ v, result = .ok v → M.meaning.truthy v = false → outcome = .next env) :
    Simulates M (branch (expr condition none) body) (16 * condition.nodes + weight + 6) env
      outcome := by
  refine ⟨fun {exit b b' registers} e => ?_⟩
  obtain ⟨skip, b₁, htest, hrun⟩ := bind_eq_ok.mp e.run
  obtain ⟨_, b₂, hinside, haim⟩ := bind_eq_ok.mp hrun
  have hguarded := guarded hbody e.ready e.atRest e.room htest hinside
  obtain ⟨hle, -, hwaits⟩ := hguarded.waits
  obtain ⟨hsettled, hjumps⟩ := aimHere_settled hwaits haim e.settled hle (by simp)
    (hguarded.advances.current.room e.room (by omega))
  obtain ⟨jump, -, rfl⟩ := aimHere_eq hwaits haim
  have hpc₃ := FunctionBuilder.pc_replaced skip (FunctionBuilder.aimed jump skip b₂.current.pc)
    b₂.current
  apply hguarded.follows hcondition hsettled e.view hraised htrue
  · refine ⟨fun _ => ?_, rfl⟩
    rw [hpc₃]
    exact .refl
  · intro v registers₁ hv htruth hview₁
    rw [hfalse v hv htruth]
    refine ⟨registers₁, ?_, (Scopes.view_of_stack hguarded.stack).trans hview₁⟩
    rw [hpc₃]
    exact hjumps.reaches

theorem simulates_branchElse {otherwise : Lower Unit}
    (hcondition : Computes M condition env result) (hbody : Advancing weight body)
    (hotherwise : Advancing weight' otherwise)
    (hraised : ∀ fault, result = .error fault → outcome = .ended (.raised fault))
    (htrue : ∀ v, result = .ok v → M.meaning.truthy v = true →
      Simulates M (inScope "if" body) weight env outcome)
    (hfalse : ∀ v, result = .ok v → M.meaning.truthy v = false →
      Simulates M (inScope "else" otherwise) weight' env outcome) :
    Simulates M (branchElse (expr condition none) body otherwise)
      (16 * condition.nodes + weight + weight' + 7) env outcome := by
  refine ⟨fun {exit b b' registers} e => ?_⟩
  obtain ⟨skip, b₁, htest, hrun⟩ := bind_eq_ok.mp e.run
  obtain ⟨_, b₂, hinside, hrun⟩ := bind_eq_ok.mp hrun
  obtain ⟨done, b₃, hjump, hrun⟩ := bind_eq_ok.mp hrun
  obtain ⟨_, b₄, haim, hrun⟩ := bind_eq_ok.mp hrun
  obtain ⟨_, b₅, hinside', haim'⟩ := bind_eq_ok.mp hrun
  -- the first branch and the jump over the second one
  have hguarded := guarded hbody e.ready e.atRest (e.room.weaken (by omega)) htest hinside
  have hready₂ := hguarded.advances.ready e.ready
  have hawaits := (jump_awaits hready₂).of_ok hjump
  have hjumped := hawaits.advances hguarded.block.current.atRest
  have hthen := hguarded.advances.trans hjumped
  have hroom₃ : b₃.current.Room weight' := hthen.current.room e.room (by omega)
  obtain ⟨hle, hlt, hwaits₂⟩ := hguarded.waits
  obtain ⟨hle', hwaits'⟩ := hawaits.waits hready₂.sound
  have hpc₂ := hguarded.block.current.pc_ge
  have hwaits₃ := hwaits₂.advances hjumped.current
  -- the second branch
  have hrest' : ∀ q ∈ [skip] ++ [done], q = skip ∨ q ∈ [done] := by simp
  have haimed := (aimHere_advances hthen (hroom₃.weaken (Nat.zero_le _)).1 (by simp) hrest'
    (by simp)).of_ok haim
  obtain ⟨jump, -, hstate⟩ := aimHere_eq hwaits₃ haim
  have hready₄ := haimed.ready e.ready
  have hrest₄ := haimed.current.atRest
  have hroom₄ : b₄.current.Room weight' := haimed.current.room e.room (by omega)
  obtain ⟨hscoped', hstack'⟩ :=
    (inScope_ensures hotherwise _ hready₄ hrest₄ hroom₄).of_ok hinside'
  have hwaits₄ : b₄.current.Waits done := by
    rw [hstate]
    exact hwaits'.replaced (by omega)
  have hwaits₅ := hwaits₄.advances hscoped'.current
  have hstack₄ : b₄.current.scopes.stack = b₂.current.scopes.stack := by
    rw [hstate, ← hawaits.scopes]
    rfl
  -- what is settled of the code, from the end to the beginning
  obtain ⟨hsettled₅, hjumps'⟩ := aimHere_settled hwaits₅ haim' e.settled (by omega) (by simp)
    (hscoped'.current.room hroom₄ (by omega))
  obtain ⟨hsettled₃, hjumps⟩ := aimHere_settled hwaits₃ haim (hsettled₅.before hscoped'.current)
    hle (by simp; omega) (hroom₃.weaken (Nat.zero_le _))
  have hsettled₂ : M.Settled exit b.current.pc [skip] b₂.current :=
    (hsettled₃.before hjumped.current).later (Nat.le_refl _) (by simp; omega)
  obtain ⟨hdone, -⟩ := (jump_ensures b₂).of_ok hjump
  obtain ⟨jump', -, rfl⟩ := aimHere_eq hwaits₅ haim'
  have hpc₆ := FunctionBuilder.pc_replaced done (FunctionBuilder.aimed jump' done b₅.current.pc)
    b₅.current
  apply hguarded.follows hcondition hsettled₂ e.view hraised htrue
  · refine ⟨fun registers₂ => ?_, hstack'.trans hstack₄⟩
    rw [hpc₆, ← hdone]
    exact hjumps'.reaches
  · intro v registers₁ hv htruth hview₁
    have hlt₄ := hwaits₄.lt
    have hsettled : M.Settled exit b₄.current.pc [] b₅.current :=
      hsettled₅.later haimed.current.pc_ge (by simp; omega)
    have hview₄ := (Scopes.view_of_stack (hstack₄.trans hguarded.stack)).trans hview₁
    have hfollows := (hfalse v hv htruth).follows
      ⟨hready₄, hrest₄, hroom₄, hinside', hsettled, hview₄⟩
    have hpc₄ : b₄.current.pc = b₃.current.pc := by
      rw [hstate]
      exact FunctionBuilder.pc_replaced ..
    apply hjumps.reaches.follows
    rw [← hpc₄]
    refine (hfollows.of_advances haimed.current).onward fun _ => ⟨fun _ => ?_, rfl⟩
    rw [hpc₆]
    exact .refl

theorem simulates_deadBranch (hbody : Advancing weight body)
    (h : Simulates M rest weight' env outcome) :
    Simulates M (deadBranch body rest) (weight + weight') env outcome := by
  refine ⟨fun {exit b b' registers} e => ?_⟩
  obtain ⟨_, b₀, hopen, hrun⟩ := bind_eq_ok.mp e.run
  obtain ⟨_, b₁, hinside, hrun⟩ := bind_eq_ok.mp hrun
  obtain ⟨_, b₂, hdiscard, hrest⟩ := bind_eq_ok.mp hrun
  obtain rfl := onCurrent_modify_eq_ok.mp hopen
  have hready : Ready { b with current := b.current.openSection } :=
    e.ready.withCurrent { e.ready.sound with } List.prefix_rfl
  obtain ⟨hscoped, hstack⟩ :=
    (inScope_ensures hbody _ hready e.atRest (e.room.weaken (by omega))).of_ok hinside
  have hcapacity : b.current.pc ≤ FunctionBuilder.capacity :=
    Nat.le_trans (Nat.le_add_right _ _) e.room.1
  obtain ⟨f, ⟨hadvances, hpc, hstack'⟩, rfl⟩ := (onCurrent_ensures
    (FunctionBuilder.discardSection_advances e.ready.sound hcapacity hscoped.current hstack)).of_ok
      hdiscard
  have hgone : b.Advances [] weight { b₁ with current := f } :=
    ⟨hadvances, hscoped.around.options, hscoped.around.enclosing⟩
  have hroom₂ : f.Room weight' := hadvances.room e.room (Nat.le_refl _)
  have hsettled : M.Settled exit f.pc [] b'.current := by
    rw [hpc]
    exact e.settled
  have hfollows := h.follows ⟨hgone.ready e.ready, hadvances.atRest, hroom₂, hrest, hsettled,
    (Scopes.view_of_stack hstack').trans e.view⟩
  rw [← hpc]
  exact hfollows.of_advances hadvances

theorem aimAll_covers {breaks : List Nat} {here : Nat} {f f' : FunctionBuilder}
    (hjumps : ∀ p ∈ breaks, lo ≤ p ∧ ∃ jump, f.listing[p]? = some jump ∧ jump.op = .jmp)
    (hrun : (breaks.forM (FunctionBuilder.aim · here)) f = .ok () f') (hhere : f.pc = here)
    (hcovers : M.Covers lo [] f') (hcapacity : here ≤ FunctionBuilder.capacity) :
    M.Covers lo breaks f ∧ (∀ p ∈ breaks, M.JumpsTo p here) ∧ f'.pc = here := by
  induction breaks generalizing f with
  | nil =>
    obtain ⟨-, rfl⟩ := pure_eq_ok.mp hrun
    exact ⟨hcovers, by simp, hhere⟩
  | cons p rest ih =>
    rw [List.forM_eq_forM, List.forM_cons] at hrun
    obtain ⟨_, f₁, haim, hrest⟩ := bind_eq_ok.mp hrun
    obtain ⟨hlo, jump, hat, hop⟩ := hjumps p (by simp)
    have hlt : p < f.pc := by
      rw [← FunctionBuilder.length_listing]
      exact (List.getElem?_eq_some_iff.mp hat).1
    obtain ⟨-, rfl⟩ := (FunctionBuilder.aim_ensures f hat (by rw [hop]; rfl)).of_ok haim
    obtain ⟨hcovers₁, hall, hpc⟩ := ih (FunctionBuilder.jumps_replaced hjumps hat hop) hrest
      (by rw [FunctionBuilder.pc_replaced, hhere])
    refine ⟨hcovers₁.of_replaced, ?_, hpc⟩
    intro q hq
    by_cases hrestq : q ∈ rest
    · exact hall q hrestq
    · obtain rfl : q = p := by simpa [hrestq] using hq
      rw [← hhere] at hcovers₁ hcapacity ⊢
      exact hcovers₁.jumpsTo hlo hlt hrestq hop hcapacity

theorem closeLoop_settled {breaks : List Nat} {f f' f'' : FunctionBuilder}
    (h : FunctionBuilder.Extends (some f.pc) breaks weight (f.openLoop (some f.pc)) f')
    (hloops : f'.loops = (f.openLoop (some f.pc)).loops.withBreaks breaks)
    (hrun : FunctionBuilder.closeLoop f' = .ok () f'') (hcovers : M.Covers f.pc [] f'')
    (hcapacity : f'.pc ≤ FunctionBuilder.capacity) :
    M.Settled f'.pc f.pc [] f' ∧ f''.pc = f'.pc := by
  have haim := FunctionBuilder.closeLoop_aims hloops hrun
  have hbreaks : f'.loops.breaks = breaks := by
    rw [hloops]
    rfl
  have hwaiting : ∀ p ∈ breaks, f.pc ≤ p ∧ ∃ jump,
      ({ f' with loops := f.loops } : FunctionBuilder).listing[p]? = some jump ∧ jump.op = .jmp :=
    fun p hp => h.waiting hp
  obtain ⟨hcovers', hjumps, hpc⟩ := aimAll_covers hwaiting haim rfl hcovers hcapacity
  refine ⟨⟨⟨?_, hcovers'.constants⟩, ?_⟩, hpc⟩
  · rw [hbreaks]
    exact hcovers'.code
  · rw [hbreaks]
    exact hjumps

/-- A loop while it is lowered: its condition and its body, with the jump back behind them,
and then the jump out of it aimed. -/
structure Looped (condition : Expr) (body : Lower Unit) (weight done : Nat)
    (b b₁ b₂ b₃ b' : ChunkBuilder) : Prop where
  guarded : Guarded condition "while" body weight done
    { b with current := b.current.openLoop (some b.current.pc) } b₁ b₂
  le : b.current.pc ≤ b₂.current.pc
  capacity : b₂.current.pc < FunctionBuilder.capacity
  back : b₂.current.Advances [] 1 (b₂.current.placed [b₂.current.jumpBack b.current.pc])
  roomBack : (b₂.current.placed [b₂.current.jumpBack b.current.pc]).Room 0
  aim : aimHere done
    { b₂ with current := b₂.current.placed [b₂.current.jumpBack b.current.pc] } = .ok () b₃
  round : Advances [] (16 * condition.nodes + weight + 7)
    { b with current := b.current.openLoop (some b.current.pc) } b₃
  room : b₃.current.Room 0
  close : onCurrent FunctionBuilder.closeLoop b₃ = .ok () b'

theorem looped (hbody : Advancing weight body) (h : b.Ready) (hrest : b.current.AtRest)
    (hroom : b.current.Room (16 * condition.nodes + weight + 7))
    (hrun : whileLoop (expr condition none) body b = .ok () b') :
    ∃ done b₁ b₂ b₃, Looped condition body weight done b b₁ b₂ b₃ b' := by
  obtain ⟨_, _, hget, hrun⟩ := bind_eq_ok.mp hrun
  obtain ⟨rfl, rfl⟩ := get_eq_ok.mp hget
  obtain ⟨_, b₀, hopen, hrun⟩ := bind_eq_ok.mp hrun
  obtain rfl := onCurrent_modify_eq_ok.mp hopen
  obtain ⟨done, b₁, htest, hrun⟩ := bind_eq_ok.mp hrun
  obtain ⟨_, b₂, hinside, hrun⟩ := bind_eq_ok.mp hrun
  obtain ⟨_, b₃, hjump, hrun⟩ := bind_eq_ok.mp hrun
  obtain ⟨_, b₄, haim, hclose⟩ := bind_eq_ok.mp hrun
  have hready : Ready { b with current := b.current.openLoop (some b.current.pc) } :=
    h.withCurrent (FunctionBuilder.sound_openLoop h.sound) List.prefix_rfl
  have hroom' : (b.current.openLoop (some b.current.pc)).Room
      (16 * condition.nodes + weight + 7) := hroom
  have hguarded : Guarded condition "while" body weight done _ b₁ b₂ :=
    guarded hbody hready hrest (hroom'.weaken (by omega)) htest hinside
  have hround := hguarded.advances
  have hroom₂ : b₂.current.Room 1 := hround.current.room hroom' (by omega)
  have hle : b.current.pc ≤ b₂.current.pc := hround.current.pc_ge
  have hcapacity : b₂.current.pc < FunctionBuilder.capacity :=
    Nat.lt_of_lt_of_le (Nat.lt_succ_self _) hroom₂.1
  obtain ⟨f₃, ⟨hback, rfl⟩, rfl⟩ := (onCurrent_ensures (FunctionBuilder.jumpTo_advances
    (hround.ready hready).sound hround.current.atRest hcapacity hle
    hround.current.head?)).of_ok hjump
  have hwhole := hround.trans (advances_withCurrent hback)
  have hroom₃ : (b₂.current.placed [b₂.current.jumpBack b.current.pc]).Room 0 :=
    hwhole.current.room hroom' (by omega)
  have haimed := (aimHere_advances_nil hwhole hroom₃).of_ok haim
  exact ⟨done, b₁, b₂, b₄, hguarded, hle, hcapacity, hback, hroom₃, haim,
    haimed.weaken (by omega), haimed.current.room hroom' (by omega), hclose⟩

theorem Looped.waits {done : Nat} {b₁ b₂ b₃ : ChunkBuilder}
    (h : Looped condition body weight done b b₁ b₂ b₃ b') :
    FunctionBuilder.Waits done (b₂.current.placed [b₂.current.jumpBack b.current.pc]) :=
  h.guarded.waits.2.2.advances h.back

theorem whileLoop_entered (hbody : Advancing weight body)
    (e : Entered M (whileLoop (expr condition none) body) (16 * condition.nodes + weight + 7) env
      exit b b' registers) :
    ∃ done b₁ b₂,
      Guarded condition "while" body weight done
        { b with current := b.current.openLoop (some b.current.pc) } b₁ b₂ ∧
      M.Settled b'.current.pc b.current.pc [done] b₂.current ∧ M.JumpsTo done b'.current.pc ∧
      M.JumpsTo b₂.current.pc b.current.pc ∧
      b'.current.scopes.stack = b₂.current.scopes.stack := by
  obtain ⟨done, b₁, b₂, b₃, hlooped⟩ := looped hbody e.ready e.atRest e.room e.run
  obtain ⟨breaks, hextends, hloops, -⟩ := hlooped.round.current.grown
  -- what is settled of the code, from the end to the beginning
  obtain ⟨f', hclosed, rfl⟩ := onCurrent_eq_ok.mp hlooped.close
  have hclosing : FunctionBuilder.closeLoop.Ensures b₃.current fun _ f'' =>
      b.current.Extends none [] _ f'' ∧ _ :=
    FunctionBuilder.closeLoop_ensures hextends e.ready.sound hloops hlooped.room.1
  obtain ⟨-, instructions, hstate⟩ := hclosing.of_ok hclosed
  have hcovers : M.Covers b.current.pc [] f' :=
    e.settled.inside e.ready.sound (by rw [hstate]) (Nat.le_refl _)
  obtain ⟨hsettled, hpc'⟩ := closeLoop_settled hextends hloops hclosed hcovers hlooped.room.1
  obtain ⟨hle, -, hwaits⟩ := hlooped.guarded.waits
  obtain ⟨hsettled', hjumps⟩ :=
    aimHere_settled hlooped.waits hlooped.aim hsettled hle (by simp) hlooped.roomBack
  obtain ⟨jump, -, rfl⟩ := aimHere_eq hlooped.waits hlooped.aim
  rw [FunctionBuilder.pc_replaced] at hpc' hsettled'
  rw [← hpc'] at hsettled' hjumps
  have hstays : M.JumpsTo b₂.current.pc b.current.pc := by
    apply hsettled'.covers.jumpsBack hlooped.le _ hlooped.capacity hlooped.le
    intro hpending
    rcases List.mem_append.mp hpending with hp | hp
    · have := List.mem_singleton.mp hp
      have := hwaits.lt
      omega
    · have hsound := hlooped.guarded.advances.current.sound
      exact Nat.lt_irrefl _ (hsound.parked _ (Loops.parked_of_breaks hp))
  refine ⟨done, b₁, b₂, hlooped.guarded, hsettled'.before hlooped.back, hjumps, hstays, ?_⟩
  rw [hstate]
  rfl

def AfterRound (M : Machine Value Fault) (loop : Lower Unit) (weight : Nat)
    (outcome : Outcome Value Fault) : Outcome Value Fault → Prop
  | .next env | .continued env => Simulates M loop weight env.tail outcome
  | .broke env => outcome = .next env.tail
  | .ended ending => outcome = .ended ending

theorem simulates_whileLoop {total : Nat} (hcondition : Computes M condition env result)
    (hbody : Advancing weight body)
    (hraised : ∀ fault, result = .error fault → outcome = .ended (.raised fault))
    (hdone : ∀ v, result = .ok v → M.meaning.truthy v = false → outcome = .next env)
    (hround : ∀ v, result = .ok v → M.meaning.truthy v = true → ∃ inner,
      Simulates M body weight env.enter inner ∧
        AfterRound M (whileLoop (expr condition none) body) total outcome inner)
    (hle : 16 * condition.nodes + weight + 7 ≤ total) :
    Simulates M (whileLoop (expr condition none) body) total env outcome := by
  refine ⟨fun {exit b b' registers} e => ?_⟩
  obtain ⟨done, b₁, b₂, hguarded, hsettled, hjumps, hback, hstack'⟩ :=
    whileLoop_entered hbody { e with room := e.room.weaken hle }
  have hscopes : b₁.current.scopes = b.current.scopes := hguarded.awaits.scopes
  have hstack₂ : b₂.current.scopes.stack = b.current.scopes.stack := by
    rw [hguarded.stack, hscopes]
  have hleave {registers' : Nat → Value} {env' : Environment Value}
      (hview : b₁.current.scopes.view registers' = env') :
      b'.current.scopes.view registers' = env' :=
    (Scopes.view_of_stack (hstack'.trans hguarded.stack)).trans hview
  apply jumpUnless_follows hcondition hguarded.ready hguarded.room hguarded.test
    (hguarded.covers hsettled) e.view hraised
  · intro v registers₁ hv htruth hview₁
    obtain ⟨inner, hsimulates, hafter⟩ := hround v hv htruth
    obtain ⟨b₃, hentered, hpc, hstack⟩ :=
      inScope_entered hbody (hguarded.entered hsettled hview₁)
    have hfollows := hsimulates.follows hentered
    cases inner with
    | next env' =>
      obtain ⟨registers₂, hreaches, rfl⟩ := hfollows
      rw [← hpc] at hreaches
      have hview : b.current.scopes.view registers₂ = (b₃.current.scopes.view registers₂).tail := by
        rw [Scopes.view, ← hstack₂, hstack, List.map_tail, Scopes.view]
      apply hreaches.follows
      apply hback.reaches.follows
      exact hafter.follows { e with view := hview }
    | continued env' =>
      obtain ⟨head, registers₂, hhead', hreaches, hview⟩ := hfollows
      have hhead : b₁.current.loops.head? = some b.current.pc := by
        rw [hguarded.awaits.loops]
        rfl
      obtain rfl : head = b.current.pc := Option.some.inj (hhead'.symm.trans hhead)
      have hview' : b₁.current.scopes.view registers₂ = env'.tail := hview
      rw [hscopes] at hview'
      apply hreaches.follows
      exact hafter.follows { e with view := hview' }
    | broke env' =>
      obtain ⟨registers₂, hreaches, hview⟩ := hfollows
      rw [hafter]
      exact ⟨registers₂, hreaches, hleave hview⟩
    | ended ending =>
      rw [hafter]
      exact hfollows
  · intro v registers₁ hv htruth hview₁
    rw [hdone v hv htruth]
    exact ⟨registers₁, hjumps.reaches, hleave hview₁⟩

end Lower

end RegisterCode
